import Octopos.Proc.Reap

/-!
# What becomes of an exit

A zombie keeps its pid and its status until the `wait` of its parent returns them, once. Every
process gets a number of its own (`serial`), because slots and pids are used again; `exits` and
`reaps` record who exited and who was returned by `wait`, and `ExitInv` relates them to the zombies
in the table.
-/

namespace Octopos

section Exits

variable {n : ℕ} [NeZero n] {s s' : ProcSys n} {p c : Fin n}
variable {x : ProcEntry} {l : Fin n × ProcAction} {haveKids : Bool}

/-! ## History and table -/

/-- Every exit is a zombie or was returned by a `wait`, and not both. -/
structure ExitInv (s : ProcSys n) : Prop where
  serial_lt : ∀ i, (s.table i).serial < s.created
  serial_inj : ∀ i j, (s.table i).state ≠ .unused → (s.table j).state ≠ .unused →
    (s.table i).serial = (s.table j).serial → i = j
  exit_lt : ∀ e ∈ s.exits, e.serial < s.created
  nodup : (s.exits.map Exited.serial).Nodup
  fresh : ∀ i, (s.table i).state ≠ .unused → (s.table i).state ≠ .zombie →
    ∀ e ∈ s.exits, e.serial ≠ (s.table i).serial
  zombie : ∀ i, (s.table i).state = .zombie →
    (s.table i).exited ∈ s.exits ∧ (s.table i).exited ∉ s.reaps
  kept : ∀ e ∈ s.exits, e ∈ s.reaps ∨ ∃ i, (s.table i).state = .zombie ∧ (s.table i).exited = e
  reaps_sub : ∀ e ∈ s.reaps, e ∈ s.exits
  reaps_nodup : s.reaps.Nodup

/-- Slots hold the same process, as a zombie or not. -/
structure ProcEntry.Same (x y : ProcEntry) : Prop where
  unused : y.state = .unused ↔ x.state = .unused
  zombie : y.state = .zombie ↔ x.state = .zombie
  exited : y.exited = x.exited

section

omit [NeZero n]

theorem ProcEntry.Same.refl (x : ProcEntry) : x.Same x := ⟨Iff.rfl, Iff.rfl, rfl⟩

theorem ProcEntry.Same.of_alive {y : ProcEntry} (hx : x.state.alive = true ∨ x.state = .used)
    (hy : y.state.alive = true) (he : y.exited = x.exited) : x.Same y := by
  obtain ⟨hy1, -, hy3⟩ := ProcState.alive_ne hy
  have hx' : x.state ≠ .unused ∧ x.state ≠ .zombie := by
    rcases hx with hx | hx
    · exact ⟨(ProcState.alive_ne hx).1, (ProcState.alive_ne hx).2.2⟩
    · rw [hx]
      decide
  exact ⟨iff_of_false hy1 hx'.1, iff_of_false hy3 hx'.2, he⟩

/-- What a step of process `p` does to the exits. -/
inductive ProcSys.Effect (s : ProcSys n) (p : Fin n) (s' : ProcSys n) : Prop
  | keep (htable : ∀ i, (s.table i).Same (s'.table i)) (hcreated : s'.created = s.created)
      (hexits : s'.exits = s.exits) (hreaps : s'.reaps = s.reaps)
  | alloc (c : Fin n) (x : ProcEntry) (hc : (s.table c).state = .unused)
      (hx : x.state = .used ∨ x.state = .unused) (hserial : x.serial = s.created)
      (htable : s'.table = upd s.table c x) (hcreated : s'.created = s.created + 1)
      (hexits : s'.exits = s.exits) (hreaps : s'.reaps = s.reaps)
  | die (status : ℤ) (hf : s.frame p = .exitZombie status) (hs : s' = s.zombieStep p status)
  | reap (c : Fin n) (hc : s.parents c = some p) (hz : (s.table c).state = .zombie)
      (hs : s' = s.reap p c)

theorem ProcEntry.Same.upd {t : Fin n → ProcEntry} (hx : (t c).Same x) (i : Fin n) :
    (t i).Same (upd t c x i) := by
  by_cases hi : i = c
  · subst hi
    rwa [upd_self]
  · rw [upd_of_ne hi]
    exact .refl _

theorem ProcEntry.Same.wake (x : ProcEntry) (ch : Channel) : x.Same (ProcSys.wakeEntry ch x) := by
  unfold ProcSys.wakeEntry
  split_ifs with hi
  · exact .of_alive (Or.inl (by rw [hi.1]; rfl)) rfl rfl
  · exact .refl _

theorem ProcSys.Effect.refl (htable : s'.table = s.table) (hcreated : s'.created = s.created)
    (hexits : s'.exits = s.exits) (hreaps : s'.reaps = s.reaps) : s.Effect p s' :=
  .keep (fun i => by rw [htable]; exact .refl _) hcreated hexits hreaps

end

theorem ProcSys.Effect.run (ht : TreeInv s) (hp : (s.table p).state = .running) (hs : s.Runs p s') :
    s.Effect p s' := by
  have halive : (s.table p).state.alive = true := by rw [hp]; rfl
  cases hs with
  | forkScan c memory hf =>
    unfold ProcSys.forkScanStep
    by_cases hc : (s.table c).state = .unused
    · rw [if_pos hc]
      cases memory with
      | true => exact .alloc c _ hc (Or.inl rfl) rfl rfl rfl rfl rfl
      | false => exact .alloc c _ hc (Or.inr rfl) rfl rfl rfl rfl rfl
    · rw [if_neg hc]
      exact .refl rfl rfl rfl rfl
  | forkStart c hf =>
    have hused := (ht.frame p).child c (by rw [hf]; rfl)
    exact .keep (ProcEntry.Same.upd (.of_alive (Or.inr hused) rfl rfl)) rfl rfl rfl
  | reparent status c hf =>
    unfold ProcSys.reparentStep
    split_ifs <;> exact .refl rfl rfl rfl rfl
  | zombie status hf => exact .die status hf rfl
  | waitScan c haveKids hf =>
    unfold ProcSys.waitScanStep
    split_ifs with hc hz
    · exact .reap c hc hz rfl
    · exact .refl rfl rfl rfl rfl
    · exact .refl rfl rfl rfl rfl
  | waitEnd i haveKids hf hi =>
    unfold ProcSys.waitEndStep
    split_ifs <;> exact .refl rfl rfl rfl rfl
  | wakeParent | wakeInit => exact .keep (fun i => .wake _ _) rfl rfl rfl
  | waitSleep | awake => exact .keep (ProcEntry.Same.upd ⟨Iff.rfl, Iff.rfl, rfl⟩) rfl rfl rfl
  | waitDoze | sleep | yield =>
    exact .keep (ProcEntry.Same.upd (.of_alive (Or.inl halive) rfl rfl)) rfl rfl rfl
  | _ => exact .refl rfl rfl rfl rfl

theorem ProcStep.effect (ht : TreeInv s) (hs : ProcStep s l s') : s.Effect l.1 s' := by
  cases hs.moves with
  | run hr hs => exact .run ht hr hs
  | dispatch hr =>
    exact .keep (ProcEntry.Same.upd (.of_alive (Or.inl (by rw [hr]; rfl)) rfl rfl)) rfl rfl rfl
  | kill =>
    unfold ProcSys.killEntry
    split_ifs with hsl
    · exact .keep (ProcEntry.Same.upd (.of_alive (Or.inl (by rw [hsl]; rfl)) rfl rfl)) rfl rfl rfl
    · exact .keep (ProcEntry.Same.upd ⟨Iff.rfl, Iff.rfl, rfl⟩) rfl rfl rfl
  | wakeup ch => exact .keep (fun i => .wake _ _) rfl rfl rfl

/-! ## Every exit is delivered once -/

section

omit [NeZero n]

theorem ExitInv.keep (h : ExitInv s) (htable : ∀ i, (s.table i).Same (s'.table i))
    (hcreated : s'.created = s.created) (hexits : s'.exits = s.exits)
    (hreaps : s'.reaps = s.reaps) : ExitInv s' := by
  have hserial (i : Fin n) : (s'.table i).serial = (s.table i).serial :=
    congrArg Exited.serial (htable i).exited
  refine ⟨fun i => ?_, fun i j hi hj he => ?_, ?_, ?_, fun i hu hz => ?_, fun i hi => ?_, ?_, ?_, ?_⟩
  · rw [hserial, hcreated]
    exact h.serial_lt i
  · rw [hserial, hserial] at he
    exact h.serial_inj i j (fun hu => hi ((htable i).unused.2 hu)) (fun hu => hj ((htable j).unused.2 hu)) he
  · rw [hexits, hcreated]
    exact h.exit_lt
  · rw [hexits]
    exact h.nodup
  · rw [hexits, hserial]
    exact h.fresh i (fun h' => hu ((htable i).unused.2 h')) fun h' => hz ((htable i).zombie.2 h')
  · rw [hexits, hreaps, (htable i).exited]
    exact h.zombie i ((htable i).zombie.1 hi)
  · rw [hexits, hreaps]
    refine fun e he => (h.kept e he).imp_right fun ⟨i, hi, hie⟩ => ⟨i, (htable i).zombie.2 hi, ?_⟩
    rw [(htable i).exited, hie]
  · rw [hexits, hreaps]
    exact h.reaps_sub
  · rw [hreaps]
    exact h.reaps_nodup

theorem ExitInv.alloc (h : ExitInv s) (hc : (s.table c).state = .unused)
    (hx : x.state = .used ∨ x.state = .unused) (hserial : x.serial = s.created)
    (htable : s'.table = upd s.table c x) (hcreated : s'.created = s.created + 1)
    (hexits : s'.exits = s.exits) (hreaps : s'.reaps = s.reaps) : ExitInv s' := by
  have hself : s'.table c = x := by rw [htable, upd_self]
  have hkeep {i : Fin n} (hi : i ≠ c) : s'.table i = s.table i := by rw [htable, upd_of_ne hi]
  have hxz : x.state ≠ .zombie := by
    rcases hx with hx | hx <;> rw [hx] <;> decide
  have hne {i : Fin n} (hi : (s'.table i).state = .zombie) : i ≠ c := by
    rintro rfl
    rw [hself] at hi
    exact hxz hi
  refine ⟨fun i => ?_, fun i j hi hj he => ?_, fun e he => ?_, ?_, fun i hu hz e he => ?_,
    fun i hi => ?_, fun e he => ?_, ?_, ?_⟩
  · rw [hcreated]
    by_cases hic : i = c
    · subst hic
      rw [hself, hserial]
      exact Nat.lt_succ_self _
    · rw [hkeep hic]
      exact Nat.lt_succ_of_lt (h.serial_lt i)
  · by_cases hic : i = c <;> by_cases hjc : j = c
    · rw [hic, hjc]
    · subst hic
      rw [hself, hkeep hjc, hserial] at he
      exact absurd he.symm (h.serial_lt j).ne
    · subst hjc
      rw [hself, hkeep hic, hserial] at he
      exact absurd he (h.serial_lt i).ne
    · rw [hkeep hic] at hi he
      rw [hkeep hjc] at hj he
      exact h.serial_inj i j hi hj he
  · rw [hexits] at he
    rw [hcreated]
    exact Nat.lt_succ_of_lt (h.exit_lt e he)
  · rw [hexits]
    exact h.nodup
  · rw [hexits] at he
    by_cases hic : i = c
    · subst hic
      rw [hself, hserial]
      exact (h.exit_lt e he).ne
    · rw [hkeep hic] at hu hz ⊢
      exact h.fresh i hu hz e he
  · have hic := hne hi
    rw [hkeep hic] at hi ⊢
    rw [hexits, hreaps]
    exact h.zombie i hi
  · rw [hexits] at he
    rw [hreaps]
    refine (h.kept e he).imp_right fun ⟨i, hi, hie⟩ => ⟨i, ?_⟩
    have hic : i ≠ c := by
      rintro rfl
      rw [hc] at hi
      cases hi
    rw [hkeep hic]
    exact ⟨hi, hie⟩
  · rw [hexits, hreaps]
    exact h.reaps_sub
  · rw [hreaps]
    exact h.reaps_nodup

theorem ExitInv.die (h : ExitInv s) (hp : (s.table p).state.alive = true) (status : ℤ) :
    ExitInv (s.zombieStep p status) := by
  obtain ⟨hunused, -, hzombie⟩ := ProcState.alive_ne hp
  let x : ProcEntry := { s.table p with xstate := status, state := .zombie }
  have hself : (s.zombieStep p status).table p = x := upd_self ..
  have hkeep {i : Fin n} (hi : i ≠ p) : (s.zombieStep p status).table i = s.table i := upd_of_ne hi
  have hserial (i : Fin n) : ((s.zombieStep p status).table i).serial = (s.table i).serial := by
    by_cases hi : i = p
    · subst hi
      rw [hself]
    · rw [hkeep hi]
  have hexits : (s.zombieStep p status).exits = x.exited :: s.exits := rfl
  have hfresh (e : Exited) (he : e ∈ s.exits) : e.serial ≠ (s.table p).serial :=
    h.fresh p hunused hzombie e he
  have hnot : x.exited ∉ s.exits := fun he => hfresh _ he rfl
  refine ⟨fun i => ?_, fun i j hi hj he => ?_, fun e he => ?_, ?_, fun i hu hz e he => ?_,
    fun i hi => ?_, fun e he => ?_, fun e he => ?_, h.reaps_nodup⟩
  · rw [hserial]
    exact h.serial_lt i
  · rw [hserial, hserial] at he
    have hback {i : Fin n} (hi : ((s.zombieStep p status).table i).state ≠ .unused) :
        (s.table i).state ≠ .unused := by
      by_cases hip : i = p
      · rwa [hip]
      · rwa [hkeep hip] at hi
    exact h.serial_inj i j (hback hi) (hback hj) he
  · rw [hexits, List.mem_cons] at he
    rcases he with rfl | he
    · exact h.serial_lt p
    · exact h.exit_lt e he
  · rw [hexits, List.map_cons, List.nodup_cons]
    refine ⟨fun hmem => ?_, h.nodup⟩
    obtain ⟨e, he, hes⟩ := List.mem_map.1 hmem
    exact hfresh e he hes
  · have hip : i ≠ p := by
      rintro rfl
      exact hz (by rw [hself])
    rw [hkeep hip] at hu hz ⊢
    rw [hexits, List.mem_cons] at he
    rcases he with rfl | he
    · exact fun hs => hip (h.serial_inj p i hunused hu hs).symm
    · exact h.fresh i hu hz e he
  · by_cases hip : i = p
    · subst hip
      rw [hself, hexits]
      exact ⟨List.mem_cons_self, fun hr => hnot (h.reaps_sub _ hr)⟩
    · rw [hkeep hip] at hi ⊢
      obtain ⟨h1, h2⟩ := h.zombie i hi
      exact ⟨List.mem_cons_of_mem _ h1, h2⟩
  · rw [hexits, List.mem_cons] at he
    rcases he with rfl | he
    · exact Or.inr ⟨p, by rw [hself], by rw [hself]⟩
    · refine (h.kept e he).imp_right fun ⟨i, hi, hie⟩ => ⟨i, ?_⟩
      have hip : i ≠ p := by
        rintro rfl
        exact hzombie hi
      rw [hkeep hip]
      exact ⟨hi, hie⟩
  · rw [hexits]
    exact List.mem_cons_of_mem _ (h.reaps_sub e he)

theorem ExitInv.reap (h : ExitInv s) (hz : (s.table c).state = .zombie) : ExitInv (s.reap p c) := by
  have hself : (s.reap p c).table c = (s.table c).free := upd_self ..
  have hkeep {i : Fin n} (hi : i ≠ c) : (s.reap p c).table i = s.table i := upd_of_ne hi
  have hserial (i : Fin n) : ((s.reap p c).table i).serial = (s.table i).serial := by
    by_cases hi : i = c
    · subst hi
      rw [hself]
      rfl
    · rw [hkeep hi]
  have hreaps : (s.reap p c).reaps = (s.table c).exited :: s.reaps := rfl
  obtain ⟨hcexit, hcreap⟩ := h.zombie c hz
  have hused {i : Fin n} (hi : ((s.reap p c).table i).state ≠ .unused) : i ≠ c := by
    rintro rfl
    exact hi (by rw [hself]; rfl)
  have hne : (s.table c).state ≠ .unused := by rw [hz]; decide
  refine ⟨fun i => ?_, fun i j hi hj he => ?_, h.exit_lt, h.nodup, fun i hu hzi e he => ?_,
    fun i hi => ?_, fun e he => ?_, fun e he => ?_, ?_⟩
  · rw [hserial]
    exact h.serial_lt i
  · rw [hserial, hserial] at he
    have hi' := hused hi
    have hj' := hused hj
    rw [hkeep hi'] at hi
    rw [hkeep hj'] at hj
    exact h.serial_inj i j hi hj he
  · have hi' := hused hu
    rw [hkeep hi'] at hu hzi ⊢
    exact h.fresh i hu hzi e he
  · have hi' : i ≠ c := hused (by rw [hi]; decide)
    rw [hkeep hi'] at hi ⊢
    obtain ⟨h1, h2⟩ := h.zombie i hi
    refine ⟨h1, fun hmem => ?_⟩
    rw [hreaps, List.mem_cons] at hmem
    rcases hmem with he | hmem
    · exact hi' (h.serial_inj i c (by rw [hi]; decide) hne (congrArg Exited.serial he))
    · exact h2 hmem
  · rw [hreaps, List.mem_cons]
    rcases h.kept e he with hr | ⟨i, hi, hie⟩
    · exact Or.inl (Or.inr hr)
    · by_cases hic : i = c
      · subst hic
        exact Or.inl (Or.inl hie.symm)
      · exact Or.inr ⟨i, by rw [hkeep hic]; exact ⟨hi, hie⟩⟩
  · rw [hreaps, List.mem_cons] at he
    rcases he with rfl | he
    · exact hcexit
    · exact h.reaps_sub e he
  · rw [hreaps, List.nodup_cons]
    exact ⟨hcreap, h.reaps_nodup⟩

end

theorem TreeInv.alive (ht : TreeInv s) (hu : s.frame p ≠ .user) (hd : s.frame p ≠ .dead) :
    (s.table p).state.alive = true :=
  ((ht.frame p).alive.resolve_left hu).resolve_left hd

theorem ExitInv.step (ht : TreeInv s) (h : ExitInv s) (hs : ProcStep s l s') : ExitInv s' := by
  cases ProcStep.effect ht hs with
  | keep htable hcreated hexits hreaps => exact h.keep htable hcreated hexits hreaps
  | alloc c x hc hx hserial htable hcreated hexits hreaps =>
    exact h.alloc hc hx hserial htable hcreated hexits hreaps
  | die status hf he =>
    rw [he]
    exact h.die (ht.alive (by simp [hf]) (by simp [hf])) status
  | reap c hc hz he =>
    rw [he]
    exact h.reap hz

theorem exitInv_init (h : ProcInit s) : ExitInv s := by
  obtain ⟨hinit, hunused, hserial, -, -, -, hexits, hreaps⟩ := h
  have hone {i : Fin n} (hi : (s.table i).state ≠ .unused) : i = ProcSys.init := by
    by_contra hne
    exact hi (hunused i hne)
  refine ⟨hserial, fun i j hi hj _ => (hone hi).trans (hone hj).symm, ?_, ?_, ?_, fun i hi => ?_, ?_, ?_, ?_⟩
  · simp [hexits]
  · simp [hexits]
  · simp [hexits]
  · have hi' := hone (i := i) (by rw [hi]; decide)
    rw [hi', hinit] at hi
    cases hi
  · simp [hexits]
  · simp [hreaps]
  · simp [hreaps]

theorem exitInv_reachable (h : Reachable ProcInit ProcStep s) : TreeInv s ∧ ReapInv s ∧ ExitInv s :=
  h.invariant (I := fun s => TreeInv s ∧ ReapInv s ∧ ExitInv s)
    (fun _ h0 => ⟨treeInv_init h0, reapInv_init h0, exitInv_init h0⟩)
    fun _ _ _ hi hs => ⟨hi.1.step hs, hi.2.1.step hi.1 hs, hi.2.2.step hi.1 hs⟩

/-! ## Return from `wait` -/

/-- The `wait` of process `p` returns the zombie in slot `c`. -/
structure ProcSys.Reaped (s : ProcSys n) (p c : Fin n) (s' : ProcSys n) : Prop where
  parent : s.parents c = some p
  zombie : (s.table c).state = .zombie
  returns : s'.frame p = .user
  result : s'.result p = some ((s.table c).pid, (s.table c).xstate)
  recorded : s'.reaps = (s.table c).exited :: s.reaps
  free : (s'.table c).state = .unused
  noParent : s'.parents c = none

omit [NeZero n] in
theorem ProcSys.reaped_reap (hc : s.parents c = some p) (hz : (s.table c).state = .zombie) :
    s.Reaped p c (s.reap p c) := by
  refine ⟨hc, hz, upd_self .., upd_self .., rfl, ?_, upd_self ..⟩
  have hself : (s.reap p c).table c = (s.table c).free := upd_self ..
  rw [hself]
  rfl

theorem ProcStep.frame_of_ne (hs : ProcStep s l s') {q : Fin n} (hq : q ≠ l.1) :
    s'.frame q = s.frame q ∨ (s.table q).state = .unused := by
  obtain ⟨p, a⟩ := l
  have hupd (f : ProcFrame n) : upd s.frame p f q = s.frame q := upd_of_ne hq
  cases hs.moves with
  | run hr hs =>
    cases hs with
    | forkScan c memory hf =>
      unfold ProcSys.forkScanStep
      split_ifs with hc hm
      · by_cases hqc : q = c
        · exact Or.inr (by rw [hqc]; exact hc)
        · exact Or.inl ((upd_of_ne hq).trans (upd_of_ne hqc))
      · exact Or.inl (hupd _)
      · exact Or.inl (hupd _)
    | reparent status c hf =>
      unfold ProcSys.reparentStep
      split_ifs <;> exact Or.inl (hupd _)
    | waitScan c haveKids hf =>
      unfold ProcSys.waitScanStep
      split_ifs <;> exact Or.inl (hupd _)
    | waitEnd i haveKids hf hi =>
      unfold ProcSys.waitEndStep
      split_ifs <;> exact Or.inl (hupd _)
    | sleep | awake | yield => exact Or.inl rfl
    | _ => exact Or.inl (hupd _)
  | _ => exact Or.inl rfl

theorem ProcStep.returns (ht : TreeInv s) (hs : ProcStep s l s') {i : ℕ}
    (hf : s.frame p = .waitScan i haveKids) (hr : s'.frame p = .user) : s.Runs p s' := by
  have halive := ht.alive (p := p) (by simp [hf]) (by simp [hf])
  have hp : l.1 = p := by
    by_contra hne
    rcases hs.frame_of_ne (Ne.symm hne) with he | he
    · rw [he, hf] at hr
      cases hr
    · rw [he] at halive
      cases halive
  subst hp
  cases hs.moves with
  | run _ hs => exact hs
  | _ => exact absurd (hf.symm.trans hr) (by simp)

/-- `wait` returns a zombie, or nothing if there is no child or the process is killed. -/
theorem ReapInv.returns (h : ReapInv s) {i : ℕ} (hf : s.frame p = .waitScan i haveKids)
    (hs : s.Runs p s') (hr : s'.frame p = .user) :
    (∃ c, s.Reaped p c s') ∨ s'.result p = none ∧
    ((∀ c, s.parents c ≠ some p) ∨ (s.table p).killed = true) := by
  cases hs with
  | waitScan c k hf' =>
    unfold ProcSys.waitScanStep at hr ⊢
    split_ifs at hr ⊢ with hc hz
    · exact Or.inl ⟨_, ProcSys.reaped_reap hc hz⟩
    · cases (upd_self ..).symm.trans hr
    · cases (upd_self ..).symm.trans hr
  | waitEnd j k hf' hj =>
    unfold ProcSys.waitEndStep at hr ⊢
    split_ifs at hr ⊢ with hgive
    · refine Or.inr ⟨upd_self .., hgive.imp_left fun hkids c hc => ?_⟩
      -- the scan has seen every slot
      have hhave := (h.scan p j k hf').2.2 ⟨c, lt_of_lt_of_le c.isLt hj, hc⟩
      rw [hkids] at hhave
      cases hhave
    · cases (upd_self ..).symm.trans hr
  | waitDoze j k hf' hj => cases (upd_self ..).symm.trans hr
  | yield hlock => cases hf.symm.trans hr
  | _ => simp_all

/-- What the step of process `p` does to the zombies and to the records. -/
structure ProcSys.Delivers (s : ProcSys n) (p : Fin n) (s' : ProcSys n) : Prop where
  zombies : ∀ i, (s.table i).state = .zombie →
    (s'.table i).state = .zombie ∧ (s'.table i).exited = (s.table i).exited ∨ s.Reaped p i s'
  reaps : s'.reaps = s.reaps ∨ ∃ c, s.Reaped p c s'
  exits : s'.exits = s.exits ∨ ∃ status, s.frame p = .exitZombie status ∧
    (s'.table p).state = .zombie ∧
    (s'.table p).exited = ⟨(s.table p).serial, (s.table p).pid, status⟩ ∧
    s'.exits = (s'.table p).exited :: s.exits

theorem ProcSys.Effect.delivers (ht : TreeInv s) (h : s.Effect p s') : s.Delivers p s' := by
  cases h with
  | keep htable hcreated hexits hreaps =>
    refine ⟨fun i hi => Or.inl ?_, Or.inl hreaps, Or.inl hexits⟩
    exact ⟨(htable i).zombie.2 hi, (htable i).exited⟩
  | alloc c x hc hx hserial htable hcreated hexits hreaps =>
    refine ⟨fun i hi => Or.inl ?_, Or.inl hreaps, Or.inl hexits⟩
    have hic : i ≠ c := by
      rintro rfl
      rw [hc] at hi
      cases hi
    rw [htable, upd_of_ne hic]
    exact ⟨hi, rfl⟩
  | die status hf hs =>
    subst hs
    have hself : (s.zombieStep p status).table p
      = { s.table p with xstate := status, state := .zombie } := upd_self ..
    have halive := ht.alive (p := p) (by simp [hf]) (by simp [hf])
    refine ⟨fun i hi => Or.inl ?_, Or.inl rfl, Or.inr ⟨status, hf, ?_, ?_, ?_⟩⟩
    · have hip : i ≠ p := by
        rintro rfl
        exact (ProcState.alive_ne halive).2.2 hi
      have hkeep : (s.zombieStep p status).table i = s.table i := upd_of_ne hip
      rw [hkeep]
      exact ⟨hi, rfl⟩
    · rw [hself]
    · rw [hself]
      rfl
    · rw [hself]
      rfl
  | reap c hc hz hs =>
    subst hs
    refine ⟨fun i hi => ?_, Or.inr ⟨c, reaped_reap hc hz⟩, Or.inl rfl⟩
    by_cases hic : i = c
    · subst hic
      exact Or.inr (reaped_reap hc hz)
    · have hkeep : (s.reap p c).table i = s.table i := upd_of_ne hic
      rw [hkeep]
      exact Or.inl ⟨hi, rfl⟩

/-- In every reachable state, everybody who exited was returned by one `wait`, or is still a zombie.
A zombie stays a zombie, with its pid and its status, until its parent reaps it. `wait` returns a
zombie child, or nothing if there is no child or the caller was killed, and nobody sleeps in `wait`
while it has a zombie child and the lock of `parents` is free. -/
theorem wait_reaps_once (h : Reachable ProcInit ProcStep s) :
    (s.exits.map Exited.serial).Nodup ∧ s.reaps.Nodup ∧
    (∀ e, e ∈ s.exits ↔ e ∈ s.reaps ∨ ∃ i, (s.table i).state = .zombie ∧ (s.table i).exited = e) ∧
    (∀ i, (s.table i).state = .zombie → (s.table i).exited ∉ s.reaps) ∧
    (s.lock = none → ∀ p i, s.Waits p → s.parents i = some p → (s.table i).state ≠ .zombie) ∧
    ∀ l s', ProcStep s l s' → s.Delivers l.1 s' ∧
      ∀ p i haveKids, s.frame p = .waitScan i haveKids → s'.frame p = .user →
        (∃ c, s.Reaped p c s') ∨
          s'.result p = none ∧ ((∀ c, s.parents c ≠ some p) ∨ (s.table p).killed = true) := by
  obtain ⟨ht, hr, he⟩ := exitInv_reachable h
  refine ⟨he.nodup, he.reaps_nodup, fun e => ⟨he.kept e, ?_⟩, fun i hi => (he.zombie i hi).2, ?_, ?_⟩
  · rintro (hmem | ⟨i, hi, rfl⟩)
    · exact he.reaps_sub e hmem
    · exact (he.zombie i hi).1
  · intro hlock p i hw hp hz
    -- a process that is going to wake up init holds the lock
    obtain ⟨-, q, status, j, hq⟩ := hr.sleeper p hw i hp hz
    have hholds : (s.frame q).holds = true := by rw [hq]; rfl
    rw [ht.lock q, hlock] at hholds
    cases hholds
  · intro l s' hs
    refine ⟨(hs.effect ht).delivers ht, fun p i haveKids hf hret => ?_⟩
    exact hr.returns hf (hs.returns ht hf hret) hret

end Exits

/-- Init waits for a child that exits with status 7. -/
theorem wait_reaps_once_child : ∃ s : ProcSys 2, Reachable ProcInit ProcStep s ∧
    s.result 0 = some (2, 7) ∧ s.exits = s.reaps ∧ s.reaps ≠ [] ∧ s.reaps.Nodup := by
  have hrun : (([(0, .dispatch), (0, .fork), (0, .run true), (0, .run true), (0, .run true),
      (0, .run true), (0, .wait), (0, .run true), (0, .run true), (0, .run true), (0, .run true),
      (0, .run true), (1, .dispatch), (1, .exit 7), (1, .run true), (1, .run true), (1, .run true), (1, .run true),
      (1, .run true), (0, .dispatch), (0, .run true), (0, .run true), (0, .run true),
      (0, .run true)].foldlM ProcSys.next (ProcSys.boot : ProcSys 2)).map
      fun s => (s.result 0, s.exits, s.reaps)) = some (some (2, 7), [⟨1, 2, 7⟩], [⟨1, 2, 7⟩]) := rfl
  obtain ⟨s, hs, hstate⟩ := Option.map_eq_some_iff.1 hrun
  have hreach : Reachable ProcInit ProcStep s := .foldlM hs (.init procInit_boot)
  simp only [Prod.mk.injEq] at hstate
  obtain ⟨hresult, hexits, hreaps⟩ := hstate
  exact ⟨s, hreach, hresult, hexits.trans hreaps.symm, by rw [hreaps]; decide,
    (wait_reaps_once hreach).2.1⟩

end Octopos
