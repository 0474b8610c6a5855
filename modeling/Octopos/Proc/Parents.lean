import Octopos.Proc.Tree

/-!
# The process tree

Every process but init has a parent, and a parent is alive. `fork` builds up the child before it
gets a parent, `exit` gives its children away one after the other, and `wait` frees a zombie; what a
process has done so far in one of these functions is part of the invariant (`ProcFrame.Ok`).
-/

namespace Octopos

/-- A process that is neither under construction nor gone. -/
def ProcState.alive : ProcState → Bool
  | sleeping | runnable | running => true
  | _ => false

/-- The slot that a `fork` is setting up. -/
def ProcFrame.child {n : ℕ} : ProcFrame n → Option (Fin n)
  | forkLink c | forkStart c => some c
  | _ => none

/-- The entries of `parents` that `exit` has looked at. -/
def ProcFrame.passed {n : ℕ} : ProcFrame n → Option ℕ
  | exitLock _ => some 0
  | exitReparent _ i => some i
  | exitWakeInit _ i => some (i + 1)
  | exitZombie _ => some n
  | _ => none

section Tree

variable {n : ℕ} [NeZero n] {s s' : ProcSys n} {p c : Fin n} {f : ProcFrame n}
variable {i : ℕ} {o : Option (Fin n)} {status : ℤ} {haveKids : Bool}

/-- What holds of the table and the parents at a point where process `p` stands. -/
structure ProcFrame.Ok (t : Fin n → ProcEntry) (parents : Fin n → Option (Fin n)) (p : Fin n)
    (f : ProcFrame n) : Prop where
  alive : f = .user ∨ f = .dead ∨ (t p).state.alive = true
  child : ∀ c, f.child = some c → (t c).state = .used
  link : ∀ c, f = .forkLink c → parents c = none
  start : ∀ c, f = .forkStart c → parents c = some p
  passed : ∀ i, f.passed = some i → p ≠ ProcSys.init ∧ ∀ j, j.val < i → parents j ≠ some p

/-- The process tree is in order. -/
structure TreeInv (s : ProcSys n) : Prop where
  lock : ∀ p, (s.frame p).holds = true ↔ s.lock = some p
  init : (s.table ProcSys.init).state.alive = true
  parent : ∀ i p, s.parents i = some p → (s.table p).state.alive = true
  orphan : ∀ i, i ≠ ProcSys.init → s.parents i = none →
    (s.table i).state = .unused ∨ (s.table i).state = .used
  unused : ∀ i, (s.table i).state = .unused → s.parents i = none
  frame : ∀ p, (s.frame p).Ok s.table s.parents p
  child : ∀ p q c, (s.frame p).child = some c → (s.frame q).child = some c → p = q

omit [NeZero n] in
theorem ProcState.alive_iff {x : ProcState} :
    x.alive = true ↔ x ∈ [ProcState.sleeping, ProcState.runnable, ProcState.running] := by
  cases x <;> decide

omit [NeZero n] in
theorem ProcState.alive_ne {x : ProcState} (h : x.alive = true) :
    x ≠ .unused ∧ x ≠ .used ∧ x ≠ .zombie := by
  cases x with
  | unused | used | zombie => cases h
  | _ => decide

variable {t : Fin n → ProcEntry} {parents : Fin n → Option (Fin n)} {x : ProcEntry}

theorem ProcFrame.Ok.user : (ProcFrame.user : ProcFrame n).Ok t parents p :=
  ⟨Or.inl rfl, fun _ h => (by cases h), fun _ h => (by cases h), fun _ h => (by cases h),
    fun _ h => by cases h⟩

theorem ProcFrame.Ok.dead : (ProcFrame.dead : ProcFrame n).Ok t parents p :=
  ⟨Or.inr (Or.inl rfl), fun _ h => (by cases h), fun _ h => (by cases h), fun _ h => (by cases h),
    fun _ h => by cases h⟩

theorem ProcFrame.Ok.of_alive (halive : (t p).state.alive = true)
    (hchild : f.child = none) (hpassed : f.passed = none) : f.Ok t parents p where
  alive := Or.inr (Or.inr halive)
  child c h := by rw [hchild] at h; cases h
  link c h := by subst h; cases hchild
  start c h := by subst h; cases hchild
  passed i h := by rw [hpassed] at h; cases h

theorem ProcFrame.Ok.of_passed (halive : (t p).state.alive = true)
    (hinit : p ≠ ProcSys.init) (hi : f.passed = some i)
    (h : ∀ j, j.val < i → parents j ≠ some p) : f.Ok t parents p where
  alive := Or.inr (Or.inr halive)
  child c hc := by
    cases f with
    | forkLink | forkStart => cases hi
    | _ => cases hc
  link c hc := by subst hc; cases hi
  start c hc := by subst hc; cases hi
  passed j hj := by
    rw [hi] at hj
    cases hj
    exact ⟨hinit, h⟩

/-! ## Changes that keep the tree -/

section

variable (h : TreeInv s)
include h

/-- Process `p` goes on, and the lock changes hands between `p` and nobody, or not. -/
theorem TreeInv.move (hlock : ∀ q ≠ p, (o = some q ↔ s.lock = some q))
    (hf : f.holds = true ↔ o = some p) (hok : f.Ok s.table s.parents p)
    (hchild : ∀ c, f.child = some c → ∀ q ≠ p, (s.frame q).child ≠ some c) :
    TreeInv { s.setFrame p f with lock := o } where
  lock q := by
    change (upd s.frame p f q).holds = true ↔ o = some q
    by_cases hq : q = p
    · subst hq
      rwa [upd_self]
    · rw [upd_of_ne hq, h.lock q, hlock q hq]
  init := h.init
  parent := h.parent
  orphan := h.orphan
  unused := h.unused
  frame q := by
    change (upd s.frame p f q).Ok s.table s.parents q
    by_cases hq : q = p
    · subst hq
      rwa [upd_self]
    · rw [upd_of_ne hq]
      exact h.frame q
  child q r c hq hr := by
    change (upd s.frame p f q).child = some c at hq
    change (upd s.frame p f r).child = some c at hr
    by_cases hqp : q = p <;> by_cases hrp : r = p
    · rw [hqp, hrp]
    · subst hqp
      rw [upd_self] at hq
      rw [upd_of_ne hrp] at hr
      exact absurd hr (hchild c hq r hrp)
    · subst hrp
      rw [upd_self] at hr
      rw [upd_of_ne hqp] at hq
      exact absurd hq (hchild c hr q hqp)
    · rw [upd_of_ne hqp] at hq
      rw [upd_of_ne hrp] at hr
      exact h.child q r c hq hr

theorem TreeInv.setFrame (hf : f.holds = (s.frame p).holds) (hok : f.Ok s.table s.parents p)
    (hchild : f.child = none) : TreeInv (s.setFrame p f) :=
  h.move (fun _ _ => Iff.rfl) (by rw [hf]; exact h.lock p) hok fun c hc => by
    rw [hchild] at hc
    cases hc

theorem TreeInv.setLock (hs : s.lock = none ∨ s.lock = some p) (ho : o = none ∨ o = some p)
    (hf : f.holds = true ↔ o = some p) (hok : f.Ok s.table s.parents p) (hchild : f.child = none) :
    TreeInv { s.setFrame p f with lock := o } := by
  have hne {o : Option (Fin n)} (ho : o = none ∨ o = some p) {q : Fin n} (hq : q ≠ p) : o ≠ some q := by
    rcases ho with rfl | rfl
    · exact fun h => by cases h
    · exact fun h => hq (Option.some.inj h).symm
  refine h.move (fun q hq => iff_of_false (hne ho hq) (hne hs hq)) hf hok fun c hc => ?_
  rw [hchild] at hc
  cases hc

/-- Slots change, but none of them becomes or stops being alive, under construction or gone. -/
theorem TreeInv.setTable {t : Fin n → ProcEntry}
    (ht : ∀ i, (t i).state = (s.table i).state ∨ (t i).state.alive = true ∧
      (s.table i).state.alive = true) : TreeInv { s with table := t } := by
  have halive (i : Fin n) (hi : (s.table i).state.alive = true) : (t i).state.alive = true := by
    rcases ht i with heq | hboth
    · rwa [heq]
    · exact hboth.1
  have hkind (i : Fin n) {x : ProcState} (hx : x.alive = false) : (t i).state = x ↔ (s.table i).state = x := by
    rcases ht i with heq | hboth
    · rw [heq]
    · constructor <;> intro he <;> rw [he, hx] at hboth <;> simp at hboth
  refine ⟨h.lock, halive _ h.init, fun i p hp => halive p (h.parent i p hp), fun i hi hnone => ?_,
    fun i hi => h.unused i ((hkind i rfl).1 hi), fun p => ?_, h.child⟩
  · exact (h.orphan i hi hnone).imp (hkind i rfl).2 (hkind i rfl).2
  · have hp := h.frame p
    exact ⟨hp.alive.imp_right fun ha => ha.imp_right (halive p),
      fun c hc => (hkind c rfl).2 (hp.child c hc), hp.link, hp.start, hp.passed⟩

theorem TreeInv.setEntry
    (hx : x.state = (s.table c).state ∨ x.state.alive = true ∧ (s.table c).state.alive = true) :
    TreeInv (s.setEntry c x) := by
  refine h.setTable fun i => ?_
  by_cases hi : i = c
  · subst hi
    rwa [upd_self]
  · rw [upd_of_ne hi]
    exact Or.inl rfl

theorem TreeInv.wakeupAll (ch : Channel) : TreeInv (s.wakeupAll ch) := by
  refine h.setTable fun i => ?_
  unfold ProcSys.wakeEntry
  split_ifs with hi
  · exact Or.inr ⟨rfl, by rw [hi.1]; rfl⟩
  · exact Or.inl rfl

theorem TreeInv.setSlot
    (halive : (s.table c).state.alive = true → x.state.alive = true ∨ c ≠ ProcSys.init ∧
      (∀ i, s.parents i ≠ some c) ∧ s.frame c = .dead)
    (horphan : c ≠ ProcSys.init → s.parents c = none → x.state = .unused ∨ x.state = .used)
    (hunused : x.state = .unused → s.parents c = none)
    (hchild : ∀ q, (s.frame q).child = some c → x.state = .used) : TreeInv (s.setEntry c x) := by
  have hself : (s.setEntry c x).table c = x := upd_self ..
  have hkeep {i : Fin n} (hi : i ≠ c) : (s.setEntry c x).table i = s.table i := upd_of_ne hi
  have hstays {i : Fin n} (hi : (s.table i).state.alive = true) : ((s.setEntry c x).table i).state.alive = true ∨
        i = c ∧ i ≠ ProcSys.init ∧ (∀ j, s.parents j ≠ some i) ∧ s.frame i = .dead := by
    by_cases hic : i = c
    · subst hic
      rw [hself]
      exact (halive hi).imp_right fun hd => ⟨rfl, hd⟩
    · rw [hkeep hic]
      exact Or.inl hi
  refine ⟨h.lock, (hstays h.init).resolve_right fun hd => hd.2.1 rfl, fun i p hp =>
    (hstays (h.parent i p hp)).resolve_right fun hd => hd.2.2.1 i hp, fun i hi hnone => ?_,
    fun i hi => ?_, fun q => ?_, h.child⟩
  · by_cases hic : i = c
    · subst hic
      rw [hself]
      exact horphan hi hnone
    · rw [hkeep hic]
      exact h.orphan i hi hnone
  · by_cases hic : i = c
    · subst hic
      rw [hself] at hi
      exact hunused hi
    · rw [hkeep hic] at hi
      exact h.unused i hi
  · have hq := h.frame q
    refine ⟨?_, fun d hd => ?_, hq.link, hq.start, hq.passed⟩
    · rcases hq.alive with hu | hd | ha
      · exact Or.inl hu
      · exact Or.inr (Or.inl hd)
      · exact Or.inr ((hstays ha).symm.imp_left fun hd => hd.2.2.2)
    · by_cases hdc : d = c
      · subst hdc
        rw [hself]
        exact hchild q hd
      · rw [hkeep hdc]
        exact hq.child d hd

end

/-! ## `fork` -/

theorem TreeInv.alloc (h : TreeInv s) (hx : x.state = .used) (hc : (s.table c).state = .unused) :
    TreeInv (s.setEntry c x) :=
  h.setSlot (fun ha => absurd hc (ProcState.alive_ne ha).1) (fun _ _ => Or.inr hx)
    (fun _ => h.unused c hc) fun _ _ => hx

theorem TreeInv.setParent (h : TreeInv s) (halive : (s.table p).state.alive = true)
    (hc : (s.table c).state ≠ .unused) (hchild : ∀ q, (s.frame q).child ≠ some c)
    (hexit : (s.frame p).passed = none) : TreeInv (s.setParent c (some p)) := by
  have hkeep {i : Fin n} (hi : i ≠ c) : (s.setParent c (some p)).parents i = s.parents i :=
    upd_of_ne hi
  have hself : (s.setParent c (some p)).parents c = some p := upd_self ..
  refine ⟨h.lock, h.init, fun i q hq => ?_, fun i hi hnone => ?_, fun i hi => ?_, fun q => ?_, h.child⟩
  · by_cases hic : i = c
    · subst hic
      rw [hself] at hq
      cases hq
      exact halive
    · rw [hkeep hic] at hq
      exact h.parent i q hq
  · have hic : i ≠ c := by
      rintro rfl
      rw [hself] at hnone
      cases hnone
    rw [hkeep hic] at hnone
    exact h.orphan i hi hnone
  · have hic : i ≠ c := by
      rintro rfl
      exact hc hi
    rw [hkeep hic]
    exact h.unused i hi
  · have hq := h.frame q
    have hne {d : Fin n} (hd : (s.frame q).child = some d) : d ≠ c := by
      rintro rfl
      exact hchild q hd
    refine ⟨hq.alive, hq.child, fun d hd => ?_, fun d hd => ?_, fun i hi => ?_⟩
    · change s.frame q = _ at hd
      rw [hkeep (hne (by rw [hd]; rfl))]
      exact hq.link d hd
    · change s.frame q = _ at hd
      rw [hkeep (hne (by rw [hd]; rfl))]
      exact hq.start d hd
    · obtain ⟨hinit, hj⟩ := hq.passed i hi
      refine ⟨hinit, fun j hji => ?_⟩
      by_cases hjc : j = c
      · subst hjc
        rw [hself]
        intro he
        cases he
        change (s.frame p).passed = some i at hi
        rw [hexit] at hi
        cases hi
      · rw [hkeep hjc]
        exact hj j hji

theorem TreeInv.start (h : TreeInv s) (hx : x.state.alive = true) (hparent : s.parents c ≠ none)
    (hchild : ∀ q, (s.frame q).child ≠ some c) : TreeInv (s.setEntry c x) :=
  h.setSlot (fun _ => Or.inl hx) (fun _ hnone => absurd hnone hparent)
    (fun hu => absurd hu (ProcState.alive_ne hx).1) fun q hq => absurd hq (hchild q)

/-! ## `exit` and `wait` -/

theorem TreeInv.die (h : TreeInv s) (hx : x.state = .zombie) (hp : (s.table p).state.alive = true)
    (hinit : p ≠ ProcSys.init) (hparent : s.parents p ≠ none) (hkids : ∀ j, s.parents j ≠ some p)
    (hdead : s.frame p = .dead) : TreeInv (s.setEntry p x) := by
  refine h.setSlot (fun _ => Or.inr ⟨hinit, hkids, hdead⟩) (fun _ hnone => absurd hnone hparent)
    (fun hu => ?_) fun q hq => ?_
  · rw [hx] at hu
    cases hu
  · exact absurd ((h.frame q).child p hq) (ProcState.alive_ne hp).2.1

theorem TreeInv.release (h : TreeInv s) (hx : x.state = .unused)
    (hc : (s.table c).state = .zombie) : TreeInv ((s.setParent c none).setEntry c x) := by
  have htable {i : Fin n} (hi : i ≠ c) : ((s.setParent c none).setEntry c x).table i = s.table i := upd_of_ne hi
  have hparents {i : Fin n} (hi : i ≠ c) : ((s.setParent c none).setEntry c x).parents i = s.parents i := upd_of_ne hi
  have htself : ((s.setParent c none).setEntry c x).table c = x := upd_self ..
  have hpself : ((s.setParent c none).setEntry c x).parents c = none := upd_self ..
  have hne {i : Fin n} (hi : (s.table i).state ≠ .zombie) : i ≠ c := fun he => hi (he ▸ hc)
  have halive {i : Fin n} (hi : (s.table i).state.alive = true) :
      (((s.setParent c none).setEntry c x).table i).state.alive = true := by
    rwa [htable (hne (ProcState.alive_ne hi).2.2)]
  have hsome {i q : Fin n} (hi : ((s.setParent c none).setEntry c x).parents i = some q) : s.parents i = some q := by
    have hic : i ≠ c := by
      rintro rfl
      rw [hpself] at hi
      cases hi
    rwa [hparents hic] at hi
  refine ⟨h.lock, halive h.init, fun i q hq => halive (h.parent i q (hsome hq)), fun i hi hnone => ?_,
    fun i hi => ?_, fun q => ?_, h.child⟩
  · by_cases hic : i = c
    · subst hic
      rw [htself]
      exact Or.inl hx
    · rw [htable hic]
      rw [hparents hic] at hnone
      exact h.orphan i hi hnone
  · by_cases hic : i = c
    · subst hic
      exact hpself
    · rw [htable hic] at hi
      rw [hparents hic]
      exact h.unused i hi
  · have hq := h.frame q
    have hused {d : Fin n} (hd : (s.frame q).child = some d) : d ≠ c :=
      hne (by rw [hq.child d hd]; decide)
    refine ⟨hq.alive.imp_right fun ha => ha.imp_right halive, fun d hd => ?_, fun d hd => ?_,
      fun d hd => ?_, fun i hi => ?_⟩
    · rw [htable (hused hd)]
      exact hq.child d hd
    · change s.frame q = _ at hd
      rw [hparents (hused (by rw [hd]; rfl))]
      exact hq.link d hd
    · change s.frame q = _ at hd
      rw [hparents (hused (by rw [hd]; rfl))]
      exact hq.start d hd
    · obtain ⟨hinit, hj⟩ := hq.passed i hi
      exact ⟨hinit, fun j hji he => hj j hji (hsome he)⟩

section

variable (h : TreeInv s)
include h

/-- The invariant is about the table, the parents, the lock and the frames. -/
theorem TreeInv.of_eq (htable : s'.table = s.table) (hparents : s'.parents = s.parents)
    (hlock : s'.lock = s.lock) (hframe : s'.frame = s.frame) : TreeInv s' := by
  obtain ⟨table, parents, lock, frame, _, _, _, _, _⟩ := s'
  dsimp only at htable hparents hlock hframe
  subst htable hparents hlock hframe
  exact ⟨h.lock, h.init, h.parent, h.orphan, h.unused, h.frame, h.child⟩

theorem TreeInv.forkScanStep (hp : (s.table p).state.alive = true) (hf : s.frame p = .forkScan i)
    (c : Fin n) (memory : Bool) : TreeInv (s.forkScanStep p c memory) := by
  have hfree : s.lock ≠ some p := fun hl => by
    have := (h.lock p).2 hl
    rw [hf] at this
    cases this
  unfold ProcSys.forkScanStep
  by_cases hc : (s.table c).state = .unused
  · rw [if_pos hc]
    have h0 : TreeInv { s with pidCount := s.pidCount + 1, created := s.created + 1 } :=
      h.of_eq rfl rfl rfl rfl
    cases memory with
    | true =>
      have hcp : p ≠ c := by
        rintro rfl
        exact (ProcState.alive_ne hp).1 hc
      have hdead : (s.frame c).holds = false := by
        rcases (h.frame c).alive with he | he | he
        · rw [he]; rfl
        · rw [he]; rfl
        · exact absurd hc (ProcState.alive_ne he).1
      have h1 := h0.alloc (c := c)
        (x := { s.table c with pid := s.pidCount % USIZE, state := .used, serial := s.created })
        rfl hc
      have h2 := h1.setFrame (p := c) (f := .user) hdead.symm .user rfl
      refine h2.move (fun _ _ => Iff.rfl) (iff_of_false (by simp [ProcFrame.holds]) hfree) ?_ ?_
      · refine ⟨Or.inr (Or.inr ?_), fun d hd => ?_, fun d hd => ?_, fun d hd => ?_, fun i hi => ?_⟩
        · change (upd s.table c _ p).state.alive = true
          rwa [upd_of_ne hcp]
        · cases hd
          exact congrArg ProcEntry.state (upd_self ..)
        · cases hd
          exact h.unused c hc
        · cases hd
        · cases hi
      · intro d hd q _ hq
        cases hd
        change (upd s.frame c .user q).child = some c at hq
        by_cases hqc : q = c
        · subst hqc
          rw [upd_self] at hq
          cases hq
        · rw [upd_of_ne hqc] at hq
          have := (h.frame q).child c hq
          rw [hc] at this
          cases this
    | false =>
      have h1 := h0.setEntry (c := c) (x := ProcEntry.free
        { s.table c with pid := s.pidCount % USIZE, state := .used, serial := s.created })
        (Or.inl hc.symm)
      exact h1.setFrame (by change _ = (s.frame p).holds; rw [hf]; rfl) .user rfl
  · rw [if_neg hc]
    exact h.setFrame (by rw [hf]; rfl) (.of_alive hp rfl rfl) rfl

theorem TreeInv.child_ne (hc : (s.frame p).child = some c) (q : Fin n) :
    ((s.setFrame p .user).frame q).child ≠ some c := by
  intro hq
  change (upd s.frame p .user q).child = some c at hq
  by_cases hqp : q = p
  · subst hqp
    rw [upd_self] at hq
    cases hq
  · rw [upd_of_ne hqp] at hq
    exact hqp (h.child q p c hq hc)

theorem TreeInv.forkLink (hf : s.frame p = .forkLink c) (hp : (s.table p).state.alive = true)
    (hlock : s.lock = none) : TreeInv ((s.setParent c (some p)).setFrame p (.forkStart c)) := by
  have hok := h.frame p
  rw [hf] at hok
  have hused := hok.child c rfl
  have h1 := h.setFrame (p := p) (f := .user) (by rw [hf]; rfl) .user rfl
  have hchild := h.child_ne (p := p) (c := c) (by rw [hf]; rfl)
  have hpassed : ((s.setFrame p .user).frame p).passed = none := by
    change (upd s.frame p .user p).passed = none
    rw [upd_self]
    rfl
  have h2 := h1.setParent (c := c) hp (fun he => by
    change (s.table c).state = _ at he
    rw [hused] at he
    cases he) hchild hpassed
  have h3 := h2.move (p := p) (f := .forkStart c) (o := none) (fun q _ => by
    change none = some q ↔ s.lock = some q
    rw [hlock]) (by simp [ProcFrame.holds]) ⟨Or.inr (Or.inr hp), fun d hd => by
      cases hd
      exact hused, fun d hd => (by cases hd), fun d hd => by
      cases hd
      exact upd_self .., fun i hi => by cases hi⟩ fun d hd q _ => by
    cases hd
    exact hchild q
  refine h3.of_eq rfl rfl hlock ?_
  change upd s.frame p (.forkStart c) = upd (upd s.frame p .user) p (.forkStart c)
  rw [upd_idem]

theorem TreeInv.forkStartStep (hf : s.frame p = .forkStart c) : TreeInv (s.forkStartStep p c) := by
  have hok := h.frame p
  rw [hf] at hok
  have h1 := h.setFrame (p := p) (f := .user) (by rw [hf]; rfl) .user rfl
  have h2 := h1.start (c := c) (x := { s.table c with state := .runnable }) rfl (by
      change s.parents c ≠ none
      rw [hok.start c rfl]
      simp) (h.child_ne (by rw [hf]; rfl))
  exact h2.of_eq rfl rfl rfl rfl

theorem TreeInv.reparentStep (hf : s.frame p = .exitReparent status c.val)
    (hp : (s.table p).state.alive = true) : TreeInv (s.reparentStep p c status) := by
  have hok := h.frame p
  rw [hf] at hok
  obtain ⟨hinit, hpassed⟩ := hok.passed c.val rfl
  have hnext {parents : Fin n → Option (Fin n)} (hc : parents c ≠ some p)
      (hold : ∀ j, j.val < c.val → parents j ≠ some p) (j : Fin n) (hj : j.val < c.val + 1) :
      parents j ≠ some p := by
    by_cases hjc : j = c
    · rwa [hjc]
    · exact hold j (lt_of_le_of_ne (Nat.lt_succ_iff.1 hj) fun he => hjc (Fin.ext he))
  unfold ProcSys.reparentStep
  split_ifs with hc
  · have h1 := h.setParent (c := c) (p := ProcSys.init) h.init (fun he => by
      rw [h.unused c he] at hc
      cases hc) (fun q hq => ?_) ?_
    · have hne : (some ProcSys.init : Option (Fin n)) ≠ some p := fun he => hinit (Option.some.inj he).symm
      refine h1.setFrame (by change _ = (s.frame p).holds; rw [hf]; rfl)
        (.of_passed hp hinit (f := .exitWakeInit status c.val) rfl (hnext ?_ fun j hj => ?_)) rfl
      · change upd s.parents c (some ProcSys.init) c ≠ some p
        rwa [upd_self]
      · change upd s.parents c (some ProcSys.init) j ≠ some p
        rw [upd_of_ne (by rintro rfl; exact lt_irrefl _ hj)]
        exact hpassed j hj
    · cases hfq : s.frame q with
      | forkLink d =>
        have := (h.frame q).link d hfq
        rw [hfq] at hq
        cases hq
        rw [hc] at this
        cases this
      | forkStart d =>
        have := (h.frame q).start d hfq
        rw [hfq] at hq
        cases hq
        rw [hc] at this
        cases this
        rw [hf] at hfq
        cases hfq
      | _ =>
        rw [hfq] at hq
        cases hq
    · rcases hpi : (s.frame ProcSys.init).passed with _ | i
      · rfl
      · exact absurd rfl ((h.frame _).passed i hpi).1
  · exact h.setFrame (by rw [hf]; rfl) (.of_passed hp hinit rfl (hnext hc hpassed)) rfl

theorem TreeInv.parents_ne_none (hp : (s.table p).state.alive = true)
    (hinit : p ≠ ProcSys.init) : s.parents p ≠ none := fun hnone => by
  obtain ⟨hunused, hused, -⟩ := ProcState.alive_ne hp
  exact (h.orphan p hinit hnone).elim hunused hused

theorem TreeInv.zombieStep (hf : s.frame p = .exitZombie status)
    (hp : (s.table p).state.alive = true) : TreeInv (s.zombieStep p status) := by
  have hok := h.frame p
  rw [hf] at hok
  obtain ⟨hinit, hkids⟩ := hok.passed n rfl
  have hlock : s.lock = some p := (h.lock p).1 (by rw [hf]; rfl)
  have h1 := h.setLock (p := p) (f := .dead) (o := none) (Or.inr hlock) (Or.inl rfl)
    (by simp [ProcFrame.holds]) .dead rfl
  have h2 := h1.die (p := p) (x := { s.table p with xstate := status, state := .zombie }) rfl hp
    hinit (h.parents_ne_none hp hinit) (fun j => hkids j j.isLt) (upd_self ..)
  exact h2.of_eq rfl rfl rfl rfl

theorem TreeInv.waitReturn (hlock : s.lock = some p) (r : Option (ℕ × ℤ)) :
    TreeInv (s.waitReturn p r) := by
  have h1 := h.setLock (p := p) (f := .user) (o := none) (Or.inr hlock) (Or.inl rfl)
    (by simp [ProcFrame.holds]) .user rfl
  exact h1.of_eq rfl rfl rfl rfl

theorem TreeInv.waitScanStep (hf : s.frame p = .waitScan c.val haveKids)
    (hp : (s.table p).state.alive = true) : TreeInv (s.waitScanStep p c haveKids) := by
  have hlock : s.lock = some p := (h.lock p).1 (by rw [hf]; rfl)
  unfold ProcSys.waitScanStep
  split_ifs with hc hz
  · have h1 := h.release (x := (s.table c).free) rfl hz
    exact (h1.waitReturn hlock none).of_eq rfl rfl rfl rfl
  · exact h.setFrame (by rw [hf]; rfl) (.of_alive hp rfl rfl) rfl
  · exact h.setFrame (by rw [hf]; rfl) (.of_alive hp rfl rfl) rfl

theorem TreeInv.waitEndStep (hf : s.frame p = .waitScan i haveKids)
    (hp : (s.table p).state.alive = true) : TreeInv (s.waitEndStep p haveKids) := by
  have hlock : s.lock = some p := (h.lock p).1 (by rw [hf]; rfl)
  unfold ProcSys.waitEndStep
  split_ifs
  · exact h.waitReturn hlock none
  · exact h.setFrame (by rw [hf]; rfl) (.of_alive hp rfl rfl) rfl

theorem TreeInv.waitSleepStep (hf : s.frame p = .waitScan i haveKids)
    (hp : (s.table p).state.alive = true) : TreeInv (s.waitSleepStep p) := by
  have hlock : s.lock = some p := (h.lock p).1 (by rw [hf]; rfl)
  have h1 := h.setEntry (c := p)
    (x := { s.table p with channel := some (.proc p), state := .sleeping }) (Or.inr ⟨rfl, hp⟩)
  have hp' : ((s.setEntry p { s.table p with
      channel := some (.proc p), state := .sleeping }).table p).state.alive = true := by
    change (upd s.table p _ p).state.alive = true
    rw [upd_self]
    rfl
  exact h1.setLock (Or.inr hlock) (Or.inl rfl) (by simp [ProcFrame.holds]) (.of_alive hp' rfl rfl) rfl

end

theorem ProcSys.wakeEntry_alive {ch : Channel} (hx : x.state.alive = true) :
    (ProcSys.wakeEntry ch x).state.alive = true := by
  unfold ProcSys.wakeEntry
  split_ifs
  · rfl
  · exact hx

theorem TreeInv.run (h : TreeInv s) (hp : (s.table p).state.alive = true) (hs : s.Runs p s') :
    TreeInv s' := by
  have hok := h.frame p
  cases hs with
  | fork hf => exact h.setFrame (by rw [hf]; rfl) (.of_alive hp rfl rfl) rfl
  | forkScan c memory hf => exact h.forkScanStep hp hf c memory
  | forkFull i hf => exact h.setFrame (by rw [hf]; rfl) .user rfl
  | forkLink c hf hlock => exact h.forkLink hf hp hlock
  | forkStart c hf => exact h.forkStartStep hf
  | exit status hf hinit =>
    exact h.setFrame (by rw [hf]; rfl) (.of_passed hp hinit rfl fun j hj => absurd hj (Nat.not_lt_zero _)) rfl
  | exitLock status hf hlock =>
    rw [hf] at hok
    exact h.setLock (Or.inl hlock) (Or.inr rfl) (by simp [ProcFrame.holds])
      (.of_passed hp (hok.passed 0 rfl).1 rfl fun j hj => absurd hj (Nat.not_lt_zero _)) rfl
  | reparent status c hf => exact h.reparentStep hf hp
  | wakeParent status i parent hf hi hparent =>
    rw [hf] at hok
    obtain ⟨hinit, hpassed⟩ := hok.passed i rfl
    exact (h.wakeupAll _).setFrame (by change _ = (s.frame p).holds; rw [hf]; rfl)
      (.of_passed (ProcSys.wakeEntry_alive hp) hinit rfl fun j hj => hpassed j (lt_of_lt_of_le hj hi))
      rfl
  | wakeInit status i hf =>
    rw [hf] at hok
    obtain ⟨hinit, hpassed⟩ := hok.passed (i + 1) rfl
    exact (h.wakeupAll _).setFrame (by change _ = (s.frame p).holds; rw [hf]; rfl)
      (.of_passed (ProcSys.wakeEntry_alive hp) hinit rfl hpassed) rfl
  | zombie status hf => exact h.zombieStep hf hp
  | wait hf => exact h.setFrame (by rw [hf]; rfl) (.of_alive hp rfl rfl) rfl
  | waitLock hf hlock =>
    exact h.setLock (Or.inl hlock) (Or.inr rfl) (by simp [ProcFrame.holds]) (.of_alive hp rfl rfl) rfl
  | waitScan c haveKids hf => exact h.waitScanStep hf hp
  | waitEnd i haveKids hf hi => exact h.waitEndStep hf hp
  | waitDoze i haveKids hf hi => exact h.waitSleepStep hf hp
  | waitSleep hf =>
    have h1 := h.setEntry (c := p) (x := { s.table p with channel := none }) (Or.inl rfl)
    refine h1.setFrame (by change _ = (s.frame p).holds; rw [hf]; rfl) (.of_alive ?_ rfl rfl) rfl
    change (upd s.table p _ p).state.alive = true
    rwa [upd_self]
  | sleep ch hf => exact h.setEntry (Or.inr ⟨rfl, hp⟩)
  | awake hf => exact h.setEntry (Or.inl rfl)
  | yield hlock => exact h.setEntry (Or.inr ⟨rfl, hp⟩)

theorem TreeInv.step (h : TreeInv s) {l : Fin n × ProcAction} (hs : ProcStep s l s') :
    TreeInv s' := by
  cases hs.moves with
  | run hr hs => exact h.run (by rw [hr]; rfl) hs
  | dispatch hr => exact h.setEntry (Or.inr ⟨rfl, by rw [hr]; rfl⟩)
  | kill =>
    refine h.setEntry ?_
    unfold ProcSys.killEntry
    split_ifs with hsl
    · exact Or.inr ⟨rfl, by rw [hsl]; rfl⟩
    · exact Or.inl rfl
  | wakeup ch => exact h.wakeupAll ch

theorem treeInv_init (h : ProcInit s) : TreeInv s := by
  obtain ⟨hinit, hunused, -, hparents, hlock, hframe, -, -⟩ := h
  refine ⟨fun p => ?_, by rw [hinit]; rfl, fun i p hp => ?_, fun i hi _ => Or.inl (hunused i hi),
    fun i _ => hparents i, fun p => ?_, fun p q c hp => ?_⟩
  · rw [hframe, hlock]
    exact iff_of_false (by simp [ProcFrame.holds]) (by simp)
  · rw [hparents] at hp
    cases hp
  · rw [hframe]
    exact .user
  · rw [hframe] at hp
    cases hp

theorem treeInv_reachable (h : Reachable ProcInit ProcStep s) : TreeInv s :=
  h.invariant (I := TreeInv) (fun _ => treeInv_init) fun _ _ _ hs => hs.step

/-- In every reachable state, each process but init has a parent that is sleeping, runnable or
running, an unused slot has no parent, and `exit` finds the parent it expects. -/
theorem parents_alive (h : Reachable ProcInit ProcStep s) :
    (∀ i ≠ ProcSys.init, (s.table i).state ∈ [.sleeping, .runnable, .running, .zombie] →
      ∃ p, s.parents i = some p ∧ (s.table p).state ∈ [.sleeping, .runnable, .running]) ∧
    (∀ i, (s.table i).state = .unused → s.parents i = none) ∧
    ∀ p status i, s.frame p = .exitReparent status i → s.parents p ≠ none := by
  have hinv := treeInv_reachable h
  refine ⟨fun i hi hstate => ?_, hinv.unused, fun p status i hf => ?_⟩
  · rcases hp : s.parents i with _ | p
    · rcases hinv.orphan i hi hp with he | he <;> rw [he] at hstate <;> simp at hstate
    · exact ⟨p, rfl, ProcState.alive_iff.1 (hinv.parent i p hp)⟩
  · have hok := hinv.frame p
    rw [hf] at hok
    obtain ⟨hinit, -⟩ := hok.passed i rfl
    rcases hok.alive with he | he | halive
    · cases he
    · cases he
    · exact hinv.parents_ne_none halive hinit

end Tree

/-- Init has a child. -/
theorem parents_alive_fork : ∃ s : ProcSys 2, Reachable ProcInit ProcStep s ∧
    (s.table 1).state = .runnable ∧
    ∃ p, s.parents 1 = some p ∧ (s.table p).state ∈ [.sleeping, .runnable, .running] := by
  have hrun : (([(0, .dispatch), (0, .fork), (0, .run true), (0, .run true), (0, .run true),
      (0, .run true)].foldlM ProcSys.next (ProcSys.boot : ProcSys 2)).map
      fun s => (s.table 1).state) = some .runnable := rfl
  obtain ⟨s, hs, hstate⟩ := Option.map_eq_some_iff.1 hrun
  have hreach : Reachable ProcInit ProcStep s := .foldlM hs (.init procInit_boot)
  exact ⟨s, hreach, hstate, (parents_alive hreach).1 1 (by decide) (by rw [hstate]; decide)⟩

/-! ## Ancestors -/

namespace ProcSys

variable {n : ℕ} [NeZero n] {s s' : ProcSys n} {p : Fin n} {l : Fin n × ProcAction}

def HasParent (s : ProcSys n) (i q : Fin n) : Prop := s.parents i = some q

/-- A parent is older than its children, and init is older than everybody. -/
structure OlderInv (s : ProcSys n) : Prop where
  created : ∀ i, (s.table i).serial < s.created
  parent : ∀ i q, s.parents i = some q → (s.table q).serial < (s.table i).serial
  child : ∀ p c, (s.frame p).child = some c → (s.table p).serial < (s.table c).serial
  init : ∀ i ≠ init, (s.table i).state ≠ .unused → (s.table init).serial < (s.table i).serial

attribute [local grind] upd ProcFrame.child ProcEntry.free ProcState.alive
attribute [local simp] setFrame setEntry setParent wakeupAll wakeEntry killEntry forkStartStep zombieStep
  waitReturn reap

theorem OlderInv.run (h : OlderInv s) (ht : TreeInv s) (hr : (s.table p).state = .running)
    (hs : s.Runs p s') : OlderInv s' := by
  obtain ⟨hcreated, hparent, hchild, hinit⟩ := h
  have hused := fun q => (ht.frame q).child
  have halive := fun q => (ht.frame q).alive
  obtain ⟨-, hi, hp, -, hunused, hframe, -⟩ := ht
  cases hs with
  | forkScan c memory hf =>
    -- nobody has the unused slot as a parent
    unfold forkScanStep
    cases memory <;> split_ifs <;> constructor <;> dsimp <;> intro d <;> grind
  | reparent status c hf =>
    have hne := ((hframe p).passed c.val (by rw [hf]; rfl)).1
    unfold reparentStep
    split_ifs <;> constructor <;> dsimp <;> intro d <;> grind
  | waitScan c haveKids hf =>
    unfold waitScanStep
    split_ifs <;> constructor <;> dsimp <;> intro d <;> grind
  | waitEnd i haveKids hf hi =>
    unfold waitEndStep
    split_ifs <;> constructor <;> dsimp <;> intro d <;> grind
  | waitDoze i haveKids hf hi =>
    unfold waitSleepStep
    constructor <;> dsimp <;> intro d <;> grind
  | _ => constructor <;> dsimp <;> intro d <;> grind

theorem OlderInv.step (h : OlderInv s) (ht : TreeInv s) (hs : ProcStep s l s') : OlderInv s' := by
  cases hs.moves with
  | run hr hs => exact h.run ht hr hs
  | _ =>
    obtain ⟨hcreated, hparent, hchild, hinit⟩ := h
    constructor <;> dsimp <;> intro d <;> grind

theorem olderInv_reachable (h : Reachable ProcInit ProcStep s) : TreeInv s ∧ OlderInv s := by
  apply h.invariant (I := fun s => TreeInv s ∧ OlderInv s)
  · intro s h0
    refine ⟨treeInv_init h0, ?_⟩
    obtain ⟨-, hunused, hserial, hparents, -, hframe, -⟩ := h0
    constructor <;> grind
  · intro s l s' hinv hs
    exact ⟨hinv.1.step hs, hinv.2.step hinv.1 hs⟩

/-- Every process descends from init, and nobody is their own ancestor. -/
theorem descends_from_init (h : Reachable ProcInit ProcStep s) :
    (∀ i, (s.table i).state ∈ [.sleeping, .runnable, .running, .zombie] →
      Relation.ReflTransGen s.HasParent i init) ∧ ∀ i, ¬ Relation.TransGen s.HasParent i i := by
  obtain ⟨ht, ho⟩ := olderInv_reachable h
  constructor
  · intro i
    -- by induction on the age of the process
    induction hk : (s.table i).serial using Nat.strong_induction_on generalizing i with
    | _ k ih =>
      intro hi
      by_cases hinit : i = init
      · rw [hinit]
      · obtain ⟨q, hq⟩ := Option.ne_none_iff_exists'.1 fun hnone => by
          have := ht.orphan i hinit hnone
          grind
        have halive := ProcState.alive_iff.1 (ht.parent i q hq)
        exact .head hq (ih _ (hk ▸ ho.parent i q hq) q rfl (by grind))
  · intro i hi
    have hlt := hi.lift (p := (· > ·)) (fun j => (s.table j).serial) ho.parent
    rw [Relation.transGen_eq_self] at hlt
    exact lt_irrefl _ hlt

end ProcSys

/-- Init has a child, and the child has one. -/
theorem descends_from_init_twice : ∃ s :
    ProcSys 3, Reachable ProcInit ProcStep s ∧ s.parents 2 = some 1 ∧
    Relation.ReflTransGen s.HasParent 2 ProcSys.init := by
  have hrun : (([(0, .dispatch), (0, .fork), (0, .run true), (0, .run true), (0, .run true), (0, .run true),
      (1, .dispatch), (1, .fork), (1, .run true), (1, .run true), (1, .run true), (1, .run true),
      (1, .run true)].foldlM ProcSys.next (ProcSys.boot : ProcSys 3)).map
      fun s => (s.parents 2, (s.table 2).state)) = some (some 1, .runnable) := rfl
  obtain ⟨s, hs, hstate⟩ := Option.map_eq_some_iff.1 hrun
  rw [Prod.mk.injEq] at hstate
  have hreach : Reachable ProcInit ProcStep s := .foldlM hs (.init procInit_boot)
  exact ⟨s, hreach, hstate.1, (ProcSys.descends_from_init hreach).1 2 (by rw [hstate.2]; decide)⟩

end Octopos
