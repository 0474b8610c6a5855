import Octopos.Virtio.Requests

/-!
# Waiting for descriptors

A process that gets no descriptors sleeps on the channel of descriptor 0, and a descriptor that
becomes free wakes up its own channel. The descriptors of a request are given back together, so the
sleepers are woken exactly by the requests that had descriptor 0.
-/

namespace Octopos

def VirtioDisk.freeCount (d : VirtioDisk) : ℕ := (Finset.univ.filter (d.free · = true)).card

/-- A process sleeps for want of descriptors. -/
def DiskSys.Starved {P : Type} (s : DiskSys P) : Prop := ∃ p c, s.frame p = .allocSleep c

/-- The step does not give back descriptors other than descriptor 0 while a process sleeps for want
of descriptors. -/
def DiskSys.Wakes {P : Type} (s : DiskSys P) (a : DiskAction P) : Prop :=
  ∀ p r, a = .run p → s.frame p = .wait r → s.busy r.call.buf = false → 0 ∉ r.ids → ¬s.Starved

section Alloc

variable {d : VirtioDisk} {g : List DescId}

theorem freeCount_take (i : DescId) (hi : d.free i = true) :
    d.freeCount = VirtioDisk.freeCount { d with free := upd d.free i false } + 1 := by
  have hfilter : Finset.univ.filter (upd d.free i false · = true) =
      (Finset.univ.filter (d.free · = true)).erase i := by
    ext x
    by_cases hx : x = i
    · rw [hx]
      simp
    · simp [hx, upd_of_ne hx]
  unfold VirtioDisk.freeCount
  rw [hfilter, Finset.card_erase_add_one (by simpa using hi)]

theorem alloc3Loop_ok {n : ℕ} (h : n ≤ d.freeCount) :
    ∃ l d', d.alloc3Loop g n = (.ok l, [], d') := by
  induction n generalizing d g with
  | zero => exact ⟨g, d, rfl⟩
  | succ n ih =>
    rw [VirtioDisk.alloc3Loop, VirtioDisk.allocDesc]
    cases hfind : (List.finRange NUM).find? (d.free ·) with
    | none =>
      have hnone : d.freeCount = 0 := by
        rw [VirtioDisk.freeCount, Finset.card_eq_zero, Finset.filter_eq_empty_iff]
        intro i _
        exact List.find?_eq_none.1 hfind i (List.mem_finRange i)
      omega
    | some i =>
      refine ih ?_
      have := freeCount_take i (List.find?_some hfind)
      omega

theorem freeCount_lt_of_error {e : VirtioError} {freed : List DescId} {d' : VirtioDisk}
    (h : d.alloc3Desc = (.error e, freed, d')) : d.freeCount < 3 := by
  by_contra hge
  obtain ⟨l, d'', hok⟩ := alloc3Loop_ok (g := []) (not_lt.1 hge)
  rw [VirtioDisk.alloc3Desc, hok] at h
  cases h

theorem freeCount_free {r : Request} (hnodup : r.ids.Nodup) (hfree : ∀ i ∈ r.ids, d.free i = true) :
    3 ≤ d.freeCount := by
  have hcard : r.ids.toFinset.card = 3 := by
    rw [List.toFinset_card_of_nodup hnodup]
    rfl
  rw [← hcard]
  refine Finset.card_le_card fun i hi => ?_
  rw [Finset.mem_filter]
  exact ⟨Finset.mem_univ i, hfree i (List.mem_toFinset.1 hi)⟩

end Alloc

section Steps

variable {P : Type} [DecidableEq P] {s s' : DiskSys P} {p q : P} {r : Request}

/-- A process that sleeps for descriptors after a step did so before, or is the one that found
none. -/
theorem DiskSys.starved_upd {t : DiskSys P} {f : DiskFrame} (hf : ∀ c, f ≠ .allocSleep c)
    (ht : t.frame = upd s.frame p f) (h : t.Starved) : s.Starved := by
  obtain ⟨q, c, hq⟩ := h
  by_cases hqp : q = p
  · rw [ht, hqp, upd_self] at hq
    exact absurd hq (hf c)
  · rw [ht, upd_of_ne hqp] at hq
    exact ⟨q, c, hq⟩

omit [DecidableEq P] in
theorem DiskSys.not_starved_wakeFree {freed : List DescId} (h : 0 ∈ freed) :
    ¬(s.wakeFree freed).Starved := by
  rintro ⟨q, c, hq⟩
  simp only [DiskSys.wakeFree] at hq
  split at hq
  · rw [if_pos h] at hq
    cases hq
  · rename_i hne
    exact hne c hq

omit [DecidableEq P] in
theorem DiskSys.wakeFree_frame {freed : List DescId} (h : 0 ∉ freed) :
    (s.wakeFree freed).frame = s.frame := by
  funext q
  simp only [DiskSys.wakeFree]
  split
  · rename_i c hq
    rw [if_neg h, hq]
  · rfl

theorem DiskSys.waitStep_counts (s : DiskSys P) (p : P) (r : Request) :
    (s.waitStep p r).submitted = s.submitted ∧ (s.waitStep p r).fetched = s.fetched ∧
    (s.waitStep p r).working = s.working ∧ (s.waitStep p r).completed = s.completed ∧
    (s.waitStep p r).handled = s.handled := by
  unfold DiskSys.waitStep
  split_ifs
  · exact ⟨rfl, rfl, rfl, rfl, rfl⟩
  · dsimp only
    split <;> exact ⟨rfl, rfl, rfl, rfl, rfl⟩

theorem DiskInv.waitStep_done (h : DiskInv s) (hp : s.frame p = .wait r)
    (hb : s.busy r.call.buf = false) :
    (s.waitStep p r).frame = upd (s.wakeFree r.ids).frame p .user ∧ (s.waitStep p r).owner = none ∧
    3 ≤ (s.waitStep p r).disk.freeCount ∧
    (s.waitStep p r).disk.info = upd s.disk.info r.i { s.disk.info r.i with bufId := none } := by
  have hreq : (s.frame p).request = some r := by rw [hp]; rfl
  have hchain := (h.chained p r hreq).freeChain (h.nodup p r hreq)
    (show VirtioDisk.desc { s.disk with
      info := upd s.disk.info r.i { s.disk.info r.i with bufId := none } } = _ from rfl)
  rw [DiskSys.waitStep, if_neg (by rw [hb]; decide)]
  dsimp only
  rw [hchain]
  refine ⟨rfl, rfl, freeCount_free (h.nodup p r hreq) fun i hi => ?_, ?_⟩
  · rw [foldl_freeDesc]
    exact if_pos hi
  · rw [foldl_freeDesc]

/-- No process sleeps for want of descriptors while three are free. -/
def DiskSys.Served (s : DiskSys P) : Prop := s.Starved → s.disk.freeCount < 3

section

omit [DecidableEq P]

theorem DiskSys.Served.of_eq (h : s.Served) (hframe : s'.Starved → s.Starved)
    (hfree : s'.disk.freeCount ≤ s.disk.freeCount) : s'.Served :=
  fun hs => hfree.trans_lt (h (hframe hs))

theorem DiskSys.starved_handleStep (h : s.handleStep.Starved) : s.Starved := by
  obtain ⟨q, c, hq⟩ := h
  refine ⟨q, c, ?_⟩
  unfold DiskSys.handleStep at hq
  split_ifs at hq
  · dsimp only at hq
    split at hq
    · simp only [DiskSys.wakeBuf] at hq
      split at hq
      · split_ifs at hq
      · exact hq
    · exact hq
  · exact hq

theorem DiskSys.handleStep_freeCount : s.handleStep.disk.freeCount = s.disk.freeCount := by
  unfold DiskSys.handleStep
  split_ifs
  · dsimp only
    split <;> rfl
  · rfl

theorem DiskSys.fetch_frame (h : s.fetch = some s') : s'.frame = s.frame ∧ s'.disk = s.disk ∧
    s'.submitted = s.submitted ∧ s'.completed = s.completed ∧ s'.handled = s.handled := by
  unfold DiskSys.fetch at h
  split_ifs at h
  obtain ⟨i, -, h⟩ := Option.bind_eq_some_iff.1 h
  obtain ⟨entry, -, h⟩ := Option.bind_eq_some_iff.1 h
  cases h
  exact ⟨rfl, rfl, rfl, rfl, rfl⟩

end

theorem DiskSys.Served.allocStep (hinv : DiskInv s) (h : s.Served) (c : DiskCall) :
    (s.allocStep p c).Served := by
  unfold DiskSys.allocStep
  rcases alloc3Desc_spec hinv.clean with ⟨i, j, k, heq, hnodup, hfree⟩ | ⟨e, freed, heq⟩
  · rw [heq]
    refine h.of_eq (DiskSys.starved_upd (p := p) (fun c => by simp) rfl) ?_
    refine Finset.card_le_card fun x hx => ?_
    rw [Finset.mem_filter] at hx ⊢
    exact ⟨hx.1, ((Bool.and_eq_true _ _).mp hx.2).1⟩
  · rw [heq]
    exact fun _ => freeCount_lt_of_error heq

theorem DiskSys.Served.waitStep (hinv : DiskInv s) (h : s.Served) (hp : s.frame p = .wait r)
    (hwakes : s.Wakes (.run p)) : (s.waitStep p r).Served := by
  cases hb : s.busy r.call.buf with
  | true =>
    rw [DiskSys.waitStep, if_pos hb]
    exact h.of_eq (DiskSys.starved_upd (p := p) (fun c => by simp) rfl) le_rfl
  | false =>
    intro hstarved
    have hother := DiskSys.starved_upd (s := s.wakeFree r.ids) (fun c => by simp) (hinv.waitStep_done hp hb).1 hstarved
    by_cases h0 : 0 ∈ r.ids
    · exact absurd hother (DiskSys.not_starved_wakeFree h0)
    · obtain ⟨q, c, hq⟩ := hother
      rw [DiskSys.wakeFree_frame h0] at hq
      exact absurd ⟨q, c, hq⟩ (hwakes p r rfl hp hb h0)

theorem DiskSys.Served.step (hinv : DiskInv s) (h : s.Served) {a : DiskAction P}
    (hwakes : s.Wakes a) (hs : DiskStep s a s') : s'.Served := by
  obtain ⟨hs, -⟩ := hs
  unfold DiskSys.next at hs
  rw [Option.ite_none_left_eq_some] at hs
  replace hs := hs.2
  cases a with
  | rw p c =>
    dsimp only at hs
    split_ifs at hs with hp
    cases hs
    exact h.of_eq (DiskSys.starved_upd (p := p) (fun c => by simp) rfl) le_rfl
  | run p =>
    change s.run p = some s' at hs
    unfold DiskSys.run at hs
    cases hp : s.frame p with
    | user | allocSleep | waitSleep =>
      rw [hp] at hs
      cases hs
    | start | waitLock =>
      rw [hp] at hs
      dsimp only [DiskSys.acquire] at hs
      split_ifs at hs
      cases hs
      exact h.of_eq (DiskSys.starved_upd (p := p) (fun c => by simp) rfl) le_rfl
    | alloc c =>
      rw [hp] at hs
      cases hs
      exact h.allocStep hinv c
    | wait r =>
      rw [hp] at hs
      cases hs
      exact h.waitStep hinv hp hwakes
  | kill p =>
    cases hs
    refine h.of_eq (DiskSys.starved_upd (p := p) (f := (s.frame p).wake) (fun c => ?_) rfl) le_rfl
    cases s.frame p <;> simp [DiskFrame.wake]
  | interrupt =>
    dsimp only at hs
    split at hs <;> cases hs
    · exact h
    · exact h.of_eq DiskSys.starved_handleStep DiskSys.handleStep_freeCount.le
  | fetch =>
    obtain ⟨hframe, hdisk, -⟩ := DiskSys.fetch_frame hs
    exact h.of_eq (fun ⟨q, c, hq⟩ => ⟨q, c, hframe ▸ hq⟩) (hdisk ▸ le_rfl)
  | complete n =>
    obtain ⟨entry, -, hs⟩ := Option.bind_eq_some_iff.1 hs
    cases hs
    exact h

theorem DiskSys.Served.of_reachable (h : Reachable DiskInit (Guarded DiskSys.Wakes DiskStep) s) :
    s.Served := by
  have hboth : DiskInv s ∧ s.Served := by
    refine h.invariant (I := fun s => DiskInv s ∧ s.Served) ?_ ?_
    · rintro s rfl
      exact ⟨DiskInv.new, fun ⟨_, _, hq⟩ => nomatch hq⟩
    · intro s a s' hs hstep
      exact ⟨hs.1.step hstep.2, hs.2.step hs.1 hstep.1 hstep.2⟩
  exact hboth.2

/-- As long as no request without descriptor 0 ends while a process sleeps for want of descriptors,
fewer than three descriptors are free when one does; and the first request that ends so leaves a
process asleep with three free descriptors. -/
theorem descriptor_waiters (h : Reachable DiskInit (Guarded DiskSys.Wakes DiskStep) s) :
    (s.owner = none → (∃ p c, s.frame p = .allocSleep c) → s.disk.freeCount < 3) ∧
    ∀ a s', DiskStep s a s' → ¬s.Wakes a →
      s'.owner = none ∧ (∃ p c, s'.frame p = .allocSleep c) ∧ 3 ≤ s'.disk.freeCount := by
  have hinv : DiskInv s := DiskInv.of_reachable (.mono (fun _ _ _ hs => hs.2) h)
  refine ⟨fun _ => DiskSys.Served.of_reachable h, fun a s' hs hwakes => ?_⟩
  simp only [DiskSys.Wakes, not_forall, not_not] at hwakes
  obtain ⟨p, r, rfl, hp, hb, h0, q, c, hq⟩ := hwakes
  obtain ⟨hs, -⟩ := hs
  have hs' : s' = s.waitStep p r := by
    rw [DiskSys.next, if_neg (by rw [hinv.running]; decide)] at hs
    dsimp only [DiskSys.run] at hs
    rw [hp] at hs
    exact (Option.some.inj hs).symm
  obtain ⟨hframe, howner, hcount, -⟩ := hinv.waitStep_done hp hb
  rw [hs']
  refine ⟨howner, ⟨q, c, ?_⟩, hcount⟩
  have hqp : q ≠ p := by
    rintro rfl
    rw [hp] at hq
    cases hq
  rw [hframe, upd_of_ne hqp, DiskSys.wakeFree_frame h0, hq]

end Steps

section Three

/-- A read of block `p` into buffer `p`. -/
def threeCalls (p : Fin 3) : DiskCall := ⟨p.castLE (by decide), p.val, false⟩

/-- No other process is in `rw` with the buffer. -/
def ownBuffer (s : DiskSys (Fin 3)) : DiskAction (Fin 3) → Bool
  | .rw _ c => (List.finRange 3).all fun q => (s.frame q).call.all (·.buf ≠ c.buf)
  | _ => true

def noneEnds (s : DiskSys (Fin 3)) (a : DiskAction (Fin 3)) : Bool :=
  ownBuffer s a &&
    match a with
    | .run p =>
      match s.frame p with
      | .wait r => s.busy r.call.buf
      | _ => true
    | _ => true

theorem ownBuffer_step {s s' : DiskSys (Fin 3)} {a : DiskAction (Fin 3)}
    (hok : ownBuffer s a = true) (hs : s.next a = some s') : DiskStep s a s' := by
  refine ⟨hs, ?_⟩
  rintro p c rfl q c' hq
  have hall := List.all_eq_true.1 hok q (List.mem_finRange q)
  rw [Option.all_eq_true] at hall
  exact of_decide_eq_true (hall c' hq)

/-- Two processes have six of the eight descriptors, and the third one sleeps. -/
def threeWait (p q r : Fin 3) : List (DiskAction (Fin 3)) :=
  [.rw p (threeCalls p), .run p, .run p, .run p, .rw q (threeCalls q), .run q, .run q, .run q,
    .rw r (threeCalls r), .run r, .run r]

/-- The device completes the request of the second process first, whose descriptors are 3, 4 and
5. -/
def threeLost (p q r : Fin 3) : List (DiskAction (Fin 3)) :=
  threeWait p q r ++ [.fetch, .fetch, .complete 1, .interrupt, .interrupt, .interrupt, .run q, .run q]

/-- The process that sleeps for want of descriptors is not woken although five of them are free. -/
theorem waiter_not_woken : ∃ s : DiskSys (Fin 3), Reachable DiskInit DiskStep s ∧
    (s.owner, s.frame 2, s.disk.freeCount) = (none, .allocSleep (threeCalls 2), 5) := by
  have hrun : (execute DiskSys.next ownBuffer (DiskSys.new : DiskSys (Fin 3)) (threeLost 0 1 2)).map
      (fun s => (s.owner, s.frame 2, s.disk.freeCount)) = some (none, .allocSleep (threeCalls 2), 5) := by
    decide +kernel
  obtain ⟨s, hs, hvals⟩ := Option.map_eq_some_iff.1 hrun
  refine ⟨s, ?_, hvals⟩
  exact .mono (fun _ _ _ hstep => ownBuffer_step hstep.1 hstep.2)
    (Reachable.execute hs (.init (show DiskInit DiskSys.new from rfl)))

theorem descriptor_waiters_three : ∃ s : DiskSys (Fin 3),
    Reachable DiskInit (Guarded DiskSys.Wakes DiskStep) s ∧ s.frame 2 = .allocSleep (threeCalls 2) ∧
    s.disk.freeCount < 3 := by
  have hrun : (execute DiskSys.next noneEnds (DiskSys.new : DiskSys (Fin 3)) (threeWait 0 1 2)).map
      (fun s => (s.owner, s.frame 2)) = some (none, .allocSleep (threeCalls 2)) := by
    decide +kernel
  obtain ⟨s, hs, hvals⟩ := Option.map_eq_some_iff.1 hrun
  obtain ⟨howner, hframe⟩ := Prod.mk.inj hvals
  have hreach : Reachable DiskInit (Guarded DiskSys.Wakes DiskStep) s := by
    refine .mono (fun t a t' hstep => ?_) (Reachable.execute hs (.init (show DiskInit DiskSys.new from rfl)))
    have hok : noneEnds t a = true := hstep.1
    unfold noneEnds at hok
    rw [Bool.and_eq_true] at hok
    obtain ⟨hown, hends⟩ := hok
    refine ⟨?_, ownBuffer_step hown hstep.2⟩
    rintro p r rfl hp hb
    dsimp only at hends
    rw [hp] at hends
    exact absurd (hends.symm.trans hb) (by decide)
  exact ⟨s, hreach, hframe, (descriptor_waiters hreach).1 howner ⟨2, _, hframe⟩⟩

end Three

end Octopos
