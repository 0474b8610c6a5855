import Octopos.Sync.SleepLock

/-!
# Sleep locks exclude, and no waiter is left asleep

A process that is on its way to sleep on a sleep lock, or asleep on it, finds the lock locked, or is
still to be visited by the `wakeup` of the process that unlocked it (`Owed`). The state of the lock
does not change between the test and the end of the sleep, since the process takes its own lock
before it gives up the spinlock, and `wakeup` cannot visit it before it sleeps.
-/

namespace Octopos

variable {n : ℕ}

/-- The lock is locked, or someone who unlocked it is still to visit `q`. -/
def LockSys.Owed (s : LockSys n) (q : Fin n) (l : ℕ) : Prop :=
  s.locked l = true ∨ ∃ p todo, s.frame p = .wakeup l todo ∧ q ∈ todo

/-- The process is on its way to sleep on the lock, or asleep on it. -/
def LockSys.Waits (s : LockSys n) (q : Fin n) (l : ℕ) : Prop :=
  s.frame q = .sleepAlone (.lock l) ∨ s.frame q = .sched (.lock l) ∨
    s.frame q = .asleep (.lock l) ∧ s.state q = .sleeping

/-- What a process knows at the point where it stands. -/
def SleepFrame.Ok (s : LockSys n) (p : Fin n) : SleepFrame n → Prop
  | .record l | .taken l | .drop l | .dropping l => s.guards p l = true ∧ s.state p ≠ .sleeping
  | .sleep c | .sleepBoth c => (∀ l, c = .lock l → s.locked l = true) ∧ s.state p ≠ .sleeping
  | .sched c | .asleep c => s.channel p = some c
  | .user | .acquire _ | .test _ | .sleepAlone _ | .resumed _ | .wakeup _ _ =>
    s.state p ≠ .sleeping

structure LockInv (s : LockSys n) : Prop where
  spin : ∀ c p, s.spin c = some p ↔ (s.frame p).spins = some c
  procLock : ∀ p, s.procLock p = (s.frame p).locksSelf
  locked : ∀ p l, s.guards p l = true → s.locked l = true
  unique : ∀ p q l, s.guards p l = true → s.guards q l = true → p = q
  frame : ∀ p, (s.frame p).Ok s p
  owed : ∀ p l, s.Waits p l → s.Owed p l

/-- A step of process `p` leaves the other processes as they are. -/
structure LockSys.StepOn (p : Fin n) (s s' : LockSys n) : Prop where
  frame : ∀ q, q ≠ p → s'.frame q = s.frame q
  procLock : ∀ q, q ≠ p → s'.procLock q = s.procLock q
  state : ∀ q, q ≠ p → s'.state q = s.state q
  channel : ∀ q, q ≠ p → s'.channel q = s.channel q
  guards : ∀ q, q ≠ p → s'.guards q = s.guards q

variable {s s' : LockSys n} {p q : Fin n} {c : Channel} {l : ℕ}

section Spin

variable {f : SleepFrame n}

theorem LockInv.spin_same (h : LockInv s) (hf : f.spins = (s.frame p).spins) (c : Channel)
    (q : Fin n) : s.spin c = some q ↔ (upd s.frame p f q).spins = some c := by
  by_cases hq : q = p
  · subst hq
    rw [upd_self, hf]
    exact h.spin c q
  · rw [upd_of_ne hq]
    exact h.spin c q

theorem LockInv.spin_take (h : LockInv s) (hfree : s.spin c = none)
    (hnone : (s.frame p).spins = none) (hf : f.spins = some c) (d : Channel) (q : Fin n) :
    upd s.spin c (some p) d = some q ↔ (upd s.frame p f q).spins = some d := by
  have hold := h.spin d q
  by_cases hq : q = p
  · subst hq
    rw [upd_self, hf]
    by_cases hd : d = c
    · simp [hd]
    · rw [upd_of_ne hd, hold, hnone]
      simpa using Ne.symm hd
  · rw [upd_of_ne hq, ← hold]
    by_cases hd : d = c
    · subst hd
      simp [hfree, Ne.symm hq]
    · rw [upd_of_ne hd]

theorem LockInv.spin_give (h : LockInv s) (hc : (s.frame p).spins = some c) (hf : f.spins = none)
    (d : Channel) (q : Fin n) :
    upd s.spin c none d = some q ↔ (upd s.frame p f q).spins = some d := by
  have hp := (h.spin c p).2 hc
  have hold := h.spin d q
  by_cases hq : q = p
  · subst hq
    rw [upd_self, hf]
    by_cases hd : d = c
    · simp [hd]
    · rw [upd_of_ne hd, hold, hc]
      simpa using Ne.symm hd
  · rw [upd_of_ne hq, ← hold]
    by_cases hd : d = c
    · subst hd
      simp [hp, Ne.symm hq]
    · rw [upd_of_ne hd]

end Spin

/-! ## Steps of a process -/

/-- What the others know stays true if a sleep lock does not change under their spinlocks. -/
theorem SleepFrame.Ok.of_stepOn {f : SleepFrame n} (h : f.Ok s q) (hq : q ≠ p)
    (hs : LockSys.StepOn p s s')
    (hlocked : ∀ l, f.spins = some (.lock l) → s.locked l = true → s'.locked l = true) :
    f.Ok s' q := by
  have hstate := hs.state q hq
  cases f with
  | record | taken | drop | dropping => rwa [Ok, hstate, hs.guards q hq]
  | sleep c | sleepBoth c =>
    refine ⟨fun l hl => hlocked l ?_ (h.1 l hl), hstate ▸ h.2⟩
    rw [hl]
    rfl
  | sched | asleep => rwa [Ok, hs.channel q hq]
  | user | acquire | test | sleepAlone | resumed | wakeup => rwa [Ok, hstate]

theorem LockSys.StepOn.waits (hs : LockSys.StepOn p s s') (hq : q ≠ p) :
    s'.Waits q l ↔ s.Waits q l := by
  unfold LockSys.Waits
  rw [hs.frame q hq, hs.state q hq]

/-- A step of process `p` keeps the invariant if the locks, the debts and its own point are right
afterwards, and it changes a sleep lock only with the spinlock. -/
theorem LockInv.stepOn (h : LockInv s) (hs : LockSys.StepOn p s s')
    (hspin : ∀ c q, s'.spin c = some q ↔ (s'.frame q).spins = some c)
    (hproc : s'.procLock p = (s'.frame p).locksSelf)
    (hguards : ∀ l, s'.guards p l = true → s'.locked l = true ∧ ∀ q, q ≠ p → s.guards q l = false)
    (hframe : (s'.frame p).Ok s' p) (howed : ∀ q l, s'.Waits q l → s'.Owed q l)
    (hlocked : ∀ l, s.locked l = true → s'.locked l = true ∨ s.spin (.lock l) = some p ∧ ∀ q,
      q ≠ p → s.guards q l = false) : LockInv s' := by
  have hkeeps : ∀ q l, q ≠ p → s.guards q l = true → s'.locked l = true := by
    intro q l hq hg
    rcases hlocked l (h.locked q l hg) with hl | ⟨-, hother⟩
    · exact hl
    · rw [hother q hq] at hg
      cases hg
  have hdiff : ∀ q l, q ≠ p → s'.guards p l = true → s'.guards q l = true → False := by
    intro q l hq hp hg
    rw [hs.guards q hq, (hguards l hp).2 q hq] at hg
    cases hg
  refine ⟨hspin, fun q => ?_, fun q l hg => ?_, fun q r l hg hr => ?_, fun q => ?_, howed⟩
  · by_cases hq : q = p
    · rw [hq]
      exact hproc
    · rw [hs.procLock q hq, hs.frame q hq]
      exact h.procLock q
  · by_cases hq : q = p
    · rw [hq] at hg
      exact (hguards l hg).1
    · rw [hs.guards q hq] at hg
      exact hkeeps q l hq hg
  · by_cases hq : q = p
    · by_cases hr' : r = p
      · rw [hq, hr']
      · exact (hdiff r l hr' (hq ▸ hg) hr).elim
    · by_cases hr' : r = p
      · exact (hdiff q l hq (hr' ▸ hr) hg).elim
      · rw [hs.guards q hq] at hg
        rw [hs.guards r hr'] at hr
        exact h.unique q r l hg hr
  · by_cases hq : q = p
    · rw [hq]
      exact hframe
    · rw [hs.frame q hq]
      refine (h.frame q).of_stepOn hq hs fun l hspins hl => ?_
      rcases hlocked l hl with hl | ⟨hp, -⟩
      · exact hl
      · -- `q` has the spinlock itself
        rw [(h.spin _ _).2 hspins, Option.some.injEq] at hp
        exact absurd hp hq

theorem LockInv.guards_of_ne (h : LockInv s) (hp : s.guards p l = true) (hq : q ≠ p) :
    s.guards q l = false := by
  by_contra hg
  exact hq (h.unique q p l (Bool.eq_true_of_not_eq_false hg) hp)

theorem LockInv.plain (h : LockInv s) (hs : LockSys.StepOn p s s')
    (hlocked : s'.locked = s.locked) (hguards : s'.guards = s.guards)
    (hnot : ∀ l todo, s.frame p ≠ .wakeup l todo)
    (hspin : ∀ c q, s'.spin c = some q ↔ (s'.frame q).spins = some c) {f : SleepFrame n}
    (hf : s'.frame p = f) (hproc : s'.procLock p = f.locksSelf) (hok : f.Ok s' p)
    (hwaits : ∀ l, s'.Waits p l → s.Owed p l) : LockInv s' := by
  have howed : ∀ q l, s.Owed q l → s'.Owed q l := by
    rintro q l (hl | ⟨r, todo, hr, hmem⟩)
    · exact .inl (hlocked ▸ hl)
    · refine .inr ⟨r, todo, ?_, hmem⟩
      rw [hs.frame r, hr]
      rintro rfl
      exact hnot l todo hr
  subst hf
  refine h.stepOn hs hspin hproc (fun l hg => ?_) hok (fun q l hw => howed q l ?_) fun l hl => .inl (hlocked ▸ hl)
  · rw [hguards] at hg
    exact ⟨hlocked ▸ h.locked p l hg, fun q hq => h.guards_of_ne hg hq⟩
  · by_cases hq : q = p
    · subst hq
      exact hwaits l hw
    · exact h.owed q l ((hs.waits hq).1 hw)

/-- A process at such a point waits, or has waited, for a channel. -/
def SleepFrame.waits : SleepFrame n → Bool
  | .sleepAlone _ | .sched _ | .asleep _ => true
  | _ => false

theorem LockSys.not_waits {f : SleepFrame n} (hf : s.frame p = f) (hw : f.waits = false) :
    ¬s.Waits p l := by
  rintro (h | h | ⟨h, -⟩) <;>
  · rw [← hf, h] at hw
    cases hw

section Frames

variable {f f' : SleepFrame n}

theorem LockInv.setFrame (h : LockInv s) (hf : s.frame p = f) (hspins : f'.spins = f.spins)
    (hself : f'.locksSelf = f.locksSelf) (hnot : ∀ l todo, f ≠ .wakeup l todo) (hok : f'.Ok s p)
    (hwaits : ∀ l, (s.setFrame p f').Waits p l → s.Owed p l) : LockInv (s.setFrame p f') := by
  subst hf
  refine h.plain (p := p) ⟨fun _ hq => upd_of_ne hq, fun _ _ => rfl, fun _ _ => rfl, fun _ _ => rfl,
    fun _ _ => rfl⟩ rfl rfl hnot (h.spin_same hspins)
    (upd_self ..) ((h.procLock p).trans hself.symm) ?_ hwaits
  cases f' <;> exact hok

theorem LockInv.takeSpin (h : LockInv s) (hs : s.takeSpin p c f' = some s') (hf : s.frame p = f)
    (hnone : f.spins = none) (hspins : f'.spins = some c) (hself : f'.locksSelf = f.locksSelf)
    (hnot : ∀ l todo, f ≠ .wakeup l todo) (hok : f'.Ok s p)
    (hwaits : ∀ l, ¬(s.setFrame p f').Waits p l) : LockInv s' := by
  subst hf
  unfold LockSys.takeSpin at hs
  split_ifs at hs with hfree
  cases hs
  refine h.plain (p := p) ⟨fun _ hq => upd_of_ne hq, fun _ _ => rfl, fun _ _ => rfl, fun _ _ => rfl,
    fun _ _ => rfl⟩ rfl rfl hnot (h.spin_take hfree hnone hspins)
    (upd_self ..) ((h.procLock p).trans hself.symm) ?_ fun l hw => (hwaits l hw).elim
  cases f' <;> exact hok

theorem LockInv.giveSpin (h : LockInv s) (hf : s.frame p = f) (hspins : f.spins = some c)
    (hnone : f'.spins = none) (hself : f'.locksSelf = f.locksSelf)
    (hnot : ∀ l todo, f ≠ .wakeup l todo) (hok : f'.Ok s p)
    (hwaits : ∀ l, (s.setFrame p f').Waits p l → s.Owed p l) : LockInv (s.giveSpin p c f') := by
  subst hf
  refine h.plain (p := p) ⟨fun _ hq => upd_of_ne hq, fun _ _ => rfl, fun _ _ => rfl, fun _ _ => rfl,
    fun _ _ => rfl⟩ rfl rfl hnot (h.spin_give hspins hnone)
    (upd_self ..) ((h.procLock p).trans hself.symm) ?_ hwaits
  cases f' <;> exact hok

end Frames

/-! ## Visits -/

theorem LockInv.visit (h : LockInv s) (q : Fin n) (killed : Fin n → Bool) :
    LockInv { s with state := upd s.state q .runnable, killed := killed } := by
  have hstate : ∀ p, s.state p ≠ .sleeping → upd s.state q .runnable p ≠ .sleeping := by
    intro p hp
    rw [upd_apply]
    split_ifs
    · exact fun hne => nomatch hne
    · exact hp
  refine ⟨h.spin, h.procLock, h.locked, h.unique, fun p => ?_, fun p l hw => h.owed p l ?_⟩
  · have hok := h.frame p
    change (s.frame p).Ok _ p
    cases hf : s.frame p with
    | record | taken | drop | dropping | sleep | sleepBoth =>
      rw [hf] at hok
      exact ⟨hok.1, hstate p hok.2⟩
    | sched | asleep =>
      rw [hf] at hok
      exact hok
    | user | acquire | test | sleepAlone | resumed | wakeup =>
      rw [hf] at hok
      exact hstate p hok
  · rcases hw with hf | hf | ⟨hf, hsleep⟩
    · exact .inl hf
    · exact .inr (.inl hf)
    · refine .inr (.inr ⟨hf, ?_⟩)
      by_contra hne
      exact hstate p hne hsleep

theorem LockInv.wakeOne (h : LockInv s) (q : Fin n) (c : Channel) : LockInv (s.wakeOne q c) := by
  unfold LockSys.wakeOne
  split_ifs
  · exact h.visit q s.killed
  · exact h

theorem LockInv.killOne (h : LockInv s) (q : Fin n) : LockInv (s.killOne q) := by
  unfold LockSys.killOne
  split_ifs
  · exact h.visit q _
  · exact ⟨h.spin, h.procLock, h.locked, h.unique, fun p => by
      have hok := h.frame p
      change (s.frame p).Ok _ p
      cases hf : s.frame p <;> rw [hf] at hok <;> exact hok, h.owed⟩

/-- A process whose lock is free does not wait for the sleep lock after `wakeup` visited it. -/
theorem LockInv.not_waits_wakeOne (h : LockInv s) (hfree : s.procLock q = false) :
    ¬(s.wakeOne q (.lock l)).Waits q l := by
  have hself : (s.frame q).locksSelf = false := (h.procLock q).symm.trans hfree
  have hok := h.frame q
  have hframe : (s.wakeOne q (.lock l)).frame = s.frame := by
    unfold LockSys.wakeOne
    split_ifs <;> rfl
  unfold LockSys.Waits
  rw [hframe]
  rintro (hf | hf | ⟨hf, hsleep⟩)
  · rw [hf] at hself
    cases hself
  · rw [hf] at hself
    cases hself
  · rw [hf] at hok
    unfold LockSys.wakeOne at hsleep
    split_ifs at hsleep with hcond
    · dsimp only at hsleep
      rw [upd_self] at hsleep
      cases hsleep
    · exact hcond ⟨hsleep, hok⟩

theorem LockInv.visited (h : LockInv s) {todo : List (Fin n)}
    (hf : s.frame p = .wakeup l (q :: todo)) (hq : ¬s.Waits q l) :
    LockInv (s.setFrame p (.wakeup l todo)) := by
  have hok := h.frame p
  have hs : LockSys.StepOn p s (s.setFrame p (.wakeup l todo)) :=
    ⟨fun _ hq => upd_of_ne hq, fun _ _ => rfl, fun _ _ => rfl, fun _ _ => rfl, fun _ _ => rfl⟩
  rw [hf] at hok
  refine h.stepOn hs (h.spin_same (by rw [hf]; rfl)) ?_
    (fun l hg => ⟨h.locked p l hg, fun q hq => h.guards_of_ne hg hq⟩) ?_ ?_ fun l hl => .inl hl
  · change s.procLock p = (upd s.frame p _ p).locksSelf
    rw [upd_self, h.procLock p, hf]
    rfl
  · change (upd s.frame p _ p).Ok _ p
    rw [upd_self]
    exact hok
  · intro r m hw
    by_cases hr : r = p
    · subst hr
      exact absurd hw (LockSys.not_waits (upd_self ..) rfl)
    · have hold := (hs.waits hr).1 hw
      rcases h.owed r m hold with hl | ⟨p', todo', hf', hmem⟩
      · exact .inl hl
      · by_cases hp' : p' = p
        · subst hp'
          rw [hf, SleepFrame.wakeup.injEq] at hf'
          obtain ⟨rfl, rfl⟩ := hf'
          rcases List.mem_cons.1 hmem with rfl | hmem
          · exact absurd hold hq
          · exact .inr ⟨p', todo, upd_self .., hmem⟩
        · exact .inr ⟨p', todo', (upd_of_ne hp').trans hf', hmem⟩

section

variable (h : LockInv s)
include h

theorem LockInv.call {f : SleepFrame n} (hs : s.call p f = some s') (hspins : f.spins = none)
    (hself : f.locksSelf = false) (hok : s.state p ≠ .sleeping → f.Ok s p)
    (hwaits : ∀ l, ¬(s.setFrame p f).Waits p l) : LockInv s' := by
  unfold LockSys.call at hs
  split_ifs at hs with hcond
  cases hs
  have hstate := h.frame p
  rw [hcond.1] at hstate
  exact h.setFrame hcond.1 hspins hself (by simp) (hok hstate) fun l hw => (hwaits l hw).elim

theorem LockInv.lockFree (hf : s.frame p = .test (.lock l))
    (hl : ¬s.locked l = true) :
    LockInv { s.setFrame p (.record l) with
      locked := upd s.locked l true
      guards := upd s.guards p (upd (s.guards p) l true) } := by
  have hstate : s.state p ≠ .sleeping := by
    have hok := h.frame p
    rwa [hf] at hok
  have hkeeps : ∀ m, s.locked m = true → upd s.locked l true m = true := by
    intro m hm
    rw [upd_apply]
    split_ifs
    · rfl
    · exact hm
  have hs : LockSys.StepOn p s { s.setFrame p (.record l) with
      locked := upd s.locked l true
      guards := upd s.guards p (upd (s.guards p) l true) } :=
    ⟨fun _ hq => upd_of_ne hq, fun _ _ => rfl, fun _ _ => rfl, fun _ _ => rfl,
      fun _ hq => upd_of_ne hq⟩
  refine h.stepOn hs (h.spin_same (by rw [hf]; rfl)) ?_ (fun m hg => ?_) ?_ (fun q m hw => ?_)
    fun m hm => .inl (hkeeps m hm)
  · dsimp only [LockSys.setFrame]
    rw [upd_self, h.procLock p, hf]
    rfl
  · dsimp only at hg ⊢
    rw [upd_self] at hg
    by_cases hm : m = l
    · subst hm
      refine ⟨upd_self .., fun q _ => ?_⟩
      by_contra hg
      exact hl (h.locked q m (Bool.eq_true_of_not_eq_false hg))
    · rw [upd_of_ne hm] at hg
      exact ⟨hkeeps m (h.locked p m hg), fun q hq => h.guards_of_ne hg hq⟩
  · dsimp only [LockSys.setFrame]
    rw [upd_self]
    refine ⟨?_, hstate⟩
    dsimp only
    rw [upd_self, upd_self]
  · by_cases hq : q = p
    · subst hq
      exact (LockSys.not_waits (upd_self ..) rfl hw).elim
    · rcases h.owed q m ((hs.waits hq).1 hw) with hm | ⟨r, todo, hr, hmem⟩
      · exact .inl (hkeeps m hm)
      · refine .inr ⟨r, todo, (hs.frame r ?_).trans hr, hmem⟩
        rintro rfl
        rw [hf] at hr
        cases hr

theorem LockInv.unlock (hf : s.frame p = .dropping l) :
    LockInv { s.setFrame p (.wakeup l (List.finRange n)) with
      locked := upd s.locked l false
      pid := upd s.pid l none
      guards := upd s.guards p (upd (s.guards p) l false) } := by
  obtain ⟨hguard, hstate⟩ : s.guards p l = true ∧ s.state p ≠ .sleeping := by
    have hok := h.frame p
    rwa [hf] at hok
  have hspin : s.spin (.lock l) = some p := (h.spin _ _).2 (by rw [hf]; rfl)
  have hs : LockSys.StepOn p s { s.setFrame p (.wakeup l (List.finRange n)) with
      locked := upd s.locked l false
      pid := upd s.pid l none
      guards := upd s.guards p (upd (s.guards p) l false) } :=
    ⟨fun _ hq => upd_of_ne hq, fun _ _ => rfl, fun _ _ => rfl, fun _ _ => rfl,
      fun _ hq => upd_of_ne hq⟩
  refine h.stepOn hs (h.spin_same (by rw [hf]; rfl)) ?_ (fun m hg => ?_) ?_ (fun q m hw => ?_) fun m hm => ?_
  · dsimp only [LockSys.setFrame]
    rw [upd_self, h.procLock p, hf]
    rfl
  · dsimp only at hg ⊢
    rw [upd_self] at hg
    by_cases hm : m = l
    · rw [hm, upd_self] at hg
      cases hg
    · rw [upd_of_ne hm] at hg ⊢
      exact ⟨h.locked p m hg, fun q hq => h.guards_of_ne hg hq⟩
  · dsimp only [LockSys.setFrame]
    rw [upd_self]
    exact hstate
  · by_cases hm : m = l
    · subst hm
      exact .inr ⟨p, _, upd_self .., List.mem_finRange q⟩
    by_cases hq : q = p
    · subst hq
      exact (LockSys.not_waits (upd_self ..) rfl hw).elim
    · rcases h.owed q m ((hs.waits hq).1 hw) with hlocked | ⟨r, todo, hr, hmem⟩
      · exact .inl ((upd_of_ne hm).trans hlocked)
      · refine .inr ⟨r, todo, (hs.frame r ?_).trans hr, hmem⟩
        rintro rfl
        rw [hf] at hr
        cases hr
  · by_cases hml : m = l
    · subst hml
      exact .inr ⟨hspin, fun q hq => h.guards_of_ne hguard hq⟩
    · exact .inl ((upd_of_ne hml).trans hm)

theorem LockInv.testStep (hf : s.frame p = .test c) (again : Bool) :
    LockInv (s.testStep p c again) := by
  have hstate : s.state p ≠ .sleeping := by
    have hok := h.frame p
    rwa [hf] at hok
  have hother : ∀ c, s.frame p = .test c → (∀ l, c ≠ .lock l) →
      LockInv (if again then s.setFrame p (.sleep c) else s.giveSpin p c .user) := by
    intro c hf hc
    split_ifs
    · exact h.setFrame hf rfl rfl (by simp) ⟨fun l hl => (hc l hl).elim, hstate⟩
        fun l hw => (LockSys.not_waits (upd_self ..) rfl hw).elim
    · exact h.giveSpin hf rfl rfl rfl (by simp) hstate fun l hw => (LockSys.not_waits (upd_self ..) rfl hw).elim
  cases c with
  | lock l =>
    unfold LockSys.testStep
    dsimp only
    split_ifs with hl
    · refine h.setFrame hf rfl rfl (by simp) ⟨fun m hm => ?_, hstate⟩
        fun l hw => (LockSys.not_waits (upd_self ..) rfl hw).elim
      cases hm
      exact hl
    · exact h.lockFree hf hl
  | proc | ticks | buffer | log | pipeRead | pipeWrite => exact hother _ hf (by simp)

theorem LockInv.wakeupStep {todo : List (Fin n)}
    (hf : s.frame p = .wakeup l todo) (hs : s.wakeupStep p l todo = some s') : LockInv s' := by
  have hstate : s.state p ≠ .sleeping := by
    have hok := h.frame p
    rwa [hf] at hok
  cases todo with
  | nil =>
    cases hs
    have hstep : LockSys.StepOn p s (s.giveSpin p (.lock l) .user) :=
      ⟨fun _ hq => upd_of_ne hq, fun _ _ => rfl, fun _ _ => rfl, fun _ _ => rfl, fun _ _ => rfl⟩
    refine h.stepOn hstep (h.spin_give (by rw [hf]; rfl) rfl) ?_
      (fun m hg => ⟨h.locked p m hg, fun q hq => h.guards_of_ne hg hq⟩) ?_ (fun q m hw => ?_)
      fun m hm => .inl hm
    · dsimp only [LockSys.giveSpin, LockSys.setFrame]
      rw [upd_self, h.procLock p, hf]
      rfl
    · dsimp only [LockSys.giveSpin, LockSys.setFrame]
      rw [upd_self]
      exact hstate
    · by_cases hq : q = p
      · subst hq
        exact (LockSys.not_waits (upd_self ..) rfl hw).elim
      · rcases h.owed q m ((hstep.waits hq).1 hw) with hm | ⟨r, todo, hr, hmem⟩
        · exact .inl hm
        · refine .inr ⟨r, todo, (hstep.frame r ?_).trans hr, hmem⟩
          rintro rfl
          rw [hf, SleepFrame.wakeup.injEq] at hr
          rw [← hr.2] at hmem
          cases hmem
  | cons q todo =>
    rw [LockSys.wakeupStep] at hs
    split_ifs at hs with hq hlock
    · cases hs
      exact h.visited hf (hq ▸ LockSys.not_waits hf rfl)
    · cases hs
      refine (h.wakeOne q _).visited ?_ (h.not_waits_wakeOne (Bool.eq_false_of_not_eq_true hlock))
      unfold LockSys.wakeOne
      split_ifs <;> exact hf

theorem LockInv.run {again : Bool} (hs : s.run p again = some s') : LockInv s' := by
  have hok := h.frame p
  unfold LockSys.run at hs
  cases hf : s.frame p with
  | user | asleep =>
    rw [hf] at hs
    cases hs
  | acquire c =>
    rw [hf] at hs hok
    dsimp only at hs
    exact h.takeSpin hs hf rfl rfl rfl (by simp) hok fun l => LockSys.not_waits (upd_self ..) rfl
  | test c =>
    rw [hf] at hs
    cases hs
    exact h.testStep hf again
  | record l =>
    rw [hf] at hs hok
    dsimp only at hs
    split_ifs at hs
    cases hs
    refine h.plain (p := p) ⟨fun _ hq => upd_of_ne hq, fun _ _ => rfl, fun _ _ => rfl,
      fun _ _ => rfl, fun _ _ => rfl⟩ rfl rfl (by simp [hf]) (h.spin_same (by rw [hf]; rfl))
      (upd_self ..) ?_ hok fun l hw => (LockSys.not_waits (upd_self ..) rfl hw).elim
    exact (h.procLock p).trans (by rw [hf]; rfl)
  | taken l =>
    rw [hf] at hs hok
    cases hs
    exact h.giveSpin hf rfl rfl rfl (by simp) hok.2 fun l hw => (LockSys.not_waits (upd_self ..) rfl hw).elim
  | sleep c =>
    rw [hf] at hs hok
    dsimp only at hs
    split_ifs at hs
    cases hs
    exact h.plain (p := p) ⟨fun _ hq => upd_of_ne hq, fun _ hq => upd_of_ne hq, fun _ _ => rfl,
      fun _ _ => rfl, fun _ _ => rfl⟩ rfl rfl (by simp [hf]) (h.spin_same (by rw [hf]; rfl))
      (upd_self ..) (upd_self ..) hok fun l hw => (LockSys.not_waits (upd_self ..) rfl hw).elim
  | sleepBoth c =>
    -- the lock was locked when the process looked, and it has had the spinlock since
    rw [hf] at hs hok
    cases hs
    refine h.giveSpin hf rfl rfl rfl (by simp) hok.2 fun l hw => .inl (hok.1 l ?_)
    simpa [LockSys.Waits, LockSys.setFrame] using hw
  | sleepAlone c =>
    rw [hf] at hs
    cases hs
    refine h.plain (p := p) ⟨fun _ hq => upd_of_ne hq, fun _ _ => rfl, fun _ hq => upd_of_ne hq,
      fun _ hq => upd_of_ne hq, fun _ _ => rfl⟩ rfl rfl (by simp [hf])
      (h.spin_same (by rw [hf]; rfl)) (upd_self ..) ?_ (upd_self ..) fun l hw => h.owed p l ?_
    · exact (h.procLock p).trans (by rw [hf]; rfl)
    · have hc : c = .lock l := by simpa [LockSys.Waits, LockSys.setFrame] using hw
      exact .inl (hc ▸ hf)
  | sched c =>
    rw [hf] at hs hok
    cases hs
    refine h.plain (p := p) ⟨fun _ hq => upd_of_ne hq, fun _ hq => upd_of_ne hq, fun _ _ => rfl,
      fun _ _ => rfl, fun _ _ => rfl⟩ rfl rfl (by simp [hf]) (h.spin_same (by rw [hf]; rfl))
      (upd_self ..) (upd_self ..) hok fun l hw => h.owed p l ?_
    have hc : c = .lock l ∧ s.state p = .sleeping := by
      simpa [LockSys.Waits, LockSys.setFrame] using hw
    exact .inr (.inl (hc.1 ▸ hf))
  | resumed c =>
    rw [hf] at hs hok
    cases hs
    exact h.plain (p := p) ⟨fun _ hq => upd_of_ne hq, fun _ hq => upd_of_ne hq, fun _ _ => rfl,
      fun _ hq => upd_of_ne hq, fun _ _ => rfl⟩ rfl rfl (by simp [hf])
      (h.spin_same (by rw [hf]; rfl)) (upd_self ..) (upd_self ..) hok
      fun l hw => (LockSys.not_waits (upd_self ..) rfl hw).elim
  | drop l =>
    rw [hf] at hs hok
    dsimp only at hs
    exact h.takeSpin hs hf rfl rfl rfl (by simp) hok fun l => LockSys.not_waits (upd_self ..) rfl
  | dropping l =>
    rw [hf] at hs
    cases hs
    exact h.unlock hf
  | wakeup l todo =>
    rw [hf] at hs
    exact h.wakeupStep hf hs

theorem LockInv.dispatch (hs : s.dispatch p = some s') : LockInv s' := by
  unfold LockSys.dispatch at hs
  split_ifs at hs with hcond
  split at hs <;> cases hs
  next c hf =>
    refine h.plain (p := p) ⟨fun _ hq => upd_of_ne hq, fun _ hq => upd_of_ne hq,
      fun _ hq => upd_of_ne hq, fun _ _ => rfl, fun _ _ => rfl⟩ rfl rfl (by simp [hf])
      (h.spin_same (by rw [hf]; rfl)) (upd_self ..) (upd_self ..) ?_
      fun l hw => (LockSys.not_waits (upd_self ..) rfl hw).elim
    change upd s.state p _ p ≠ _
    rw [upd_self]
    decide
  next hf =>
    refine h.plain (p := p) ⟨fun _ _ => rfl, fun _ _ => rfl, fun _ hq => upd_of_ne hq,
      fun _ _ => rfl, fun _ _ => rfl⟩ rfl rfl (by simp [hf]) h.spin hf ?_ ?_
      fun l hw => (LockSys.not_waits (s := { s with state := upd s.state p _ }) hf rfl hw).elim
    · exact (h.procLock p).trans (by rw [hf])
    · change upd s.state p _ p ≠ _
      rw [upd_self]
      decide

theorem LockInv.step {a : LockAction n} (hs : LockStep s a s') : LockInv s' := by
  unfold LockStep LockSys.next at hs
  cases a with
  | lock p l => exact h.call hs rfl rfl id fun l => LockSys.not_waits (upd_self ..) rfl
  | drop p l =>
    dsimp only at hs
    split_ifs at hs with hg
    exact h.call hs rfl rfl (fun hstate => ⟨hg, hstate⟩) fun l => LockSys.not_waits (upd_self ..) rfl
  | await p c =>
    dsimp only at hs
    split_ifs at hs
    exact h.call hs rfl rfl id fun l => LockSys.not_waits (upd_self ..) rfl
  | run p again => exact h.run hs
  | dispatch p => exact h.dispatch hs
  | yield p =>
    dsimp only at hs
    split_ifs at hs
    cases hs
    exact h.visit p s.killed
  | kill q =>
    dsimp only at hs
    split_ifs at hs
    cases hs
    exact h.killOne q
  | wake q c =>
    dsimp only at hs
    split_ifs at hs
    cases hs
    exact h.wakeOne q c

end

theorem LockInv.new : LockInv (LockSys.new : LockSys n) where
  spin _ _ := by simp [LockSys.new, SleepFrame.spins]
  procLock _ := rfl
  locked _ _ h := nomatch h
  unique _ _ _ h := nomatch h
  frame _ := fun hne => nomatch hne
  owed _ _ hw := (LockSys.not_waits rfl rfl hw).elim

/-- At most one process has a guard of a sleep lock, and when the lock is free no process sleeps on
it. -/
theorem sleepLock_excludes (h : Reachable LockInit LockStep s) (l : ℕ) :
    (∀ p q, s.guards p l = true → s.guards q l = true → p = q) ∧
    (s.spin (.lock l) = none → s.locked l = false →
      ∀ q, ¬(s.state q = .sleeping ∧ s.channel q = some (.lock l))) := by
  have hinv : LockInv s := by
    refine h.invariant (I := LockInv) ?_ fun _ _ _ h hs => h.step hs
    rintro s rfl
    exact LockInv.new
  refine ⟨fun p q => hinv.unique p q l, fun hspin hlocked q hq => ?_⟩
  have hwaits : s.Waits q l := by
    have hok := hinv.frame q
    cases hf : s.frame q with
    | sched c =>
      rw [hf] at hok
      rw [hok.symm.trans hq.2 |> Option.some.inj] at hf
      exact .inr (.inl hf)
    | asleep c =>
      rw [hf] at hok
      rw [hok.symm.trans hq.2 |> Option.some.inj] at hf
      exact .inr (.inr ⟨hf, hq.1⟩)
    | record | taken | drop | dropping | sleep | sleepBoth =>
      rw [hf] at hok
      exact absurd hq.1 hok.2
    | user | acquire | test | sleepAlone | resumed | wakeup =>
      rw [hf] at hok
      exact absurd hq.1 hok
  rcases hinv.owed q l hwaits with hl | ⟨p, todo, hf, -⟩
  · rw [hlocked] at hl
    cases hl
  · -- the process that wakes the others up has the spinlock
    rw [(hinv.spin (.lock l) p).2 (by rw [hf]; rfl)] at hspin
    cases hspin

/-- A process sleeps on the lock of another one, which unlocks it. -/
theorem sleepLock_excludes_two : ∃ s : LockSys 2,
    (s.spin (.lock 7), s.locked 7, s.state 1) = (none, false, .runnable) ∧
      ∀ q, ¬(s.state q = .sleeping ∧ s.channel q = some (.lock 7)) := by
  obtain ⟨s, hs, heq⟩ := Option.map_eq_some_iff.1 (show
    ([.dispatch 0, .dispatch 1, .lock 0 7, .run 0 false, .run 0 false, .run 0 false, .run 0 false,
      .lock 1 7, .run 1 false, .run 1 false, .run 1 false, .run 1 false, .run 1 false, .run 1 false,
      .drop 0 7, .run 0 false, .run 0 false, .run 0 false, .run 0 false,
      .run 0 false].foldlM LockSys.next (LockSys.new : LockSys 2)).map
      (fun s => (s.spin (.lock 7), s.locked 7, s.state 1)) = some (none, false, .runnable) by decide)
  rw [Prod.mk.injEq, Prod.mk.injEq] at heq
  refine ⟨s, by rw [heq.1, heq.2.1, heq.2.2], ?_⟩
  exact (sleepLock_excludes (Reachable.foldlM hs (.init rfl)) 7).2 heq.1 heq.2.1

end Octopos
