import Octopos.Ipc.Stream
import Mathlib.Data.Fintype.Basic

/-!
# Sleepers on a pipe

A process may stay asleep on a channel of a pipe while there is nothing to do for it
(`PipeInner.Stay`). The holder of the lock may break this, and then owes the sleepers a `wakeup`
(`PipeFrame.Owes`). Two exits of the pipe functions do not pay: a write that is interrupted by a
kill after it put bytes into the pipe, and a read whose copy fails after it took bytes out. If
somebody sleeps on the other side then (`PipeState.Abandons`), the sleeper is stranded; otherwise
nobody ever is.
-/

namespace Octopos

/-- There is nothing to do for a process that sleeps on the channel. -/
def PipeInner.Stay (x : PipeInner) : PipeChannel → Prop
  | .pipeRead => x.isEmpty = true ∧ x.writeOpen = true
  | .pipeWrite => x.isFull = true ∧ x.readOpen = true

/-- The process at this point has changed the pipe for the sleepers on the channel. -/
def PipeFrame.Owes : PipeFrame → PipeChannel → Prop
  | write _ start i, .pipeRead => start < i
  | writeEnd _, .pipeRead => True
  | read _ i, .pipeWrite => 0 < i
  | readEnd _ _, .pipeWrite => True
  | closed true, .pipeRead => True
  | closed false, .pipeWrite => True
  | _, _ => False

section Wakeup

variable {P : Type}

/-- In a state in which the lock is free, everybody who sleeps has a reason to. -/
def PipeState.NoneStranded (s : PipeState P) : Prop :=
  s.owner = none → ∀ q c, (s.frame q).asleep = some c → s.pipe.Stay c

/-- The channel whose `wakeup` the step skips: it gives up in the middle of a transfer. -/
def PipeState.skips (s : PipeState P) (l : P × PipeAction) : Option PipeChannel :=
  match l.2, s.frame l.1 with
  | .run _, .write n start i =>
    if i < n ∧ s.killed l.1 = true ∧ start < i then some .pipeRead else none
  | .run copy, .read n i =>
    if i < n ∧ s.pipe.isEmpty = false ∧ copy = none ∧ 0 < i then some .pipeWrite else none
  | _, _ => none

def PipeState.Abandons (s : PipeState P) (l : P × PipeAction) : Prop :=
  ∃ q, (s.frame q).asleep ≠ none ∧ (s.frame q).asleep = s.skips l

instance [Fintype P] (s : PipeState P) (l : P × PipeAction) : Decidable (s.Abandons l) :=
  inferInstanceAs (Decidable (∃ q, (s.frame q).asleep ≠ none ∧ (s.frame q).asleep = s.skips l))

/-- Sleepers have a reason to sleep, or the holder of the lock is going to wake them up. -/
def SleepInv (s : PipeState P) : Prop :=
  ∀ q c, (s.frame q).asleep = some c →
    s.pipe.Stay c ∨ ∃ p, s.owner = some p ∧ (s.frame p).Owes c

variable {s s' : PipeState P} {p : P} {f : PipeFrame}

theorem SleepInv.noneStranded (h : SleepInv s) : s.NoneStranded := by
  intro hfree q c hq
  rcases h q c hq with hstay | ⟨p, hp, -⟩
  · exact hstay
  · rw [hfree] at hp
    cases hp

theorem SleepInv.of_owner (h : SleepInv s) (hp : s.owner = some p) {q : P} {c : PipeChannel}
    (hq : (s.frame q).asleep = some c) : s.pipe.Stay c ∨ (s.frame p).Owes c := by
  refine (h q c hq).imp_right ?_
  rintro ⟨p', hp', howes⟩
  rw [hp] at hp'
  cases hp'
  exact howes

theorem PipeFrame.asleep_of_holds (h : f.holds = true) : f.asleep = none := by
  cases f with
  | writeSleep | readSleep => cases h
  | _ => rfl

theorem PipeFrame.asleep_wake (f : PipeFrame) : f.wake.asleep = none := by
  cases f <;> rfl

/-- Nobody sleeps on a channel after its `wakeup`, and the other sleepers go on. -/
theorem PipeState.asleep_wakeup {q : P} {c c' : PipeChannel}
    (h : ((s.wakeup c).frame q).asleep = some c') : c' ≠ c ∧ (s.frame q).asleep = some c' := by
  unfold PipeState.wakeup at h
  dsimp only at h
  split_ifs at h with hq
  · rw [PipeFrame.asleep_wake] at h
    cases h
  · refine ⟨?_, h⟩
    rintro rfl
    exact hq h

variable [DecidableEq P]

theorem PipeState.asleep_setFrame {q : P} {c : PipeChannel}
    (h : ((s.setFrame p f).frame q).asleep = some c) :
    q = p ∧ f.asleep = some c ∨ q ≠ p ∧ (s.frame q).asleep = some c := by
  change (upd s.frame p f q).asleep = some c at h
  by_cases hq : q = p
  · subst hq
    rw [upd_self] at h
    exact Or.inl ⟨rfl, h⟩
  · rw [upd_of_ne hq] at h
    exact Or.inr ⟨hq, h⟩

theorem SleepInv.advance (hp : s.owner = some p) (hf : f.holds = true) {x : PipeInner}
    {put taken : List UInt8} (hstay : ∀ q c, (s.frame q).asleep = some c → x.Stay c ∨ f.Owes c) :
    SleepInv { s.setFrame p f with pipe := x, put := put, taken := taken } := by
  intro q c hq
  rcases PipeState.asleep_setFrame hq with ⟨-, ha⟩ | ⟨-, ha⟩
  · rw [PipeFrame.asleep_of_holds hf] at ha
    cases ha
  · refine (hstay q c ha).imp_right fun howes => ⟨p, hp, ?_⟩
    change (upd s.frame p f p).Owes c
    rwa [upd_self]

theorem SleepInv.unlock (hstay : ∀ q c, (s.frame q).asleep = some c → s.pipe.Stay c)
    (hf : ∀ c, f.asleep = some c → s.pipe.Stay c) : SleepInv (s.unlock p f) := by
  intro q c hq
  rcases PipeState.asleep_setFrame hq with ⟨-, ha⟩ | ⟨-, ha⟩
  · exact Or.inl (hf c ha)
  · exact Or.inl (hstay q c ha)

theorem SleepInv.leave (hstay : ∀ q c, (s.frame q).asleep = some c → s.pipe.Stay c)
    (r : Except PipeError ℕ) : SleepInv (s.leave p r) :=
  SleepInv.unlock (f := .user) hstay fun _ h => by cases h

theorem SleepInv.acquire (h : SleepInv s) (hf : f.holds = true) (hs : s.acquire p f = some s') :
    SleepInv s' := by
  unfold PipeState.acquire at hs
  split at hs
  · rename_i hfree
    cases hs
    intro q c hq
    rcases PipeState.asleep_setFrame hq with ⟨-, ha⟩ | ⟨-, ha⟩
    · rw [PipeFrame.asleep_of_holds hf] at ha
      cases ha
    · exact Or.inl (h.noneStranded hfree q c ha)
  · cases hs

theorem SleepInv.setFrame (h : SleepInv s) (hp : s.owner ≠ some p) (hf : f.asleep = none) :
    SleepInv (s.setFrame p f) := by
  intro q c hq
  rcases PipeState.asleep_setFrame hq with ⟨-, ha⟩ | ⟨-, ha⟩
  · rw [hf] at ha
    cases ha
  · refine (h q c ha).imp_right fun ⟨p', hp', howes⟩ => ⟨p', hp', ?_⟩
    have hne : p' ≠ p := by
      rintro rfl
      exact hp hp'
    change (upd s.frame p f p').Owes c
    rwa [upd_of_ne hne]

theorem SleepInv.writeStep (hinv : PipeInv s) (h : SleepInv s) {n start i : ℕ}
    (hf : s.frame p = .write n start i) {copy : Option UInt8} (hg : ¬s.Abandons (p, .run copy)) :
    SleepInv (s.writeStep p n start i copy) := by
  have hp : s.owner = some p := (hinv.owner p).1 (by rw [hf]; rfl)
  have hok : (PipeFrame.write n start i).Ok s.pipe := hf ▸ hinv.frame p
  have hrely (q : P) (c : PipeChannel) (hq : (s.frame q).asleep = some c) :
      s.pipe.Stay c ∨ (PipeFrame.write n start i).Owes c := hf ▸ h.of_owner hp hq
  unfold PipeState.writeStep
  split_ifs with h1 h2 h3 h4
  · refine SleepInv.advance hp rfl fun q c hq => ?_
    cases c with
    | pipeRead => exact Or.inr trivial
    | pipeWrite => exact hrely q _ hq
  · refine SleepInv.leave (fun q c hq => (hrely q c hq).resolve_right fun howes => ?_) _
    cases c with
    | pipeRead =>
      refine hg ⟨q, by simp [hq], ?_⟩
      unfold PipeState.skips
      simp only [hf]
      rw [hq, if_pos ⟨by omega, h2, howes⟩]
    | pipeWrite => exact howes
  · refine SleepInv.leave (fun q c hq => (hrely q c hq).resolve_right fun howes => ?_) _
    cases c with
    | pipeRead =>
      rw [(hok.2 howes).2] at h3
      cases h3
    | pipeWrite => exact howes
  · refine SleepInv.advance (s := s.wakeup .pipeRead) hp rfl fun q c hq => ?_
    obtain ⟨hne, ha⟩ := PipeState.asleep_wakeup hq
    cases c with
    | pipeRead => exact absurd rfl hne
    | pipeWrite => exact (hrely q _ ha).imp_right fun howes => howes
  · cases copy with
    | none =>
      refine SleepInv.advance hp rfl fun q c hq => ?_
      cases c with
      | pipeRead => exact Or.inr trivial
      | pipeWrite => exact hrely q _ hq
    | some ch =>
      refine SleepInv.advance hp rfl fun q c hq => ?_
      cases c with
      | pipeRead => exact Or.inr (Nat.lt_succ_of_le hok.1)
      | pipeWrite =>
        -- the ring is not full, so nobody sleeps here
        rcases hrely q _ hq with hstay | howes
        · exact absurd hstay.1 h4
        · exact howes.elim

theorem SleepInv.readWaitStep (hinv : PipeInv s) (h : SleepInv s) {n : ℕ}
    (hf : s.frame p = .readWait n) : SleepInv (s.readWaitStep p n) := by
  have hp : s.owner = some p := (hinv.owner p).1 (by rw [hf]; rfl)
  have hrely (q : P) (c : PipeChannel) (hq : (s.frame q).asleep = some c) : s.pipe.Stay c :=
    (hf ▸ h.of_owner hp hq : s.pipe.Stay c ∨ (PipeFrame.readWait n).Owes c).resolve_right
      fun howes => by cases c <;> exact howes
  unfold PipeState.readWaitStep
  split_ifs with h1 h2
  · exact SleepInv.leave hrely _
  · refine SleepInv.unlock hrely fun c hc => ?_
    cases hc
    rwa [Bool.and_eq_true] at h1
  · exact SleepInv.advance hp rfl fun q c hq => Or.inl (hrely q c hq)

theorem SleepInv.readStep (hinv : PipeInv s) (h : SleepInv s) {n i : ℕ} (hf : s.frame p = .read n i)
    {copy : Option UInt8} (hg : ¬s.Abandons (p, .run copy)) : SleepInv (s.readStep p n i copy) := by
  have hp : s.owner = some p := (hinv.owner p).1 (by rw [hf]; rfl)
  have hrely (q : P) (c : PipeChannel) (hq : (s.frame q).asleep = some c) :
      s.pipe.Stay c ∨ (PipeFrame.read n i).Owes c := hf ▸ h.of_owner hp hq
  have hend : SleepInv (s.setFrame p (.readEnd n i)) := by
    refine SleepInv.advance hp rfl fun q c hq => ?_
    cases c with
    | pipeRead => exact hrely q _ hq
    | pipeWrite => exact Or.inr trivial
  unfold PipeState.readStep
  split_ifs with h1 h2
  · exact hend
  · exact hend
  · rw [Bool.not_eq_true] at h2
    cases copy with
    | none =>
      refine SleepInv.leave (fun q c hq => (hrely q c hq).resolve_right fun howes => ?_) _
      cases c with
      | pipeRead => exact howes
      | pipeWrite =>
        refine hg ⟨q, by simp [hq], ?_⟩
        unfold PipeState.skips
        simp only [hf]
        rw [hq, if_pos ⟨by omega, h2, trivial, howes⟩]
    | some _ =>
      refine SleepInv.advance hp rfl fun q c hq => ?_
      cases c with
      | pipeRead =>
        -- the ring is not empty, so nobody sleeps here
        rcases hrely q _ hq with hstay | howes
        · rw [hstay.1] at h2
          cases h2
        · exact howes.elim
      | pipeWrite => exact Or.inr (Nat.succ_pos i)

theorem SleepInv.closeStep (hinv : PipeInv s) (h : SleepInv s) {writeable : Bool}
    (hf : s.frame p = .close writeable) : SleepInv (s.closeStep p writeable) := by
  have hp : s.owner = some p := (hinv.owner p).1 (by rw [hf]; rfl)
  refine SleepInv.advance hp rfl fun q c hq => ?_
  have hrely : s.pipe.Stay c ∨ (PipeFrame.close writeable).Owes c := hf ▸ h.of_owner hp hq
  cases writeable <;> cases c
  · exact hrely
  · exact Or.inr trivial
  · exact Or.inr trivial
  · exact hrely

omit [DecidableEq P] in
/-- The holder of the lock pays its debt on channel `c`, the only one it has. -/
theorem SleepInv.pay (hinv : PipeInv s) (h : SleepInv s) (hf : (s.frame p).holds = true)
    {c : PipeChannel} (hc : ∀ c', (s.frame p).Owes c' → c' = c) :
    ∀ q c', ((s.wakeup c).frame q).asleep = some c' → (s.wakeup c).pipe.Stay c' := by
  intro q c' hq
  obtain ⟨hne, ha⟩ := PipeState.asleep_wakeup hq
  exact (h.of_owner ((hinv.owner p).1 hf) ha).resolve_right fun howes => hne (hc c' howes)

theorem SleepInv.run (hinv : PipeInv s) (h : SleepInv s) {copy : Option UInt8}
    (hg : ¬s.Abandons (p, .run copy)) (hs : s.run p copy = some s') : SleepInv s' := by
  have hpay := h.pay (p := p) hinv
  unfold PipeState.run at hs
  split at hs <;> rename_i hf <;> rw [hf] at hpay
  case h_1 => exact h.acquire rfl hs
  case h_5 => exact h.acquire rfl hs
  case h_9 => exact h.acquire rfl hs
  all_goals cases hs
  · exact h.writeStep hinv hf hg
  · rename_i n i
    have hok : (PipeFrame.writeFull n i).Ok s.pipe := hf ▸ hinv.frame p
    have hp : s.owner = some p := (hinv.owner p).1 (by rw [hf]; rfl)
    refine SleepInv.unlock (fun q c hq => ?_) fun c hc => ?_
    · exact (hf ▸ h.of_owner hp hq : s.pipe.Stay c ∨ (PipeFrame.writeFull n i).Owes c).resolve_right
        fun howes => by cases c <;> exact howes
    · cases hc
      exact hok
  · exact SleepInv.leave (hpay rfl fun c' hc => by cases c' <;> trivial) _
  · exact h.readWaitStep hinv hf
  · exact h.readStep hinv hf hg
  · exact SleepInv.leave (hpay rfl fun c' hc => by cases c' <;> trivial) _
  · exact h.closeStep hinv hf
  · rename_i writeable
    refine SleepInv.unlock (hpay rfl fun c' hc => ?_) fun c hc => by cases hc
    cases writeable <;> cases c' <;> trivial

theorem SleepInv.call (hinv : PipeInv s) (h : SleepInv s) (hf : f.asleep = none)
    (hs : s.call p f = some s') : SleepInv s' := by
  unfold PipeState.call at hs
  split_ifs at hs with hu
  cases hs
  refine h.setFrame (fun hp => ?_) hf
  have := (hinv.owner p).2 hp
  rw [hu] at this
  cases this

theorem SleepInv.step (hinv : PipeInv s) (h : SleepInv s) {l : P × PipeAction}
    (hg : ¬s.Abandons l) (hs : PipeStep s l s') : SleepInv s' := by
  obtain ⟨p, a⟩ := l
  unfold PipeStep PipeState.next at hs
  cases a with
  | callWrite n => exact h.call hinv rfl hs
  | callRead n => exact h.call hinv rfl hs
  | callClose writeable => exact h.call hinv rfl hs
  | run copy => exact h.run hinv hg hs
  | kill =>
    cases hs
    have h' : SleepInv (s.setFrame p (s.frame p).wake) := by
      by_cases hp : s.owner = some p
      · have hnone := PipeFrame.asleep_of_holds ((hinv.owner p).2 hp)
        rw [PipeFrame.wake_of_asleep hnone]
        unfold PipeState.setFrame
        rw [upd_eq_self]
        exact h
      · exact h.setFrame hp (PipeFrame.asleep_wake _)
    exact h'
  | reuse =>
    dsimp only at hs
    split_ifs at hs
    cases hs
    exact h

omit [DecidableEq P] in
theorem sleepInv_init (h : PipeInit s) : SleepInv s := by
  intro q c hq
  rw [h.2.2.1 q] at hq
  cases hq

theorem PipeState.not_noneStranded_leave {q : P} {c : PipeChannel} (hp : (s.frame p).holds = true)
    (hq : (s.frame q).asleep = some c) (hstay : ¬s.pipe.Stay c) (r : Except PipeError ℕ) :
    ¬(s.leave p r).NoneStranded := by
  intro hnone
  have hne : q ≠ p := by
    rintro rfl
    rw [PipeFrame.asleep_of_holds hp] at hq
    cases hq
  refine hstay (hnone rfl q c ?_)
  change (upd s.frame p .user q).asleep = some c
  rwa [upd_of_ne hne]

theorem PipeInv.stranded (hinv : PipeInv s) {l : P × PipeAction} (ha : s.Abandons l)
    (hs : PipeStep s l s') : ¬s'.NoneStranded := by
  obtain ⟨p, a⟩ := l
  obtain ⟨q, hne, hq⟩ := ha
  have hok := hinv.frame p
  have hskip : s.skips (p, a) ≠ none := hq ▸ hne
  unfold PipeStep at hs
  cases a with
  | run copy =>
    unfold PipeState.next PipeState.run at hs
    unfold PipeState.skips at hq hskip
    cases hf : s.frame p with
    | write n start i =>
      simp only [hf] at hs hq hskip hok
      split_ifs at hq hskip with hc
      · obtain ⟨hi, hkilled, hlt⟩ := hc
        unfold PipeState.writeStep at hs
        rw [if_neg (by omega), if_pos hkilled] at hs
        cases hs
        refine PipeState.not_noneStranded_leave (by rw [hf]; rfl) hq (fun hstay => ?_) _
        have hempty := hstay.1
        rw [(hok.2 hlt).1] at hempty
        cases hempty
      · exact absurd rfl hskip
    | read n i =>
      simp only [hf] at hs hq hskip hok
      split_ifs at hq hskip with hc
      · obtain ⟨hi, hempty, rfl, hpos⟩ := hc
        unfold PipeState.readStep at hs
        rw [if_neg (by omega), hempty] at hs
        cases hs
        refine PipeState.not_noneStranded_leave (by rw [hf]; rfl) hq (fun hstay => ?_) _
        have hfull := hstay.1
        rw [hok.2 hpos] at hfull
        cases hfull
      · exact absurd rfl hskip
    | _ =>
      simp only [hf] at hskip
      exact absurd rfl hskip
  | _ => exact absurd rfl hskip

/-- Starting with a new pipe, as long as no call gives up in the middle of a transfer and leaves a
sleeper on the other side behind, nobody sleeps on the pipe without a reason while its lock is free;
and the first such call strands the sleeper. -/
theorem pipe_noneStranded
    (h : Reachable PipeInit (Guarded (fun s l => ¬s.Abandons l) PipeStep) s) :
    s.NoneStranded ∧ ∀ l s', PipeStep s l s' → (s'.NoneStranded ↔ ¬s.Abandons l) := by
  have hinv : PipeInv s ∧ SleepInv s :=
    h.invariant (I := fun s => PipeInv s ∧ SleepInv s)
      (fun _ h0 => ⟨pipeInv_init h0, sleepInv_init h0⟩)
      fun _ _ _ hi hs => ⟨hi.1.step hs.2, hi.2.step hi.1 hs.1 hs.2⟩
  refine ⟨hinv.2.noneStranded, fun l s' hs => ⟨fun hnone ha => ?_, fun hg => ?_⟩⟩
  · exact hinv.1.stranded ha hs hnone
  · exact (hinv.2.step hinv.1 hg hs).noneStranded

end Wakeup

/-- A reader sleeps, a writer puts a byte into the pipe and is killed: it returns and does not wake
up the reader. -/
theorem killed_write_strands : ∃ s : PipeState Bool, Reachable PipeInit PipeStep s ∧
    s.owner = none ∧ (s.frame true).asleep = some .pipeRead ∧ s.pipe.isEmpty = false := by
  have hrun : (([(true, .callRead 1), (true, .run none), (true, .run none), (false, .callWrite 2),
      (false, .run none), (false, .run (some 7)), (false, .kill), (false, .run none)].foldlM
      PipeState.next (PipeState.new : PipeState Bool)).map fun s =>
        (s.owner, (s.frame true).asleep, s.pipe.isEmpty)) = some (none, some .pipeRead, false) := rfl
  obtain ⟨s, hs, hvals⟩ := Option.map_eq_some_iff.1 hrun
  rw [Prod.mk.injEq, Prod.mk.injEq] at hvals
  exact ⟨s, .foldlM hs (.init pipeInit_new), hvals⟩

/-- A reader that sleeps on a new pipe is woken up by a writer that puts a byte into it. -/
theorem pipe_noneStranded_reader : ∃ s : PipeState Bool,
    Reachable PipeInit (Guarded (fun s l => ¬s.Abandons l) PipeStep) s ∧
    s.frame true = .readLock 1 ∧ s.put = [7] ∧ s.NoneStranded := by
  have hrun : (execute PipeState.next (fun s l => decide ¬s.Abandons l)
      (PipeState.new : PipeState Bool) [(true, .callRead 1), (true, .run none), (true, .run none),
        (false, .callWrite 1), (false, .run none), (false, .run (some 7)), (false, .run none),
        (false, .run none)]).map (fun s => (s.frame true, s.put)) = some (.readLock 1, [7]) := by
    decide
  obtain ⟨s, hs, hvals⟩ := Option.map_eq_some_iff.1 hrun
  rw [Prod.mk.injEq] at hvals
  have hreach : Reachable PipeInit (Guarded (fun s l => ¬s.Abandons l) PipeStep) s :=
    (Reachable.execute hs (.init pipeInit_new)).mono
      fun _ _ _ h => ⟨of_decide_eq_true h.1, h.2⟩
  exact ⟨s, hreach, hvals.1, hvals.2, (pipe_noneStranded hreach).1⟩

end Octopos
