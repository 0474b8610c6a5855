import Octopos.Lib.Bytes
import Octopos.Lib.Run
import Octopos.Sched.Table

/-!
# Spinlocks, interrupts and CPUs

`spinlock.rs` with the interrupt locks of `proc.rs`, under the schedulers, which may go on with a
process on another CPU than before. The CPUs interleave at every access to the word of a lock.
-/

namespace Octopos

/-- The spinlock around `inner` of a process, or another one. -/
inductive SpinId (P : Type)
  | inner (p : P)
  | other (l : ℕ)
  deriving DecidableEq

/-- Where a CPU stands; at `drop` it has cleared the word of a lock. -/
inductive CpuFrame (P : Type)
  | run
  | spin (l : SpinId P)
  | drop
  | forkRet
  deriving DecidableEq

inductive CpuPanic
  /-- "mycpu interrupts enabled", and "cpu unlock - interruptible" after it -/
  | mycpu
  /-- "cpu unlock" -/
  | cpuUnlock
  /-- "acquire spinlock" -/
  | acquire
  /-- "release lock" and "force_unlock: not locked" -/
  | release
  /-- "sched locks" -/
  | schedLocks

/-- `Cpu` with the interrupt bit of the hardware, and what the code that it executes has in hand:
guards, and interrupt locks that are not part of one. -/
structure CpuState (P : Type) where
  sie : Bool
  numOff : ℤ
  interruptsEnabled : Bool
  proc : Option P
  frame : CpuFrame P
  guards : List (SpinId P)
  intr : ℕ

/-- `saved` is the local variable of a process that waits in `sched`; without one, its context is at
`fork_ret`. `first` is a history: the interrupt bit when the process took the first of its locks. -/
structure CpuSys (C P : Type) where
  cpu : C → CpuState P
  owner : SpinId P → Option C
  state : P → ProcState
  saved : P → Option Bool
  first : P → Option Bool

/-- A trap is a `disable`, and the return from it an `enable`. -/
inductive CpuAction (P : Type)
  | lockCpu
  | unlockCpu
  | lock (l : SpinId P)
  | exchange
  | drop (l : SpinId P)
  | release
  | disable
  | enable
  | sched (p : P) (st : ProcState)
  | dispatch (p : P)
  | setState (p : P) (st : ProcState)

variable {C P : Type}

/-- The interrupt lock of a guard that is not yet there, or no longer. -/
def CpuFrame.locks : CpuFrame P → ℕ
  | spin _ | drop => 1
  | run | forkRet => 0

namespace CpuState

/-- The interrupt locks in hand. -/
def locks (k : CpuState P) : ℕ := k.guards.length + k.intr + k.frame.locks

/-- `lock_current_cpu` -/
def lock (k : CpuState P) : CpuState P :=
  { k with
    sie := false
    interruptsEnabled := if k.numOff = 0 then k.sie else k.interruptsEnabled
    numOff := k.numOff + 1 }

/-- `current_cpu().unlock()` -/
def unlock (k : CpuState P) : Except CpuPanic (CpuState P) :=
  if k.sie then .error .mycpu
  else if k.numOff < 1 then .error .cpuUnlock
  else .ok { k with numOff := k.numOff - 1, sie := k.numOff - 1 == 0 && k.interruptsEnabled }

end CpuState

namespace CpuSys

variable [DecidableEq C] [DecidableEq P] (s : CpuSys C P) (c : C)

def set (k : CpuState P) : CpuSys C P := { s with cpu := upd s.cpu c k }

def take (f : CpuFrame P) (n : ℕ) : CpuSys C P :=
  { s.set c { (s.cpu c).lock with frame := f, intr := n } with
    first := fun p =>
      if (s.cpu c).proc = some p ∧ (s.cpu c).numOff = 0 then some (s.cpu c).sie else s.first p }

def release (n : ℕ) : Except CpuPanic (CpuSys C P) :=
  (s.cpu c).unlock.map fun k => s.set c { k with frame := .run, intr := n }

/-- An iteration of the loop in `SpinLock::lock`. -/
def exchange (l : SpinId P) : Except CpuPanic (CpuSys C P) :=
  if (s.cpu c).sie then .error .mycpu
  else if s.owner l = none then
    .ok { s.set c { s.cpu c with frame := .run, guards := l :: (s.cpu c).guards } with
      owner := upd s.owner l (some c) }
  else .ok s

/-- The first half of the drop of a guard, and of `force_unlock`. -/
def dropGuard (l : SpinId P) : Except CpuPanic (CpuSys C P) :=
  if (s.cpu c).sie then .error .mycpu
  else if s.owner l ≠ some c then .error .release
  else .ok { s.set c { s.cpu c with frame := .drop, guards := (s.cpu c).guards.erase l } with
    owner := upd s.owner l none }

/-- A process sets its state and calls `sched`, which switches to the scheduler. -/
def sched (p : P) (st : ProcState) : Except CpuPanic (CpuSys C P) :=
  if (s.cpu c).sie then .error .mycpu
  else if (s.cpu c).numOff ≠ 1 then .error .schedLocks
  else .ok { s.set c { s.cpu c with proc := none } with
    state := upd s.state p st
    saved := upd s.saved p (some (s.cpu c).interruptsEnabled) }

/-- The scheduler switches to a process, to the end of `sched` or to `fork_ret`. -/
def dispatch (p : P) : CpuSys C P :=
  match s.saved p with
  | some b =>
    { s.set c { s.cpu c with proc := some p, interruptsEnabled := b } with
      state := upd s.state p .running
      saved := upd s.saved p none }
  | none =>
    { s.set c { s.cpu c with proc := some p, frame := .forkRet } with
      state := upd s.state p .running
      first := upd s.first p none }

/-- The state of a process that does not run is changed. A new process gets a context at
`fork_ret`. -/
def setState (p : P) (st : ProcState) : CpuSys C P :=
  { s with
    state := upd s.state p st
    saved := if st = .used then upd s.saved p none else s.saved }

/-- A step of CPU `c`. A guard is dropped by the code that has it, interrupts are enabled with no
lock in hand, and the scheduler has but the lock of the process. -/
def step (a : CpuAction P) : Option (Except CpuPanic (CpuSys C P)) :=
  let k := s.cpu c
  match a, k.frame with
  | .lockCpu, .run => some (.ok (s.take c .run (k.intr + 1)))
  | .unlockCpu, .run => if k.intr = 0 then none else some (s.release c (k.intr - 1))
  | .lock l, .run =>
    some (if s.owner l = some c then .error .acquire else .ok (s.take c (.spin l) k.intr))
  | .exchange, .spin l => some (s.exchange c l)
  | .drop l, .run => if k.guards.contains l then some (s.dropGuard c l) else none
  | .drop l, .forkRet => if k.proc.map .inner = some l then some (s.dropGuard c l) else none
  | .release, .drop => some (s.release c k.intr)
  | .disable, .run => some (.ok (s.set c { k with sie := false }))
  | .enable, .run => if k.locks = 0 then some (.ok (s.set c { k with sie := true })) else none
  | .sched p st, .run =>
    if k.proc = some p ∧ k.guards.contains (.inner p) ∧ st ≠ .running then some (s.sched c p st) else none
  | .dispatch p, .run =>
    if k.proc = none ∧ k.guards = [.inner p] ∧ k.intr = 0 ∧ s.state p = .runnable then
      some (.ok (s.dispatch c p))
    else none
  | .setState p st, .run =>
    if k.guards.contains (.inner p) ∧ s.state p ≠ .running ∧ st ≠ .running then
      some (.ok (s.setState p st))
    else none
  | _, _ => none

def next (s : CpuSys C P) (l : C × CpuAction P) : Option (CpuSys C P) :=
  (s.step l.1 l.2).bind Except.toOption

def Boot : Prop :=
  (∀ c, s.cpu c = ⟨false, 0, false, none, .run, [], 0⟩) ∧ (∀ l, s.owner l = none) ∧ ∀ p, s.saved p = none

def Reached (s : CpuSys C P) : Prop := Reachable Boot (fun s l s' => next s l = some s') s

end CpuSys

/-- The count of a CPU is the number of locks in hand, its interrupts are off while there is one,
the word of a lock names the CPU that has its guard, and a process runs on one CPU. -/
@[grind cases] structure CpuInv (s : CpuSys C P) : Prop where
  count : ∀ c, (s.cpu c).numOff = (s.cpu c).locks
  off : ∀ c, (s.cpu c).sie = true → (s.cpu c).locks = 0
  owner : ∀ l c, s.owner l = some c ↔ l ∈ (s.cpu c).guards
  nodup : ∀ c, (s.cpu c).guards.Nodup
  running : ∀ c p, (s.cpu c).proc = some p → s.state p = .running ∧ s.saved p = none
  single : ∀ c d p, (s.cpu c).proc = some p → (s.cpu d).proc = some p → c = d
  forked : ∀ c p, (s.cpu c).frame = .forkRet → (s.cpu c).proc = some p → .inner p ∈ (s.cpu c).guards
  kept : ∀ c p b, (s.cpu c).proc = some p → 0 < (s.cpu c).locks → s.first p = some b →
    (s.cpu c).interruptsEnabled = b
  saved : ∀ p e b, s.saved p = some e → s.first p = some b → e = b

/-- The step does not panic, and keeps the invariant. -/
def CpuInv.Kept (r : Except CpuPanic (CpuSys C P)) : Prop := ∃ s, r = .ok s ∧ CpuInv s

section Steps

attribute [local grind] upd CpuState.locks CpuFrame.locks

variable [DecidableEq C] [DecidableEq P] {s s' : CpuSys C P} {c : C} {p : P} {l : SpinId P} {b : Bool}
  {a : CpuAction P} {n : ℕ} {st : ProcState}

namespace CpuInv

variable (h : CpuInv s)
include h

omit [DecidableEq C] [DecidableEq P] in
theorem sie_of_pos (hpos : 0 < (s.cpu c).locks) : (s.cpu c).sie = false := by
  grind

theorem take {f : CpuFrame P} (hf : f ≠ .forkRet)
    (hn : (s.cpu c).guards.length + n + f.locks = (s.cpu c).locks + 1) :
    Kept (.ok (s.take c f n)) := by
  refine ⟨_, rfl, ?_⟩
  constructor <;> simp only [CpuSys.take, CpuSys.set, CpuState.lock] <;> intro d <;> grind

omit [DecidableEq P] in
theorem release_eq (hpos : 0 < (s.cpu c).locks) :
    s.release c n = .ok (s.set c { s.cpu c with
      sie := (s.cpu c).numOff - 1 == 0 && (s.cpu c).interruptsEnabled
      numOff := (s.cpu c).numOff - 1
      frame := .run
      intr := n }) := by
  have hcount := h.count c
  rw [CpuSys.release, CpuState.unlock, h.sie_of_pos hpos, if_neg (by simp), if_neg (by omega)]
  rfl

omit [DecidableEq P] in
theorem release (hn : (s.cpu c).guards.length + n + 1 = (s.cpu c).locks) :
    Kept (s.release c n) := by
  refine ⟨_, h.release_eq (by omega), ?_⟩
  constructor <;> simp only [CpuSys.set] <;> intro d <;> grind

theorem exchange (hframe : (s.cpu c).frame = .spin l) : Kept (s.exchange c l) := by
  rw [CpuSys.exchange, h.sie_of_pos (by grind), if_neg (by simp)]
  split_ifs
  · refine ⟨_, rfl, ?_⟩
    constructor <;> simp only [CpuSys.set] <;> intro d <;> grind
  · exact ⟨s, rfl, h⟩

theorem dropGuard (hframe : (s.cpu c).frame.locks = 0) (hl : l ∈ (s.cpu c).guards) :
    Kept (s.dropGuard c l) := by
  have hlength := List.length_erase_add_one hl
  have hmem := fun m => (h.nodup c).mem_erase_iff (a := m) (b := l)
  have herase := (h.nodup c).erase l
  rw [CpuSys.dropGuard, h.sie_of_pos (by grind), if_neg (by simp), if_neg (by grind)]
  refine ⟨_, rfl, ?_⟩
  constructor <;> simp only [CpuSys.set] <;> intro d <;> grind

theorem setSie (hframe : (s.cpu c).frame = .run) (hb : b = true → (s.cpu c).locks = 0) :
    Kept (.ok (s.set c { s.cpu c with sie := b })) := by
  refine ⟨_, rfl, ?_⟩
  constructor <;> simp only [CpuSys.set] <;> intro d <;> grind

theorem sched (hp : (s.cpu c).proc = some p) (h1 : (s.cpu c).locks = 1) :
    Kept (s.sched c p st) := by
  rw [CpuSys.sched, h.sie_of_pos (by omega), if_neg (by simp), if_neg (by grind)]
  refine ⟨_, rfl, ?_⟩
  constructor <;> simp only [CpuSys.set] <;> intro d <;> grind

theorem dispatch (hframe : (s.cpu c).frame = .run) (hguards : (s.cpu c).guards = [.inner p])
    (hst : s.state p = .runnable) : Kept (.ok (s.dispatch c p)) := by
  refine ⟨_, rfl, ?_⟩
  unfold CpuSys.dispatch
  split <;> constructor <;> simp only [CpuSys.set] <;> intro d <;> grind

omit [DecidableEq C] in
theorem setState (hrun : s.state p ≠ .running) : Kept (.ok (s.setState p st)) := by
  refine ⟨_, rfl, ?_⟩
  constructor <;> simp only [CpuSys.setState] <;> intro d <;> grind

/-- A step panics if the CPU already has the lock, or has another one in `sched`. -/
theorem step {r : Except CpuPanic (CpuSys C P)} (hr : s.step c a = some r) :
    Kept r ∨ (r = .error .acquire ∧ ∃ l, a = .lock l ∧ l ∈ (s.cpu c).guards) ∨
      (r = .error .schedLocks ∧ ∃ p st, a = .sched p st ∧ 1 < (s.cpu c).locks) := by
  unfold CpuSys.step at hr
  dsimp only at hr
  split at hr <;> rename_i hframe
  all_goals try split_ifs at hr with hif
  all_goals cases hr
  · exact .inl (h.take (by simp) (by grind))
  · exact .inl (h.release (by grind))
  · exact .inr (.inl ⟨rfl, _, rfl, (h.owner _ c).1 hif⟩)
  · exact .inl (h.take (by simp) (by grind))
  · exact .inl (h.exchange hframe)
  · exact .inl (h.dropGuard (by grind) (List.contains_iff_mem.1 hif))
  · obtain ⟨p, hp, rfl⟩ := Option.map_eq_some_iff.1 hif
    exact .inl (h.dropGuard (by grind) (h.forked c p hframe hp))
  · exact .inl (h.release (by grind))
  · exact .inl (h.setSie hframe (by simp))
  · exact .inl (h.setSie hframe fun _ => hif)
  · have hpos := List.length_pos_of_mem (List.contains_iff_mem.1 hif.2.1)
    by_cases hone : (s.cpu c).locks = 1
    · exact .inl (h.sched hif.1 hone)
    · have hmany : 1 < (s.cpu c).locks := by grind
      refine .inr (.inr ⟨?_, _, _, rfl, hmany⟩)
      grind [CpuSys.sched, h.sie_of_pos]
  · exact .inl (h.dispatch hframe hif.2.1 hif.2.2.2)
  · exact .inl (h.setState hif.2.1)

end CpuInv

theorem CpuSys.Reached.inv (h : s.Reached) : CpuInv s := by
  apply h.invariant
  · rintro t ⟨hcpu, howner, hsaved⟩
    constructor <;> simp [hcpu, howner, hsaved, CpuState.locks, CpuFrame.locks]
  · rintro t ⟨d, a⟩ t' ht hs
    obtain ⟨r, hr, hok⟩ := Option.bind_eq_some_iff.1 hs
    rcases ht.step hr with ⟨u, rfl, hu⟩ | ⟨rfl, -⟩ | ⟨rfl, -⟩ <;> cases hok
    exact hu

/-- At most one CPU has the guard of a lock, at most one runs a process, and the interrupts of a CPU
are off while it has a lock. -/
theorem spinlocks_exclude (h : s.Reached) :
    (∀ l c d, l ∈ (s.cpu c).guards → l ∈ (s.cpu d).guards → c = d) ∧
    (∀ p c d, (s.cpu c).proc = some p → (s.cpu d).proc = some p → c = d) ∧
    ∀ c, (s.cpu c).numOff = (s.cpu c).locks ∧ (0 < (s.cpu c).locks → (s.cpu c).sie = false) := by
  have hinv := h.inv
  refine ⟨fun l c d hc hd => ?_, fun p c d => hinv.single c d p, fun c => ⟨hinv.count c, hinv.sie_of_pos⟩⟩
  exact Option.some.inj (((hinv.owner l c).2 hc).symm.trans ((hinv.owner l d).2 hd))

/-- A step can only panic with 'acquire spinlock', at a lock that the CPU has already, or with
'sched locks', when `sched` is called with another lock in hand. -/
theorem cpu_asserts_hold (h : s.Reached) {e : CpuPanic} (he : s.step c a = some (.error e)) :
    (e = .acquire ∧ ∃ l, a = .lock l ∧ l ∈ (s.cpu c).guards) ∨
      (e = .schedLocks ∧ ∃ p st, a = .sched p st ∧ 1 < (s.cpu c).locks) := by
  rcases h.inv.step he with ⟨t, ht, -⟩ | ⟨hr, hlock⟩ | ⟨hr, hsched⟩
  · cases ht
  · cases hr
    exact .inl ⟨rfl, hlock⟩
  · cases hr
    exact .inr ⟨rfl, hsched⟩

/-- A process that drops its last lock gets the interrupts as they were when it took the first one,
on whichever CPU that was. -/
theorem unlock_restores (h : s.Reached) (hp : (s.cpu c).proc = some p) (hb : s.first p = some b)
    (hpos : 0 < (s.cpu c).numOff) (hs : s.release c n = .ok s') (hlast : (s'.cpu c).numOff = 0) :
    (s'.cpu c).sie = b := by
  have hcount := h.inv.count c
  rw [h.inv.release_eq (by omega), Except.ok.injEq] at hs
  have hkept := h.inv.kept c p b hp (by omega) hb
  subst hs
  simp only [CpuSys.set, upd_self] at hlast ⊢
  simp [hlast, hkept]

end Steps

/-- A process yields on one CPU and is dispatched on another one, where it drops its lock. -/
def migrated : Option (CpuSys Bool Unit) :=
  [(false, .lock (.inner ())), (false, .exchange), (false, .dispatch ()), (false, .drop (.inner ())),
    (false, .release), (false, .enable), (false, .lock (.inner ())), (false, .exchange), (false, .sched () .runnable),
    (false, .drop (.inner ())), (false, .release), (true, .lock (.inner ())), (true, .exchange), (true, .dispatch ()),
    (true, .drop (.inner ()))].foldlM CpuSys.next ⟨fun _ => ⟨false, 0, false, none, .run, [], 0⟩, fun _ => none,
      fun _ => .runnable, fun _ => none, fun _ => none⟩

theorem migrated_reached : ∃ s, migrated = some s ∧ s.Reached ∧ (s.cpu true).proc = some () ∧
    s.first () = some true ∧ (s.cpu true).numOff = 1 := by
  obtain ⟨s, hs, heq⟩ := Option.map_eq_some_iff.1 (show migrated.map (fun s => ((s.cpu true).proc, s.first (),
    (s.cpu true).numOff)) = some (some (), some true, 1) by decide)
  rw [Prod.mk.injEq, Prod.mk.injEq] at heq
  exact ⟨s, hs, Reachable.foldlM hs (.init ⟨fun _ => rfl, fun _ => rfl, fun _ => rfl⟩), heq⟩

theorem spinlocks_exclude_migrated :
    ∃ s, migrated = some s ∧ (s.cpu true).locks = 1 ∧ (s.cpu true).sie = false := by
  obtain ⟨s, hs, hreached, -, -, hnum⟩ := migrated_reached
  obtain ⟨hcount, hoff⟩ := (spinlocks_exclude hreached).2.2 true
  exact ⟨s, hs, by omega, hoff (by omega)⟩

/-- The process then takes a lock twice. -/
theorem cpu_asserts_twice : ∃ s : CpuSys Bool Unit,
    s.step true (.lock (.other 0)) = some (.error .acquire) ∧ .other 0 ∈ (s.cpu true).guards := by
  obtain ⟨s, hs, heq⟩ := Option.map_eq_some_iff.1 (show (migrated.bind fun t =>
      [(true, .release), (true, .lock (.other 0)), (true, .exchange)].foldlM CpuSys.next t).map
    (fun s => (s.owner (.other 0), (s.cpu true).frame)) = some (some true, .run) by decide)
  obtain ⟨t, ht, hs⟩ := Option.bind_eq_some_iff.1 hs
  obtain ⟨t', ht', hreached, -⟩ := migrated_reached
  cases ht.symm.trans ht'
  obtain ⟨howner, hframe⟩ := Prod.mk.inj heq
  have he : s.step true (.lock (.other 0)) = some (.error .acquire) := by
    simp [CpuSys.step, hframe, howner]
  rcases cpu_asserts_hold (Reachable.foldlM hs hreached) he with ⟨-, l, hl, hmem⟩ | ⟨hne, -⟩
  · cases hl
    exact ⟨s, he, hmem⟩
  · cases hne

theorem unlock_restores_migrated :
    ∃ s s', migrated = some s ∧ s.release true 0 = .ok s' ∧ (s'.cpu true).sie = true := by
  obtain ⟨s, hs, hreached, hp, hb, hnum⟩ := migrated_reached
  have hrel := hreached.inv.release_eq (c := true) (n := 0) (by have := hreached.inv.count true; omega)
  exact ⟨s, _, hs, hrel, unlock_restores hreached hp hb (by omega) hrel (by simp [CpuSys.set, hnum])⟩

end Octopos
