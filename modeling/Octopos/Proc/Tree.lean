import Octopos.Lib.Bytes
import Octopos.Lib.Run
import Octopos.Sched.Table

/-!
# Creation and end of processes

`fork`, `exit`, `wait`, `kill`, `sleep` and `wakeup` of `proc.rs` on any number of CPUs. A process
stands at some point of one of them (`ProcFrame`), and a step takes it to the next point. Code under
the lock of a slot is one step; the lock of the array `parents` is held over many. `wakeup` is one
step, because a process that goes to sleep in `wait` holds the lock of `parents` until it sleeps,
and so does everybody who wakes it up.
-/

namespace Octopos

/-- The fields of a slot that its lock protects. `serial` numbers the processes. -/
structure ProcEntry where
  state : ProcState := .unused
  channel : Option Channel := none
  killed : Bool := false
  xstate : ℤ := 0
  pid : ℕ := 0
  serial : ℕ := 0
  deriving DecidableEq, Repr

/-- A process that exited, and its status. -/
structure Exited where
  serial : ℕ
  pid : ℕ
  status : ℤ
  deriving DecidableEq, Repr

def ProcEntry.exited (x : ProcEntry) : Exited := ⟨x.serial, x.pid, x.xstate⟩

/-- `Proc::free` -/
def ProcEntry.free (x : ProcEntry) : ProcEntry :=
  { x with pid := 0, channel := none, killed := false, xstate := 0, state := .unused }

/-- Where a process stands. The scan of `wait` is at slot `i`; with `i = n` it looks at the killed
flag, and behind that the process goes to sleep. -/
inductive ProcFrame (n : ℕ)
  | user
  | forkScan (i : ℕ)
  | forkLink (child : Fin n)
  | forkStart (child : Fin n)
  | exitLock (status : ℤ)
  | exitReparent (status : ℤ) (i : ℕ)
  | exitWakeInit (status : ℤ) (i : ℕ)
  | exitZombie (status : ℤ)
  | dead
  | waitLock
  | waitScan (i : ℕ) (haveKids : Bool)
  | waitSleep
  deriving DecidableEq, Repr

/-- The process has the lock of `parents`. -/
def ProcFrame.holds {n : ℕ} : ProcFrame n → Bool
  | exitReparent _ _ | exitWakeInit _ _ | exitZombie _ | waitScan _ _ => true
  | _ => false

/-- The process table with `n` slots. -/
structure ProcSys (n : ℕ) where
  table : Fin n → ProcEntry
  parents : Fin n → Option (Fin n)
  lock : Option (Fin n)
  frame : Fin n → ProcFrame n
  pidCount : ℕ
  created : ℕ
  result : Fin n → Option (ℕ × ℤ)
  exits : List Exited
  reaps : List Exited

/-- What can happen. -/
inductive ProcAction
  | fork
  | exit (status : ℤ)
  | wait
  | run (memory : Bool)
  | sleep (ch : Channel)
  | awake
  | yield
  | dispatch
  | kill
  | wakeup (ch : Channel)
  deriving DecidableEq, Repr

/-- Channels of the other functions of the kernel. -/
def Channel.isProc : Channel → Bool
  | .proc _ => true
  | _ => false

namespace ProcSys

variable {n : ℕ}

def setEntry (s : ProcSys n) (i : Fin n) (x : ProcEntry) : ProcSys n :=
  { s with table := upd s.table i x }

def setFrame (s : ProcSys n) (p : Fin n) (f : ProcFrame n) : ProcSys n :=
  { s with frame := upd s.frame p f }

def setParent (s : ProcSys n) (i : Fin n) (p : Option (Fin n)) : ProcSys n :=
  { s with parents := upd s.parents i p }

/-- Take the lock of `parents`, if it is free. -/
def acquire (s : ProcSys n) (p : Fin n) (f : ProcFrame n) : Option (ProcSys n) :=
  match s.lock with
  | none => some { s.setFrame p f with lock := some p }
  | some _ => none

/-- What `wakeup` does to a slot. -/
def wakeEntry (ch : Channel) (x : ProcEntry) : ProcEntry :=
  if x.state = .sleeping ∧ x.channel = some ch then { x with state := .runnable } else x

/-- `wakeup` -/
def wakeupAll (s : ProcSys n) (ch : Channel) : ProcSys n :=
  { s with table := fun i => wakeEntry ch (s.table i) }

/-- What `kill` does to the slot it finds. -/
def killEntry (x : ProcEntry) : ProcEntry :=
  if x.state = .sleeping then { x with killed := true, state := .runnable }
  else { x with killed := true }

/-! ## `fork` -/

/-- Slot `c` in the search of `ProcTable::alloc`. Under the lock of the slot, `alloc` and `fork` set
it up, or free it again if there is no memory. -/
def forkScanStep (s : ProcSys n) (p c : Fin n) (memory : Bool) : ProcSys n :=
  if (s.table c).state = .unused then
    let x := { s.table c with pid := s.pidCount % USIZE, state := .used, serial := s.created }
    let s := { s with pidCount := s.pidCount + 1, created := s.created + 1 }
    if memory then ((s.setEntry c x).setFrame c .user).setFrame p (.forkLink c)
    else (s.setEntry c x.free).setFrame p .user
  else s.setFrame p (.forkScan (c.val + 1))

/-- Set the parent of the child, under the lock of `parents`. -/
def forkLinkStep (s : ProcSys n) (p c : Fin n) : Option (ProcSys n) :=
  match s.lock with
  | none => some ((s.setParent c (some p)).setFrame p (.forkStart c))
  | some _ => none

def forkStartStep (s : ProcSys n) (p c : Fin n) : ProcSys n :=
  (s.setEntry c { s.table c with state := .runnable }).setFrame p .user

/-! ## `exit` -/

/-- `INIT_PROC`: `user_init` takes the first slot. -/
def init [NeZero n] : Fin n := 0

/-- Entry `c` in `reparent`. -/
def reparentStep [NeZero n] (s : ProcSys n) (p c : Fin n) (status : ℤ) : ProcSys n :=
  if s.parents c = some p then
    (s.setParent c (some init)).setFrame p (.exitWakeInit status c.val)
  else s.setFrame p (.exitReparent status (c.val + 1))

/-- Behind `reparent`: wake up the parent. A process without a parent stops the kernel
("exit no parent"). -/
def wakeParentStep (s : ProcSys n) (p : Fin n) (status : ℤ) : Option (ProcSys n) :=
  match s.parents p with
  | some parent => some ((s.wakeupAll (.proc parent)).setFrame p (.exitZombie status))
  | none => none

/-- Become a zombie and unlock `parents`. -/
def zombieStep (s : ProcSys n) (p : Fin n) (status : ℤ) : ProcSys n :=
  let x := { s.table p with xstate := status, state := .zombie }
  { (s.setEntry p x).setFrame p .dead with lock := none, exits := x.exited :: s.exits }

/-! ## `wait` -/

/-- Return from `wait`. -/
def waitReturn (s : ProcSys n) (p : Fin n) (r : Option (ℕ × ℤ)) : ProcSys n :=
  { s.setFrame p .user with lock := none, result := upd s.result p r }

/-- Reap the zombie in slot `c`. -/
def reap (s : ProcSys n) (p c : Fin n) : ProcSys n :=
  { ((s.setParent c none).setEntry c (s.table c).free).waitReturn p
      (some ((s.table c).pid, (s.table c).xstate)) with
    reaps := (s.table c).exited :: s.reaps }

/-- Slot `c` in the scan of `wait`. -/
def waitScanStep (s : ProcSys n) (p c : Fin n) (haveKids : Bool) : ProcSys n :=
  if s.parents c = some p then
    if (s.table c).state = .zombie then s.reap p c
    else s.setFrame p (.waitScan (c.val + 1) true)
  else s.setFrame p (.waitScan (c.val + 1) haveKids)

def waitEndStep (s : ProcSys n) (p : Fin n) (haveKids : Bool) : ProcSys n :=
  if haveKids = false ∨ (s.table p).killed = true then s.waitReturn p none
  else s.setFrame p (.waitScan (n + 1) haveKids)

/-- `sleep` on the own channel, which unlocks `parents`. -/
def waitSleepStep (s : ProcSys n) (p : Fin n) : ProcSys n :=
  { (s.setEntry p { s.table p with channel := some (.proc p), state := .sleeping }).setFrame p
      .waitSleep with
    lock := none }

/-- Go on from the point where process `p` stands. -/
def run [NeZero n] (s : ProcSys n) (p : Fin n) (memory : Bool) : Option (ProcSys n) :=
  match s.frame p with
  | .forkScan i =>
    if h : i < n then some (s.forkScanStep p ⟨i, h⟩ memory) else some (s.setFrame p .user)
  | .forkLink c => s.forkLinkStep p c
  | .forkStart c => some (s.forkStartStep p c)
  | .exitLock status => s.acquire p (.exitReparent status 0)
  | .exitReparent status i =>
    if h : i < n then some (s.reparentStep p ⟨i, h⟩ status) else s.wakeParentStep p status
  | .exitWakeInit status i =>
    some ((s.wakeupAll (.proc (init : Fin n))).setFrame p (.exitReparent status (i + 1)))
  | .exitZombie status => some (s.zombieStep p status)
  | .waitLock => s.acquire p (.waitScan 0 false)
  | .waitScan i haveKids =>
    if h : i < n then some (s.waitScanStep p ⟨i, h⟩ haveKids)
    else if i = n then some (s.waitEndStep p haveKids)
    else some (s.waitSleepStep p)
  | .waitSleep => some ((s.setEntry p { s.table p with channel := none }).setFrame p .waitLock)
  | .user | .dead => none

/-- What a running process does. Init never exits ("init exiting"), and a process that holds the
lock of `parents` runs without interrupts. -/
def act [NeZero n] (s : ProcSys n) (p : Fin n) (a : ProcAction) : Option (ProcSys n) :=
  let x := s.table p
  match a with
  | .fork => if s.frame p = .user then some (s.setFrame p (.forkScan 0)) else none
  | .exit status =>
    if s.frame p = .user ∧ p ≠ init then some (s.setFrame p (.exitLock status)) else none
  | .wait => if s.frame p = .user then some (s.setFrame p .waitLock) else none
  | .run memory => s.run p memory
  | .sleep ch =>
    if s.frame p = .user ∧ ch.isProc = false then
      some (s.setEntry p { x with channel := some ch, state := .sleeping })
    else none
  | .awake => if s.frame p = .user then some (s.setEntry p { x with channel := none }) else none
  | .yield =>
    if s.lock ≠ some p then some (s.setEntry p { x with state := .runnable }) else none
  | .dispatch | .kill | .wakeup _ => none

def next [NeZero n] (s : ProcSys n) (l : Fin n × ProcAction) : Option (ProcSys n) :=
  let x := s.table l.1
  match l.2 with
  | .dispatch =>
    if x.state = .runnable then some (s.setEntry l.1 { x with state := .running }) else none
  | .kill => if x.state ≠ .unused then some (s.setEntry l.1 (killEntry x)) else none
  | .wakeup ch => if ch.isProc = false then some (s.wakeupAll ch) else none
  | a => if x.state = .running then s.act l.1 a else none

end ProcSys

def ProcStep {n : ℕ} [NeZero n] (s : ProcSys n) (l : Fin n × ProcAction) (s' : ProcSys n) : Prop :=
  s.next l = some s'

namespace ProcSys

variable {n : ℕ} [NeZero n]

/-- What a running process does. -/
inductive Runs (s : ProcSys n) (p : Fin n) : ProcSys n → Prop
  | fork (hf : s.frame p = .user) : s.Runs p (s.setFrame p (.forkScan 0))
  | forkScan (c : Fin n) (memory : Bool) (hf : s.frame p = .forkScan c.val) :
    s.Runs p (s.forkScanStep p c memory)
  | forkFull (i : ℕ) (hf : s.frame p = .forkScan i) : s.Runs p (s.setFrame p .user)
  | forkLink (c : Fin n) (hf : s.frame p = .forkLink c) (hlock : s.lock = none) :
    s.Runs p ((s.setParent c (some p)).setFrame p (.forkStart c))
  | forkStart (c : Fin n) (hf : s.frame p = .forkStart c) : s.Runs p (s.forkStartStep p c)
  | exit (status : ℤ) (hf : s.frame p = .user) (hp : p ≠ init) :
    s.Runs p (s.setFrame p (.exitLock status))
  | exitLock (status : ℤ) (hf : s.frame p = .exitLock status) (hlock : s.lock = none) :
    s.Runs p { s.setFrame p (.exitReparent status 0) with lock := some p }
  | reparent (status : ℤ) (c : Fin n) (hf : s.frame p = .exitReparent status c.val) :
    s.Runs p (s.reparentStep p c status)
  | wakeParent (status : ℤ) (i : ℕ) (parent : Fin n) (hf : s.frame p = .exitReparent status i)
    (hi : n ≤ i) (hparent : s.parents p = some parent) :
    s.Runs p ((s.wakeupAll (.proc parent)).setFrame p (.exitZombie status))
  | wakeInit (status : ℤ) (i : ℕ) (hf : s.frame p = .exitWakeInit status i) :
    s.Runs p ((s.wakeupAll (.proc (init : Fin n))).setFrame p (.exitReparent status (i + 1)))
  | zombie (status : ℤ) (hf : s.frame p = .exitZombie status) : s.Runs p (s.zombieStep p status)
  | wait (hf : s.frame p = .user) : s.Runs p (s.setFrame p .waitLock)
  | waitLock (hf : s.frame p = .waitLock) (hlock : s.lock = none) :
    s.Runs p { s.setFrame p (.waitScan 0 false) with lock := some p }
  | waitScan (c : Fin n) (haveKids : Bool) (hf : s.frame p = .waitScan c.val haveKids) :
    s.Runs p (s.waitScanStep p c haveKids)
  | waitEnd (i : ℕ) (haveKids : Bool) (hf : s.frame p = .waitScan i haveKids) (hi : n ≤ i) :
    s.Runs p (s.waitEndStep p haveKids)
  | waitDoze (i : ℕ) (haveKids : Bool) (hf : s.frame p = .waitScan i haveKids) (hi : n ≤ i) :
    s.Runs p (s.waitSleepStep p)
  | waitSleep (hf : s.frame p = .waitSleep) :
    s.Runs p ((s.setEntry p { s.table p with channel := none }).setFrame p .waitLock)
  | sleep (ch : Channel) (hf : s.frame p = .user) :
    s.Runs p (s.setEntry p { s.table p with channel := some ch, state := .sleeping })
  | awake (hf : s.frame p = .user) : s.Runs p (s.setEntry p { s.table p with channel := none })
  | yield (hlock : s.lock ≠ some p) : s.Runs p (s.setEntry p { s.table p with state := .runnable })

/-- What can happen to the table of processes. -/
inductive Moves (s : ProcSys n) (p : Fin n) : ProcSys n → Prop
  | run {s' : ProcSys n} (hp : (s.table p).state = .running) (hs : s.Runs p s') : s.Moves p s'
  | dispatch (hp : (s.table p).state = .runnable) :
    s.Moves p (s.setEntry p { s.table p with state := .running })
  | kill : s.Moves p (s.setEntry p (killEntry (s.table p)))
  | wakeup (ch : Channel) : s.Moves p (s.wakeupAll ch)

variable {s s' : ProcSys n} {p : Fin n}

omit [NeZero n] in
theorem acquire_eq_some {f : ProcFrame n} (hs : s.acquire p f = some s') :
    s.lock = none ∧ { s.setFrame p f with lock := some p } = s' := by
  unfold acquire at hs
  split at hs
  · exact ⟨by assumption, Option.some.inj hs⟩
  · cases hs

theorem runs_of_run {memory : Bool} (hs : s.run p memory = some s') : s.Runs p s' := by
  unfold run at hs
  cases hf : s.frame p with
  | user | dead =>
    rw [hf] at hs
    cases hs
  | forkScan i =>
    rw [hf] at hs
    dsimp only at hs
    split_ifs at hs with hi <;> cases hs
    · exact .forkScan ⟨i, hi⟩ memory hf
    · exact .forkFull i hf
  | forkLink c =>
    rw [hf] at hs
    dsimp only [forkLinkStep] at hs
    split at hs <;> cases hs
    exact .forkLink c hf (by assumption)
  | exitLock status =>
    rw [hf] at hs
    obtain ⟨hlock, rfl⟩ := acquire_eq_some hs
    exact .exitLock status hf hlock
  | exitReparent status i =>
    rw [hf] at hs
    dsimp only [wakeParentStep] at hs
    split_ifs at hs with hi
    · cases hs
      exact .reparent status ⟨i, hi⟩ hf
    · split at hs <;> cases hs
      exact .wakeParent status i _ hf (not_lt.1 hi) (by assumption)
  | waitLock =>
    rw [hf] at hs
    obtain ⟨hlock, rfl⟩ := acquire_eq_some hs
    exact .waitLock hf hlock
  | waitScan i haveKids =>
    rw [hf] at hs
    dsimp only at hs
    split_ifs at hs with hi hend <;> cases hs
    · exact .waitScan ⟨i, hi⟩ haveKids hf
    · exact .waitEnd i haveKids hf (not_lt.1 hi)
    · exact .waitDoze i haveKids hf (not_lt.1 hi)
  | forkStart | exitWakeInit | exitZombie | waitSleep =>
    rw [hf] at hs
    cases hs
    constructor
    exact hf

theorem runs_of_act {a : ProcAction} (hs : s.act p a = some s') : s.Runs p s' := by
  unfold act at hs
  cases a with
  | run memory => exact runs_of_run hs
  | dispatch | kill | wakeup => cases hs
  | fork =>
    dsimp only at hs
    split_ifs at hs with hf
    cases hs
    exact .fork hf
  | exit status =>
    dsimp only at hs
    split_ifs at hs with hf
    cases hs
    exact .exit status hf.1 hf.2
  | wait =>
    dsimp only at hs
    split_ifs at hs with hf
    cases hs
    exact .wait hf
  | sleep ch =>
    dsimp only at hs
    split_ifs at hs with hf
    cases hs
    exact .sleep ch hf.1
  | awake =>
    dsimp only at hs
    split_ifs at hs with hf
    cases hs
    exact .awake hf
  | yield =>
    dsimp only at hs
    split_ifs at hs with hlock
    cases hs
    exact .yield hlock

end ProcSys

theorem ProcStep.moves {n : ℕ} [NeZero n] {s s' : ProcSys n} {l : Fin n × ProcAction}
    (hs : ProcStep s l s') : s.Moves l.1 s' := by
  obtain ⟨p, a⟩ := l
  unfold ProcStep ProcSys.next at hs
  cases a with
  | dispatch =>
    dsimp only at hs
    split_ifs at hs with hr
    cases hs
    exact .dispatch hr
  | kill =>
    dsimp only at hs
    split_ifs at hs
    cases hs
    exact .kill
  | wakeup ch =>
    dsimp only at hs
    split_ifs at hs
    cases hs
    exact .wakeup ch
  | _ =>
    dsimp only at hs
    split_ifs at hs with hr
    exact .run hr (ProcSys.runs_of_act hs)

/-- After `user_init`: the only process is init. -/
def ProcInit {n : ℕ} [NeZero n] (s : ProcSys n) : Prop :=
  (s.table ProcSys.init).state = .runnable ∧ (∀ i ≠ ProcSys.init, (s.table i).state = .unused) ∧
  (∀ i, (s.table i).serial < s.created) ∧ (∀ i, s.parents i = none) ∧ s.lock = none ∧
  (∀ p, s.frame p = .user) ∧ s.exits = [] ∧ s.reaps = []

def ProcSys.boot {n : ℕ} [NeZero n] : ProcSys n where
  table i := if i = ProcSys.init then { state := .runnable, pid := 1 } else {}
  parents _ := none
  lock := none
  frame _ := .user
  pidCount := 2
  created := 1
  result _ := none
  exits := []
  reaps := []

theorem procInit_boot {n : ℕ} [NeZero n] : ProcInit (ProcSys.boot : ProcSys n) := by
  refine ⟨?_, fun i hi => ?_, fun i => ?_, fun _ => rfl, rfl, fun _ => rfl, rfl, rfl⟩
  · simp [ProcSys.boot]
  · simp [ProcSys.boot, hi]
  · unfold ProcSys.boot
    dsimp only
    split_ifs <;> decide

end Octopos
