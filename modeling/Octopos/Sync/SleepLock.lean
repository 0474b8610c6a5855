import Octopos.Lib.Bytes
import Octopos.Lib.Run
import Octopos.Sched.Table

/-!
# Sleep locks

`sleeplock.rs` over `proc::sleep`, `proc::wakeup` and `proc::kill`. A sleep lock is known by its
address. A step runs one process from a point of these functions (`SleepFrame`) to the next, with at
most one access to what the spinlocks protect.

Processes also sleep on other channels, each with a condition lock of its own. `kill`, and `wakeup`
on such a channel, are steps that visit one process. The scheduling fields are left out.
-/

namespace Octopos

/-- Where a process stands. `c` is the channel whose condition lock is in question: for a sleep
lock, its own channel and the spinlock inside of it. -/
inductive SleepFrame (n : ℕ)
  | user
  | acquire (c : Channel)
  | test (c : Channel)
  | record (l : ℕ)
  | taken (l : ℕ)
  | sleep (c : Channel)
  | sleepBoth (c : Channel)
  | sleepAlone (c : Channel)
  | sched (c : Channel)
  | asleep (c : Channel)
  | resumed (c : Channel)
  | drop (l : ℕ)
  | dropping (l : ℕ)
  | wakeup (l : ℕ) (todo : List (Fin n))
  deriving DecidableEq, Repr

namespace SleepFrame

variable {n : ℕ}

/-- The condition lock that a process at this point has. -/
def spins : SleepFrame n → Option Channel
  | test c | sleep c | sleepBoth c => some c
  | record l | taken l | dropping l | wakeup l _ => some (.lock l)
  | _ => none

/-- The lock of a process at this point is taken, by itself or by the scheduler for it. -/
def locksSelf : SleepFrame n → Bool
  | sleepBoth _ | sleepAlone _ | sched _ | resumed _ => true
  | _ => false

end SleepFrame

/-- The locks and the processes. -/
structure LockSys (n : ℕ) where
  spin : Channel → Option (Fin n)
  locked : ℕ → Bool
  pid : ℕ → Option (Fin n)
  procLock : Fin n → Bool
  state : Fin n → ProcState
  channel : Fin n → Option Channel
  killed : Fin n → Bool
  frame : Fin n → SleepFrame n
  guards : Fin n → ℕ → Bool

/-- What can happen. -/
inductive LockAction (n : ℕ)
  | lock (p : Fin n) (l : ℕ)
  | drop (p : Fin n) (l : ℕ)
  | await (p : Fin n) (c : Channel)
  /-- Go on from a point of these functions. On a channel that is not that of a sleep lock, `again`
  says whether the condition is still missing. -/
  | run (p : Fin n) (again : Bool)
  | dispatch (p : Fin n)
  | yield (p : Fin n)
  | kill (q : Fin n)
  | wake (q : Fin n) (c : Channel)
  deriving DecidableEq, Repr

/-- The channel is that of a sleep lock. -/
def Channel.isLock : Channel → Bool
  | .lock _ => true
  | _ => false

namespace LockSys

variable {n : ℕ}

def setFrame (s : LockSys n) (p : Fin n) (f : SleepFrame n) : LockSys n :=
  { s with frame := upd s.frame p f }

/-- Take a condition lock, if it is free. -/
def takeSpin (s : LockSys n) (p : Fin n) (c : Channel) (f : SleepFrame n) : Option (LockSys n) :=
  if s.spin c = none then some { s.setFrame p f with spin := upd s.spin c (some p) } else none

def giveSpin (s : LockSys n) (p : Fin n) (c : Channel) (f : SleepFrame n) : LockSys n :=
  { s.setFrame p f with spin := upd s.spin c none }

/-- Make a process runnable that sleeps on channel `c`. -/
def wakeOne (s : LockSys n) (q : Fin n) (c : Channel) : LockSys n :=
  if s.state q = .sleeping ∧ s.channel q = some c then
    { s with state := upd s.state q .runnable }
  else s

/-- `kill` at a process. -/
def killOne (s : LockSys n) (q : Fin n) : LockSys n :=
  { s with
    killed := upd s.killed q true
    state := if s.state q = .sleeping then upd s.state q .runnable else s.state }

/-- The head of a loop that waits: `while inner.locked` in `SleepLock::lock`. -/
def testStep (s : LockSys n) (p : Fin n) (c : Channel) (again : Bool) : LockSys n :=
  match c with
  | .lock l =>
    if s.locked l then s.setFrame p (.sleep (.lock l))
    else
      { s.setFrame p (.record l) with
        locked := upd s.locked l true
        guards := upd s.guards p (upd (s.guards p) l true) }
  | c => if again then s.setFrame p (.sleep c) else s.giveSpin p c .user

/-- An iteration of the loop of `wakeup`. -/
def wakeupStep (s : LockSys n) (p : Fin n) (l : ℕ) : List (Fin n) → Option (LockSys n)
  | [] => some (s.giveSpin p (.lock l) .user)
  | q :: todo =>
    if q = p then some (s.setFrame p (.wakeup l todo))
    else if s.procLock q then none
    else some ((s.wakeOne q (.lock l)).setFrame p (.wakeup l todo))

/-- Go on from the point where process `p` stands. -/
def run (s : LockSys n) (p : Fin n) (again : Bool) : Option (LockSys n) :=
  match s.frame p with
  | .acquire c => s.takeSpin p c (.test c)
  | .test c => some (s.testStep p c again)
  | .record l =>
    -- the pid is read with the lock of the process
    if s.procLock p then none
    else some { s.setFrame p (.taken l) with pid := upd s.pid l (some p) }
  | .taken l => some (s.giveSpin p (.lock l) .user)
  | .sleep c =>
    if s.procLock p then none
    else some { s.setFrame p (.sleepBoth c) with procLock := upd s.procLock p true }
  | .sleepBoth c => some (s.giveSpin p c (.sleepAlone c))
  | .sleepAlone c =>
    some
      { s.setFrame p (.sched c) with
        channel := upd s.channel p (some c)
        state := upd s.state p .sleeping }
  | .sched c => some { s.setFrame p (.asleep c) with procLock := upd s.procLock p false }
  | .resumed c =>
    some
      { s.setFrame p (.acquire c) with
        channel := upd s.channel p none
        procLock := upd s.procLock p false }
  | .drop l => s.takeSpin p (.lock l) (.dropping l)
  | .dropping l =>
    some
      { s.setFrame p (.wakeup l (List.finRange n)) with
        locked := upd s.locked l false
        pid := upd s.pid l none
        guards := upd s.guards p (upd (s.guards p) l false) }
  | .wakeup l todo => s.wakeupStep p l todo
  | .user | .asleep _ => none

/-- The scheduler switches to process `p`. -/
def dispatch (s : LockSys n) (p : Fin n) : Option (LockSys n) :=
  if s.state p = .runnable ∧ s.procLock p = false then
    match s.frame p with
    | .asleep c =>
      some
        { s.setFrame p (.resumed c) with
          state := upd s.state p .running
          procLock := upd s.procLock p true }
    | .user => some { s with state := upd s.state p .running }
    | _ => none
  else none

def call (s : LockSys n) (p : Fin n) (f : SleepFrame n) : Option (LockSys n) :=
  if s.frame p = .user ∧ s.state p = .running then some (s.setFrame p f) else none

def next (s : LockSys n) (a : LockAction n) : Option (LockSys n) :=
  match a with
  | .lock p l => s.call p (.acquire (.lock l))
  | .drop p l => if s.guards p l then s.call p (.drop l) else none
  | .await p c => if c.isLock then none else s.call p (.acquire c)
  | .run p again => s.run p again
  | .dispatch p => s.dispatch p
  | .yield p =>
    if s.frame p = .user ∧ s.state p = .running ∧ s.procLock p = false then
      some { s with state := upd s.state p .runnable }
    else none
  | .kill q => if s.procLock q then none else some (s.killOne q)
  | .wake q c => if s.procLock q ∨ c.isLock then none else some (s.wakeOne q c)

/-- All locks are free and all processes outside of these functions. -/
def new : LockSys n where
  spin _ := none
  locked _ := false
  pid _ := none
  procLock _ := false
  state _ := .runnable
  channel _ := none
  killed _ := false
  frame _ := .user
  guards _ _ := false

end LockSys

def LockStep {n : ℕ} (s : LockSys n) (a : LockAction n) (s' : LockSys n) : Prop :=
  s.next a = some s'

/-- All locks are free and all processes outside of these functions. -/
def LockInit {n : ℕ} (s : LockSys n) : Prop := s = LockSys.new

end Octopos
