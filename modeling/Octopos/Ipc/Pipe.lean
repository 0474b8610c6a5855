import Octopos.Lib.Ring
import Octopos.Lib.Run

/-!
# Pipes

`pipe.rs`: a ring of `PIPESIZE` bytes that processes write to and read from. A process is at some
point of a pipe function (`PipeFrame`), and a step runs one process from its point to the next one:
an iteration of a loop, a `wakeup`, a `sleep`. `wakeup` is one step, since a process that goes to
sleep on a channel of the pipe holds the lock of the pipe until it sleeps.
-/

namespace Octopos

def PIPESIZE : ℕ := 512

instance : NeZero PIPESIZE := ⟨by decide⟩

/-- The fields of a pipe; the counters are machine words that wrap. -/
structure PipeInner where
  data : Fin PIPESIZE → UInt8
  numRead : UInt64
  numWrite : UInt64
  readOpen : Bool
  writeOpen : Bool

/-- A new pipe (`Pipe::alloc`). -/
def PipeInner.new : PipeInner := ⟨fun _ => 0, 0, 0, true, true⟩

/-- `num_write == num_read + PIPESIZE` -/
def PipeInner.isFull (x : PipeInner) : Bool := x.numWrite == x.numRead + UInt64.ofNat PIPESIZE

/-- `num_read == num_write` -/
def PipeInner.isEmpty (x : PipeInner) : Bool := x.numRead == x.numWrite

/-- The slot of a counter, `num % PIPESIZE`. -/
def pipeSlot (num : UInt64) : Fin PIPESIZE := Fin.ofNat PIPESIZE num.toNat

def PipeInner.push (x : PipeInner) (ch : UInt8) : PipeInner :=
  { x with data := upd x.data (pipeSlot x.numWrite) ch, numWrite := x.numWrite + 1 }

def PipeInner.front (x : PipeInner) : UInt8 := x.data (pipeSlot x.numRead)

def PipeInner.pop (x : PipeInner) : PipeInner := { x with numRead := x.numRead + 1 }

/-- Results of the pipe functions. -/
inductive PipeError
  | interrupted
  | brokenPipe
  | badAddress
  deriving DecidableEq, Repr

/-- The channels of a pipe. -/
inductive PipeChannel
  | pipeRead
  | pipeWrite
  deriving DecidableEq, Repr

/-- Where a process stands. In a write of `n` bytes, `i` of them are in the pipe, `start` of them
since before the process last got the lock. -/
inductive PipeFrame
  | user
  | writeLock (n i : ℕ)
  | write (n start i : ℕ)
  | writeFull (n i : ℕ)
  | writeSleep (n i : ℕ)
  | writeEnd (i : ℕ)
  | readLock (n : ℕ)
  | readWait (n : ℕ)
  | readSleep (n : ℕ)
  | read (n i : ℕ)
  | readEnd (n i : ℕ)
  | closeLock (writeable : Bool)
  | close (writeable : Bool)
  | closed (writeable : Bool)
  deriving DecidableEq, Repr

namespace PipeFrame

/-- The process has the lock of the pipe. -/
def holds : PipeFrame → Bool
  | write _ _ _ | writeFull _ _ | writeEnd _ | readWait _ | read _ _ | readEnd _ _ | close _
  | closed _ => true
  | _ => false

/-- The number of bytes that the process asked `Pipe::read` for. -/
def reads : PipeFrame → Option ℕ
  | readLock n | readWait n | readSleep n | read n _ | readEnd n _ => some n
  | _ => none

/-- The channel that the process is asleep on. -/
def asleep : PipeFrame → Option PipeChannel
  | writeSleep _ _ => some .pipeWrite
  | readSleep _ => some .pipeRead
  | _ => none

/-- A process that is made runnable leaves `sleep` and waits for the lock. -/
def wake : PipeFrame → PipeFrame
  | writeSleep n i => writeLock n i
  | readSleep n => readLock n
  | f => f

end PipeFrame

/-- A pipe and the processes. `put` and `taken` record the bytes that went in and came out. -/
structure PipeState (P : Type) where
  pipe : PipeInner
  owner : Option P
  frame : P → PipeFrame
  killed : P → Bool
  result : P → Except PipeError ℕ
  put : List UInt8
  taken : List UInt8

/-- What can happen. -/
inductive PipeAction
  | callWrite (n : ℕ)
  | callRead (n : ℕ)
  | callClose (writeable : Bool)
  /-- Go on from a point of a pipe function; `copy` is the outcome of a copy from or to user memory
  at this point: the byte that is read from there, or none if the copy fails. -/
  | run (copy : Option UInt8)
  | kill
  | reuse
  deriving DecidableEq, Repr

section Pipe

variable {P : Type} [DecidableEq P]

namespace PipeState

def setFrame (s : PipeState P) (p : P) (f : PipeFrame) : PipeState P :=
  { s with frame := upd s.frame p f }

def acquire (s : PipeState P) (p : P) (f : PipeFrame) : Option (PipeState P) :=
  match s.owner with
  | none => some { s.setFrame p f with owner := some p }
  | some _ => none

def unlock (s : PipeState P) (p : P) (f : PipeFrame) : PipeState P :=
  { s.setFrame p f with owner := none }

def leave (s : PipeState P) (p : P) (r : Except PipeError ℕ) : PipeState P :=
  { s.unlock p .user with result := upd s.result p r }

/-- `proc::wakeup` -/
def wakeup (s : PipeState P) (c : PipeChannel) : PipeState P :=
  { s with frame := fun q => if (s.frame q).asleep = some c then (s.frame q).wake else s.frame q }

/-- An iteration of the loop of `Pipe::write`. -/
def writeStep (s : PipeState P) (p : P) (n start i : ℕ) (copy : Option UInt8) : PipeState P :=
  if n ≤ i then s.setFrame p (.writeEnd i)
  else if s.killed p then s.leave p (.error .interrupted)
  else if !s.pipe.readOpen then s.leave p (.error .brokenPipe)
  else if s.pipe.isFull then (s.wakeup .pipeRead).setFrame p (.writeFull n i)
  else
    match copy with
    | none => s.setFrame p (.writeEnd i)
    | some ch =>
      { s.setFrame p (.write n start (i + 1)) with
        pipe := s.pipe.push ch
        put := s.put ++ [ch] }

/-- An iteration of the first loop of `Pipe::read`. -/
def readWaitStep (s : PipeState P) (p : P) (n : ℕ) : PipeState P :=
  if s.pipe.isEmpty && s.pipe.writeOpen then
    if s.killed p then s.leave p (.error .interrupted) else s.unlock p (.readSleep n)
  else s.setFrame p (.read n 0)

/-- An iteration of the second loop of `Pipe::read`. -/
def readStep (s : PipeState P) (p : P) (n i : ℕ) (copy : Option UInt8) : PipeState P :=
  if n ≤ i then s.setFrame p (.readEnd n i)
  else if s.pipe.isEmpty then s.setFrame p (.readEnd n i)
  else
    match copy with
    | none => s.leave p (.error .badAddress)
    | some _ =>
      { s.setFrame p (.read n (i + 1)) with
        pipe := s.pipe.pop
        taken := s.taken ++ [s.pipe.front] }

def closeStep (s : PipeState P) (p : P) (writeable : Bool) : PipeState P :=
  { s.setFrame p (.closed writeable) with
    pipe :=
      if writeable then { s.pipe with writeOpen := false } else { s.pipe with readOpen := false } }

/-- Go on from the point where process `p` stands. -/
def run (s : PipeState P) (p : P) (copy : Option UInt8) : Option (PipeState P) :=
  match s.frame p with
  | .writeLock n i => s.acquire p (.write n i i)
  | .write n start i => some (s.writeStep p n start i copy)
  | .writeFull n i => some (s.unlock p (.writeSleep n i))
  | .writeEnd i => some ((s.wakeup .pipeRead).leave p (.ok i))
  | .readLock n => s.acquire p (.readWait n)
  | .readWait n => some (s.readWaitStep p n)
  | .read n i => some (s.readStep p n i copy)
  | .readEnd _ i => some ((s.wakeup .pipeWrite).leave p (.ok i))
  | .closeLock writeable => s.acquire p (.close writeable)
  | .close writeable => some (s.closeStep p writeable)
  | .closed writeable =>
    some ((s.wakeup (if writeable then .pipeRead else .pipeWrite)).unlock p .user)
  | .user | .writeSleep _ _ | .readSleep _ => none

def call (s : PipeState P) (p : P) (f : PipeFrame) : Option (PipeState P) :=
  if s.frame p = .user then some (s.setFrame p f) else none

def next (s : PipeState P) (l : P × PipeAction) : Option (PipeState P) :=
  match l.2 with
  | .callWrite n => s.call l.1 (.writeLock n 0)
  | .callRead n => s.call l.1 (.readLock n)
  | .callClose writeable => s.call l.1 (.closeLock writeable)
  | .run copy => s.run l.1 copy
  | .kill => some { s.setFrame l.1 (s.frame l.1).wake with killed := upd s.killed l.1 true }
  | .reuse => if s.frame l.1 = .user then some { s with killed := upd s.killed l.1 false } else none

end PipeState

def PipeStep (s : PipeState P) (l : P × PipeAction) (s' : PipeState P) : Prop := s.next l = some s'

/-- A new pipe, with no process in a pipe function. -/
def PipeInit (s : PipeState P) : Prop :=
  s.pipe = PipeInner.new ∧ s.owner = none ∧ (∀ p, s.frame p = .user) ∧ s.put = [] ∧ s.taken = []

/-- A new pipe, with processes that are outside of it. -/
def PipeState.new : PipeState P where
  pipe := PipeInner.new
  owner := none
  frame _ := .user
  killed _ := false
  result _ := .ok 0
  put := []
  taken := []

omit [DecidableEq P] in
theorem pipeInit_new : PipeInit (PipeState.new : PipeState P) :=
  ⟨rfl, rfl, fun _ => rfl, rfl, rfl⟩

end Pipe

end Octopos
