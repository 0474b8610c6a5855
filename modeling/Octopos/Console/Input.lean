import Octopos.Lib.Ring
import Octopos.Lib.Run

/-!
# Console input

`console.rs`: the interrupt handler appends the typed bytes to a ring and `Console::read` takes them
out. The ring has three indices of type `usize` that count bytes since the console was made. An
index computation that leaves this type stops the kernel (`IndexPanic`).

The interrupt handler and `ioctl` run with the lock of the console, so each is one step of the
system. A step of `Console::read` is one iteration of its loop.
-/

namespace Octopos

def INPUT_BUF_SIZE : ℕ := 128

instance : NeZero INPUT_BUF_SIZE := ⟨by decide⟩

/-- Translate character to control-key equivalent: `c.wrapping_sub(b'@')`. -/
def ctrl (c : Char) : UInt8 := UInt8.ofNat c.toNat - UInt8.ofNat '@'.toNat

/-- `b'\n'` -/
def NEWLINE : UInt8 := UInt8.ofNat '\n'.toNat

/-- `b'\r'` -/
def RETURN : UInt8 := UInt8.ofNat '\r'.toNat

/-- `b'\x7f'` -/
def DELETE : UInt8 := 0x7f

/-- An index computation leaves the range of `usize`. -/
inductive IndexPanic
  | add
  | sub
  deriving DecidableEq, Repr

/-- `a + 1` on `usize` -/
def addOne (a : ℕ) : Except IndexPanic ℕ := if a + 1 < 2 ^ 64 then .ok (a + 1) else .error .add

/-- `a - b` on `usize` -/
def subUsize (a b : ℕ) : Except IndexPanic ℕ := if b ≤ a then .ok (a - b) else .error .sub

/-- The fields of the console. -/
structure Console where
  buf : Fin INPUT_BUF_SIZE → UInt8
  r : ℕ
  w : ℕ
  e : ℕ
  raw : Bool
  foregroundPid : Option ℕ

/-- What the interrupt handler does outside of the console. -/
inductive ConsoleEffect
  | putc (c : UInt8)
  | wakeup
  | dump
  | kill (pid : ℕ)
  deriving DecidableEq, Repr

/-- Handles backspace by erasing the character before the cursor. -/
def putBackspace : List ConsoleEffect := [.putc 8, .putc (UInt8.ofNat ' '.toNat), .putc 8]

namespace Console

def new : Console := ⟨fun _ => 0, 0, 0, 0, false, none⟩

def byte (x : Console) (i : ℕ) : UInt8 := x.buf (Fin.ofNat INPUT_BUF_SIZE i)

/-- `c != 0 && e - r < INPUT_BUF_SIZE` -/
def hasRoom (x : Console) (c : UInt8) : Except IndexPanic Bool :=
  if c ≠ 0 then do
    let n ← subUsize x.e x.r
    pure (decide (n < INPUT_BUF_SIZE))
  else pure false

def store (x : Console) (c : UInt8) : Except IndexPanic Console := do
  let e ← addOne x.e
  pure { x with buf := upd x.buf (Fin.ofNat INPUT_BUF_SIZE x.e) c, e := e }

/-- `w = e` -/
def commit (x : Console) : Console := { x with w := x.e }

/-- The loop that kills the line, from the edit index on. -/
def killLine (x : Console) : ℕ → Except IndexPanic (ℕ × List ConsoleEffect)
  | 0 => if x.w = 0 then .ok (0, []) else .error .sub
  | e + 1 =>
    if e + 1 = x.w ∨ x.byte e = NEWLINE then .ok (e + 1, [])
    else do
      let (e', out) ← x.killLine e
      pure (e', putBackspace ++ out)

/-- `c == b'\n' || c == ctrl(b'D') || e - r == INPUT_BUF_SIZE` -/
def endsInput (x : Console) (c : UInt8) : Except IndexPanic Bool :=
  if c = NEWLINE ∨ c = ctrl 'D' then pure true
  else do
    let n ← subUsize x.e x.r
    pure (decide (n = INPUT_BUF_SIZE))

def putChar (x : Console) (c : UInt8) : Except IndexPanic (Console × List ConsoleEffect) := do
  let room ← x.hasRoom c
  if room then
    let c := if c = RETURN then NEWLINE else c
    let x ← x.store c
    let full ← x.endsInput c
    if full then pure (x.commit, [.putc c, .wakeup]) else pure (x, [.putc c])
  else pure (x, [])

/-- Cooked input: the special characters and the others. -/
def cookedInput (x : Console) (c : UInt8) : Except IndexPanic (Console × List ConsoleEffect) :=
  if c = ctrl 'H' ∨ c = DELETE then
    if x.e ≠ x.w then do
      let e ← subUsize x.e 1
      pure ({ x with e := e }, putBackspace)
    else pure (x, [])
  else if c = ctrl 'P' then pure (x, [.dump])
  else if c = ctrl 'U' then do
    let (e, out) ← x.killLine x.e
    pure ({ x with e := e }, out)
  else if c = ctrl 'C' then
    match x.foregroundPid with
    | some pid => pure (x, [.kill pid])
    | none => pure (x, [])
  else x.putChar c

/-- Console input interrupt handler. In raw mode a byte is committed as it is, as long as there is
room for it. -/
def handleInterrupt (x : Console) (c : UInt8) :
    Except IndexPanic (Console × List ConsoleEffect) := do
  let direct ← (if x.raw then x.hasRoom c else pure false)
  if direct then
    let x ← x.store c
    pure (x.commit, [.wakeup])
  else x.cookedInput c

end Console

/-- Errors of the console functions. -/
inductive ConsoleError
  | interrupted
  | invalidArgument
  deriving DecidableEq, Repr

/-- `Ioctl::CONSOLE_SET_RAW` -/
def CONSOLE_SET_RAW : ℕ := 1

/-- `Ioctl::CONSOLE_SET_FG_PID` -/
def CONSOLE_SET_FG_PID : ℕ := 2

/-- `Console::ioctl` -/
def Console.ioctl (x : Console) (cmd arg : ℕ) : Except ConsoleError ℕ × Console :=
  if cmd = CONSOLE_SET_RAW then
    if arg = 1 then (.ok 0, { x with raw := true, e := x.w }) else (.ok 0, { x with raw := false })
  else if cmd = CONSOLE_SET_FG_PID then
    (.ok 0, { x with foregroundPid := if arg = 0 then none else some arg })
  else (.error .invalidArgument, x)

/-- Where a process stands in `Console::read`; `len` of the `target` bytes are still to come. -/
inductive ConsoleFrame
  | user
  | readLock (target len : ℕ)
  | read (target len : ℕ)
  | readSleep (target len : ℕ)
  deriving DecidableEq, Repr

/-- A process that is made runnable leaves `sleep` and waits for the lock. -/
def ConsoleFrame.wake : ConsoleFrame → ConsoleFrame
  | readSleep target len => readLock target len
  | f => f

/-- The console and the processes. -/
structure ConsoleState where
  console : Console
  owner : Option ℕ
  frame : ℕ → ConsoleFrame
  killed : ℕ → Bool
  result : ℕ → Except ConsoleError ℕ
  delivered : ℕ → List UInt8
  panicked : Option IndexPanic
  committed : List UInt8
  consumed : List UInt8

/-- What can happen. -/
inductive ConsoleAction
  | interrupt (c : UInt8)
  | ioctl (pid cmd arg : ℕ)
  | callRead (pid len : ℕ)
  | run (pid : ℕ) (copy : Bool)
  | kill (pid : ℕ)
  | reuse (pid : ℕ)
  deriving DecidableEq, Repr

namespace ConsoleState

def setFrame (s : ConsoleState) (p : ℕ) (f : ConsoleFrame) : ConsoleState :=
  { s with frame := upd s.frame p f }

/-- Change the console and record which bytes the indices passed. -/
def setConsole (s : ConsoleState) (x : Console) : ConsoleState :=
  { s with
    console := x
    committed := s.committed ++ window x.buf s.console.w x.w
    consumed := s.consumed ++ window s.console.buf s.console.r x.r }

/-- Copy a byte to the buffer of process `p`. -/
def deliver (s : ConsoleState) (p : ℕ) (c : UInt8) : ConsoleState :=
  { s with delivered := upd s.delivered p (s.delivered p ++ [c]) }

def unlock (s : ConsoleState) (p : ℕ) (f : ConsoleFrame) : ConsoleState :=
  { s.setFrame p f with owner := none }

def leave (s : ConsoleState) (p : ℕ) (r : Except ConsoleError ℕ) : ConsoleState :=
  { s.unlock p .user with result := upd s.result p r }

/-- `Ok(target - len)` -/
def finish (s : ConsoleState) (p target len : ℕ) : Except IndexPanic ConsoleState := do
  let n ← subUsize target len
  pure (s.leave p (.ok n))

/-- `proc::kill` -/
def kill (s : ConsoleState) (pid : ℕ) : ConsoleState :=
  { s.setFrame pid (s.frame pid).wake with killed := upd s.killed pid true }

/-- `proc::wakeup` on the channel of the readers. -/
def wakeup (s : ConsoleState) : ConsoleState := { s with frame := fun q => (s.frame q).wake }

/-- What the interrupt handler does outside of the console. -/
def effect (s : ConsoleState) : ConsoleEffect → ConsoleState
  | .putc _ | .dump => s
  | .wakeup => s.wakeup
  | .kill pid => s.kill pid

/-- An iteration of the loop of `Console::read`. -/
def readStep (s : ConsoleState) (p target len : ℕ) (copy : Bool) :
    Except IndexPanic ConsoleState :=
  if len = 0 then s.finish p target len
  else if s.console.r = s.console.w then
    if s.killed p then pure (s.leave p (.error .interrupted))
    else pure (s.unlock p (.readSleep target len))
  else do
    let c := s.console.byte s.console.r
    let r ← addOne s.console.r
    if !s.console.raw ∧ c = ctrl 'D' then
      -- save ^D for next time, to make sure caller gets a 0-byte result
      let r ← (if len < target then subUsize r 1 else pure r)
      (s.setConsole { s.console with r := r }).finish p target len
    else if !copy then (s.setConsole { s.console with r := r }).finish p target len
    else
      let s' := (s.setConsole { s.console with r := r }).deliver p c
      let len ← subUsize len 1
      if c = NEWLINE ∨ s.console.raw then s'.finish p target len
      else pure (s'.setFrame p (.read target len))

def settle (s : ConsoleState) : Except IndexPanic ConsoleState → ConsoleState
  | .ok s' => s'
  | .error e => { s with panicked := some e }

/-- The interrupt handler, when the lock is free. -/
def interrupt (s : ConsoleState) (c : UInt8) : Except IndexPanic ConsoleState := do
  let (x, out) ← s.console.handleInterrupt c
  pure (out.foldl effect (s.setConsole x))

/-- Go on from the point where process `p` stands. -/
def run (s : ConsoleState) (p : ℕ) (copy : Bool) : Option ConsoleState :=
  match s.frame p with
  | .readLock target len =>
    match s.owner with
    | none => some { s.setFrame p (.read target len) with owner := some p }
    | some _ => none
  | .read target len => some (s.settle (s.readStep p target len copy))
  | .user | .readSleep _ _ => none

def next (s : ConsoleState) (a : ConsoleAction) : Option ConsoleState :=
  if s.panicked.isSome then none
  else
    match a with
    | .interrupt c => if s.owner = none then some (s.settle (s.interrupt c)) else none
    | .ioctl p cmd arg =>
      if s.owner = none ∧ s.frame p = .user then
        let (result, x) := s.console.ioctl cmd arg
        some { s.setConsole x with result := upd s.result p result }
      else none
    | .callRead p len =>
      if s.frame p = .user then
        some { s.setFrame p (.readLock len len) with delivered := upd s.delivered p [] }
      else none
    | .run p copy => s.run p copy
    | .kill p => some (s.kill p)
    | .reuse p =>
      if s.frame p = .user then some { s with killed := upd s.killed p false } else none

/-- The console as it is made, with no process in it. -/
def new : ConsoleState where
  console := Console.new
  owner := none
  frame _ := .user
  killed _ := false
  result _ := .ok 0
  delivered _ := []
  panicked := none
  committed := []
  consumed := []

end ConsoleState

def ConsoleStep (s : ConsoleState) (a : ConsoleAction) (s' : ConsoleState) : Prop :=
  s.next a = some s'

/-- A new console, with no process in it. -/
def ConsoleInit (s : ConsoleState) : Prop := s = ConsoleState.new

end Octopos
