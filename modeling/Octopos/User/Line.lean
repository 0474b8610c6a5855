import Octopos.Lib.Bytes
import Octopos.Lib.Wp

/-!
# The line editor

`LineEditor` of the user library (`line.rs`) edits a line in a fixed buffer and keeps the last lines
in a circular history. An index out of bounds and a difference below zero stop the program. The
bytes that are written to the screen are left out; whether they fit into the buffer of `redraw` is
not.
-/

namespace Octopos

/-- `LineEditor::LINE_MAX` -/
def LINEMAX : ℕ := 256

/-- `LineEditor::HISTORY_SIZE` -/
def HISTORYSIZE : ℕ := 16

instance : NeZero HISTORYSIZE := ⟨by decide⟩

/-- Length of the buffer in which `redraw` puts its output together. -/
def REDRAWMAX : ℕ := 512

/-- Why the editor stops. -/
inductive LinePanic
  | outOfBounds
  | underflow
  deriving DecidableEq, Repr

structure LineEditor where
  buf : Bytes
  len : ℕ
  cursor : ℕ
  prompt : List UInt8
  history : Fin HISTORYSIZE → Bytes
  historyLens : Fin HISTORYSIZE → ℕ
  historyEntries : ℕ
  historyOffset : ℕ
  stashedBuf : Bytes
  stashedLen : ℕ

abbrev LineM := Prog LinePanic LineEditor

namespace LineEditor

def new : LineEditor where
  buf _ := 0
  len := 0
  cursor := 0
  prompt := []
  history _ _ := 0
  historyLens _ := 0
  historyEntries := 0
  historyOffset := 0
  stashedBuf _ := 0
  stashedLen := 0

/-! ## Access to the buffers -/

/-- `a - b` of unsigned numbers. -/
def sub (a b : ℕ) : LineM ℕ := if a < b then throw .underflow else pure (a - b)

/-- `self.buf[dst] = self.buf[src]` -/
def moveByte (dst src : ℕ) : LineM PUnit := do
  let e ← get
  if LINEMAX ≤ src ∨ LINEMAX ≤ dst then throw .outOfBounds
  else set { e with buf := upd e.buf dst (e.buf src) }

/-- `self.buf[i] = c` -/
def setByte (i : ℕ) (c : UInt8) : LineM PUnit := do
  let e ← get
  if LINEMAX ≤ i then throw .outOfBounds else set { e with buf := upd e.buf i c }

/-- `self.buf[i]` -/
def getByte (i : ℕ) : LineM UInt8 := do
  let e ← get
  if LINEMAX ≤ i then throw .outOfBounds else return e.buf i

/-- `dst[..n].copy_from_slice(&src[..n])`, where both are as long as a line may be. -/
def copyLine (dst src : Bytes) (n : ℕ) : LineM Bytes :=
  if LINEMAX < n then throw .outOfBounds else return blit dst 0 n src

/-! ## Drawing -/

/-- The number of bytes that `redraw` writes: a carriage return, the prompt, the line, the sequence
that erases the rest, and the one that moves the cursor back. -/
def redrawLen (e : LineEditor) : ℕ :=
  1 + e.prompt.length + e.len + 3 +
    if 0 < e.len - e.cursor then 2 + (Nat.digits 10 (e.len - e.cursor)).length + 1 else 0

def redraw : LineM PUnit := do
  let e ← get
  if LINEMAX < e.len ∨ REDRAWMAX < e.redrawLen then throw .outOfBounds
  else
    let _ ← sub e.len e.cursor

def redrawFull : LineM PUnit := redraw

/-! ## Editing -/

def insert (c : UInt8) : LineM PUnit := do
  let e ← get
  if LINEMAX ≤ e.cursor then pure ⟨⟩
  else
    -- shift buf[cursor..len] right by 1
    (List.range' e.cursor (e.len - e.cursor)).reverse.forM fun i => moveByte (i + 1) i
    -- place c at cursor
    setByte e.cursor c
    modify fun e => { e with cursor := e.cursor + 1, len := e.len + 1 }
    redraw

def backspace : LineM PUnit := do
  let e ← get
  if e.cursor = 0 then pure ⟨⟩
  else
    let last ← sub e.len 1
    -- shift buf[cursor..len] left by 1
    (List.range' (e.cursor - 1) (last - (e.cursor - 1))).forM fun i => moveByte i (i + 1)
    modify fun e => { e with cursor := e.cursor - 1, len := e.len - 1 }
    redraw

def killLine : LineM PUnit := do
  let e ← get
  -- shift buf[cursor..len] to buf[0..]
  (List.range' e.cursor (e.len - e.cursor)).forM fun i => moveByte (i - e.cursor) i
  let len ← sub e.len e.cursor
  modify fun e => { e with len := len, cursor := 0 }
  redraw

/-- Go back from `i` while the byte before has the property. -/
def skipBack (p : UInt8 → Bool) : ℕ → LineM ℕ
  | 0 => pure 0
  | i + 1 => do
    let c ← getByte i
    if p c then skipBack p i else return i + 1

def SPACE : UInt8 := 32

def killWord : LineM PUnit := do
  let e ← get
  -- skip over any spaces before a word
  let i ← skipBack (· == SPACE) e.cursor
  -- skip over the first word
  let i ← skipBack (· != SPACE) i
  -- shift buf[cursor..len] left by cursor - i
  (List.range' e.cursor (e.len - e.cursor)).forM fun j => moveByte (j - (e.cursor - i)) j
  let len ← sub e.len (e.cursor - i)
  modify fun e => { e with len := len, cursor := i }
  redraw

def moveLeft : LineM PUnit :=
  modify fun e => if 0 < e.cursor then { e with cursor := e.cursor - 1 } else e

def moveRight : LineM PUnit :=
  modify fun e => if e.cursor < e.len then { e with cursor := e.cursor + 1 } else e

def moveToStart : LineM PUnit := do
  modify fun e => { e with cursor := 0 }
  redraw

def moveToEnd : LineM PUnit := do
  modify fun e => { e with cursor := e.len }
  redraw

def historySlot (n : ℕ) : Fin HISTORYSIZE := Fin.ofNat HISTORYSIZE n

def addToHistory : LineM PUnit := do
  let e ← get
  let slot := historySlot e.historyEntries
  let line ← copyLine (e.history slot) e.buf e.len
  set { e with
    history := upd e.history slot line
    historyLens := upd e.historyLens slot e.len
    historyEntries := e.historyEntries + 1 }

def loadFromHistory : LineM PUnit := do
  let e ← get
  let n ← sub e.historyEntries e.historyOffset
  let slot := historySlot n
  let len := e.historyLens slot
  let buf ← copyLine e.buf (e.history slot) len
  set { e with buf := buf, len := len, cursor := len }

def historyUp : LineM PUnit := do
  let e ← get
  let available := min e.historyEntries HISTORYSIZE
  if available ≤ e.historyOffset then pure ⟨⟩
  else
    if e.historyOffset = 0 then
      -- stash current line before replacing it
      let stash ← copyLine e.stashedBuf e.buf e.len
      set { e with stashedBuf := stash, stashedLen := e.len }
    modify fun e => { e with historyOffset := e.historyOffset + 1 }
    loadFromHistory
    redraw

def historyDown : LineM PUnit := do
  let e ← get
  if e.historyOffset = 0 then pure ⟨⟩
  else
    let offset := e.historyOffset - 1
    set { e with historyOffset := offset }
    if offset = 0 then
      -- restore stashed line
      let buf ← copyLine e.buf e.stashedBuf e.stashedLen
      modify fun e => { e with buf := buf, len := e.stashedLen, cursor := e.stashedLen }
    else loadFromHistory
    redraw

/-! ## Reading a line -/

/-- How `read_line` ends: with a line, at the end of the input, or not yet. -/
inductive LineEnd
  | enter
  | interrupt
  | eof
  | waiting
  deriving DecidableEq, Repr

def ESC : UInt8 := 0x1b

/-- `c.is_ascii_graphic() || c == b' '` -/
def isPrintable (c : UInt8) : Bool := 32 ≤ c && c ≤ 126

/-- The key for byte `c`, other than the start of an escape sequence. -/
def press (c : UInt8) : LineM (Option LineEnd) := do
  let e ← get
  if c = 0x0a ∨ c = 0x0d then return some .enter
  else if c = 0x08 ∨ c = 0x7f then
    backspace
    return none
  else if c = 0x01 then
    moveToStart
    return none
  else if c = 0x05 then
    moveToEnd
    return none
  else if c = 0x15 then
    killLine
    return none
  else if c = 0x17 then
    killWord
    return none
  else if c = 0x0c then
    redrawFull
    return none
  else if c = 0x04 ∧ e.len = 0 then return some .eof
  else if c = 0x03 then
    modify fun e => { e with len := 0, cursor := 0 }
    return some .interrupt
  else if isPrintable c then
    insert c
    return none
  else return none

/-- `handle_escape`, with the two bytes that follow. -/
def handleEscape (x y : UInt8) : LineM PUnit :=
  if x = 91 ∧ y = 65 then historyUp
  else if x = 91 ∧ y = 66 then historyDown
  else if x = 91 ∧ y = 68 then moveLeft
  else if x = 91 ∧ y = 67 then moveRight
  else pure ⟨⟩

/-- Where `read_line` stands in an escape sequence. -/
inductive Escape
  | none
  | start
  | second (x : UInt8)
  deriving DecidableEq, Repr

/-- The loop of `read_line` on the bytes of the input; it returns the bytes that it has not read. -/
def readLoop : Escape → List UInt8 → LineM (LineEnd × List UInt8)
  | _, [] => return (.waiting, [])
  | .none, c :: rest => do
    if c = ESC then readLoop .start rest
    else
      match ← press c with
      | some r => return (r, rest)
      | none => readLoop .none rest
  | .start, x :: rest => readLoop (.second x) rest
  | .second x, y :: rest => do
    handleEscape x y
    readLoop .none rest

def readLine (prompt : List UInt8) (input : List UInt8) : LineM (LineEnd × List UInt8) := do
  modify fun e => { e with len := 0, cursor := 0, prompt := prompt }
  let (r, rest) ← readLoop .none input
  match r with
  | .enter | .interrupt =>
    let e ← get
    if 0 < e.len then addToHistory
    modify fun e => { e with historyOffset := 0 }
    return (r, rest)
  | .eof | .waiting => return (r, rest)

end LineEditor

end Octopos
