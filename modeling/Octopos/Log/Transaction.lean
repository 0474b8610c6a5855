import Octopos.Param
import Octopos.Lib.Run
import Mathlib.Data.Finset.Insert

/-!
# Transactions of the log

`begin_op`, `log::write`, `end_op` and `commit` of `log.rs`, run by any number of processes. What a
process does while it holds the `LOG` lock is one step; `commit` runs with the lock released and is
cut into one step per acquisition.

The trace records the events of a run, the newest first. The blocks an operation has logged, and how
many of them were not yet in the header, are kept with the operation.
-/

namespace Octopos

/-- Panics of `log.rs`. -/
inductive LogPanic
  | logCommitting
  | tooBig
  | outside
  deriving DecidableEq, Repr

/-- Where a process is. -/
inductive LogPc
  | idle
  | asleep
  | woken
  | inOp (logged : Finset ℕ) (fresh : ℕ)
  | commitStart
  | writeLog (n : ℕ) (copied : List ℕ)
  | writeHead (copied : List ℕ)
  | installStart
  | install (n tail : ℕ)
  | clear
  | clearHead
  | finish
  deriving DecidableEq

namespace LogPc

def isOpen : LogPc → Bool
  | inOp _ _ => true
  | _ => false

@[simp] theorem isOpen_inOp (logged : Finset ℕ) (fresh : ℕ) : (inOp logged fresh).isOpen = true :=
  rfl

def isCommit : LogPc → Bool
  | idle | asleep | woken | inOp _ _ => false
  | _ => true

/-- The batch is committed, and the in-memory header still lists it. -/
def isInstall : LogPc → Bool
  | installStart | install _ _ | clear => true
  | _ => false

/-- Blocks of the open operation that were new in the header. -/
def fresh : LogPc → ℕ
  | inOp _ k => k
  | _ => 0

end LogPc

/-- Events of a run. -/
inductive LogEvent (P : Type)
  | beginOp (p : P)
  | write (p : P) (b : ℕ)
  | endOp (p : P)
  | startCommit
  | commit (copied listed : List ℕ)
  | finishCommit

/-- The log and the processes that use it; `blocks` are the `header.n` blocks of the header. -/
structure LogState (P : Type) where
  outstanding : ℕ
  committing : Bool
  blocks : List ℕ
  pc : P → LogPc
  trace : List (LogEvent P)

/-- What a process can do. -/
inductive LogAction (P : Type)
  | beginOp (p : P)
  | rouse (p : P)
  | write (p : P) (b : ℕ)
  | endOp (p : P)
  | commit (p : P)

section Model

variable {P : Type} [DecidableEq P]

namespace LogState

/-- The log after `init`: no operation has begun. -/
def start : LogState P where
  outstanding := 0
  committing := false
  blocks := []
  pc := fun _ => .idle
  trace := []

/-- Move process `p`. -/
def goto (s : LogState P) (p : P) (c : LogPc) : LogState P :=
  { s with pc := Function.update s.pc p c }

def emit (s : LogState P) (e : LogEvent P) : LogState P := { s with trace := e :: s.trace }

/-- `wakeup(Channel::Log)`. -/
def wakeup (s : LogState P) : LogState P :=
  { s with pc := fun p => if s.pc p = .asleep then .woken else s.pc p }

/-- One turn of the loop of `begin_op`. -/
def beginOp (s : LogState P) (p : P) : LogState P :=
  if s.committing then s.goto p .asleep
  else if s.blocks.length + (s.outstanding + 1) * MAXOPBLOCKS > LOGBLOCKS then s.goto p .asleep
  else ({ s with outstanding := s.outstanding + 1 }.goto p (.inOp ∅ 0)).emit (.beginOp p)

/-- `log::write` of block `b`, inside the operation of `p`; `size` is the size of the log area. -/
def write (size : ℕ) (s : LogState P) (p : P) (b : ℕ) (logged : Finset ℕ) (fresh : ℕ) :
    Except LogPanic (LogState P) :=
  if LOGBLOCKS ≤ s.blocks.length ∨ size - 1 ≤ s.blocks.length then .error .tooBig
  else if s.outstanding < 1 then .error .outside
  else if b ∈ s.blocks then
    -- log absorption
    .ok ((s.goto p (.inOp (insert b logged) fresh)).emit (.write p b))
  else
    .ok (({ s with blocks := s.blocks ++ [b] }.goto p (.inOp (insert b logged) (fresh + 1))).emit
      (.write p b))

/-- The first critical section of `end_op`. -/
def endOp (s : LogState P) (p : P) : Except LogPanic (LogState P) :=
  if s.committing then .error .logCommitting
  else if s.outstanding - 1 = 0 then
    .ok ((({ s with outstanding := s.outstanding - 1, committing := true }.goto p
      .commitStart).emit (.endOp p)).emit .startCommit)
  else
    .ok ((({ s with outstanding := s.outstanding - 1 }.goto p .idle).wakeup).emit (.endOp p))

/-- The next step of the committing process `p`. -/
def advance (s : LogState P) (p : P) : LogState P :=
  match s.pc p with
  | .commitStart =>
    if 0 < s.blocks.length then s.goto p (.writeLog s.blocks.length []) else s.goto p .finish
  | .writeLog n copied =>
    if copied.length < n then
      s.goto p (.writeLog n (copied ++ [s.blocks.getD copied.length 0]))
    else s.goto p (.writeHead copied)
  | .writeHead copied => (s.goto p .installStart).emit (.commit copied s.blocks)
  | .installStart => s.goto p (.install s.blocks.length 0)
  | .install n tail => if tail < n then s.goto p (.install n (tail + 1)) else s.goto p .clear
  | .clear => { s with blocks := [] }.goto p .clearHead
  | .clearHead => s.goto p .finish
  | .finish => (({ s with committing := false }.goto p .idle).wakeup).emit .finishCommit
  | _ => s

/-- One step; `none` if process `p` is not at a point where it can do that. -/
def step (size : ℕ) (s : LogState P) : LogAction P → Option (Except LogPanic (LogState P))
  | .beginOp p => if s.pc p = .idle ∨ s.pc p = .woken then some (.ok (s.beginOp p)) else none
  | .rouse p => if s.pc p = .asleep then some (.ok (s.goto p .woken)) else none
  | .write p b =>
    match s.pc p with
    | .inOp logged fresh => some (s.write size p b logged fresh)
    | _ => none
  | .endOp p => if (s.pc p).isOpen then some (s.endOp p) else none
  | .commit p => if (s.pc p).isCommit then some (.ok (s.advance p)) else none

def Step (size : ℕ) (s : LogState P) (a : LogAction P) (s' : LogState P) : Prop :=
  s.step size a = some (.ok s')

end LogState

/-! ## What a trace says -/

/-- Process `p` has begun an operation and not ended it. -/
def openIn (p : P) : List (LogEvent P) → Bool
  | [] => false
  | .beginOp q :: t => if q = p then true else openIn p t
  | .endOp q :: t => if q = p then false else openIn p t
  | _ :: t => openIn p t

/-- A commit has started and not finished. -/
def committingIn : List (LogEvent P) → Bool
  | [] => false
  | .startCommit :: _ => true
  | .finishCommit :: _ => false
  | _ :: t => committingIn t

/-- The blocks logged since the last batch was committed. -/
def loggedIn : List (LogEvent P) → List ℕ
  | [] => []
  | .commit _ _ :: _ => []
  | .write _ b :: t => b :: loggedIn t
  | _ :: t => loggedIn t

/-- What holds of an event, given the trace before it: a commit starts only when no operation is
open; no operation begins during a commit; a batch is committed while no operation is open, and it
consists of the blocks logged since the last one. -/
def EventOk (t : List (LogEvent P)) : LogEvent P → Prop
  | .startCommit => ∀ p, openIn p t = false
  | .beginOp _ => committingIn t = false
  | .commit copied listed =>
    (∀ p, openIn p t = false) ∧ copied = listed ∧ ∀ b, b ∈ listed ↔ b ∈ loggedIn t
  | _ => True

/-- Every event of the trace is as it should be. -/
def TraceOk : List (LogEvent P) → Prop
  | [] => True
  | e :: t => EventOk t e ∧ TraceOk t

/-- No batch is committed between the begin of an operation and its end: all the blocks it logs
belong to one batch. -/
def OpsWhole (tr : List (LogEvent P)) : Prop :=
  ∀ p later earlier, tr = later ++ .beginOp p :: earlier → (∀ e ∈ later, e ≠ .endOp p) →
    ∀ copied listed, .commit copied listed ∉ later

theorem openIn_append {p : P} {later earlier : List (LogEvent P)} (h : ∀ e ∈ later, e ≠ .endOp p)
    (hopen : openIn p earlier = true) : openIn p (later ++ earlier) = true := by
  induction later with
  | nil => exact hopen
  | cons e later ih =>
    have ih := ih fun e he => h e (List.mem_cons_of_mem _ he)
    have he := h e List.mem_cons_self
    cases e with
    | beginOp q => simp [openIn, ih]
    | endOp q =>
      have hq : q ≠ p := fun hq => he (hq ▸ rfl)
      simpa [openIn, hq] using ih
    | write q b => exact ih
    | startCommit => exact ih
    | commit c l => exact ih
    | finishCommit => exact ih

theorem TraceOk.append {later earlier : List (LogEvent P)} (h : TraceOk (later ++ earlier)) :
    TraceOk earlier := by
  induction later with
  | nil => exact h
  | cons e later ih => exact ih h.2

theorem TraceOk.opsWhole {tr : List (LogEvent P)} (h : TraceOk tr) : OpsWhole tr := by
  rintro p later earlier rfl hend copied listed hmem
  obtain ⟨after, before, rfl⟩ := List.append_of_mem hmem
  rw [List.append_assoc, List.cons_append] at h
  have hcommit : EventOk (before ++ .beginOp p :: earlier) (.commit copied listed) := h.append.1
  have hopen : openIn p (before ++ .beginOp p :: earlier) = true :=
    openIn_append (fun e he => hend e (by simp [he])) (by simp [openIn])
  rw [hcommit.1 p] at hopen
  cases hopen

end Model

end Octopos
