import Octopos.Param
import Mathlib.Data.List.MinMax
import Mathlib.Data.List.FinRange

/-!
# The process table and the stride scheduler

The part of `proc.rs` that decides which process runs: `ProcTable::min_pass`, the scheduling fields
of a process, `stride_scheduler` on one CPU, and the operations that make a process `Runnable`
(`fork`, `wakeup`, `kill`, `yield`). Code that holds a spinlock runs with interrupts off and is one
step here. `fork` is not: it reads the pass of the parent when it starts and the smallest pass of
the table when it ends, with interrupts on in between, so it is cut into three steps.
-/

namespace Octopos

/-- The state of a process. -/
inductive ProcState
  | unused
  | used
  | sleeping
  | runnable
  | running
  | zombie
  deriving DecidableEq, Repr

/-- Channels of `sleep` and `wakeup`. -/
inductive Channel
  | proc (id : ℕ)
  | ticks
  | buffer (id : ℕ)
  | lock (addr : ℕ)
  | log
  | pipeRead (addr : ℕ)
  | pipeWrite (addr : ℕ)
  deriving DecidableEq, Repr

def LARGE_NUMBER : ℕ := 3603600

/-- The fields of a process that its lock protects. -/
structure ProcInner where
  state : ProcState := .unused
  channel : Option Channel := none
  killed : Bool := false
  xstate : ℤ := 0
  pid : ℕ := 0
  tickets : ℕ := 10
  pass : ℕ := 0
  stride : ℕ := LARGE_NUMBER / 10
  nSchedule : ℕ := 0
  deriving DecidableEq, Repr

/-- Index of a slot of the process table. -/
abbrev ProcId := Fin NPROC

/-- `usize::checked_add`. -/
def checkedAdd (a b : ℕ) : Option ℕ := if a + b < USIZE then some (a + b) else none

/-- `Proc::set_tickets`. -/
def setTickets (p : ProcInner) (tickets : ℕ) : Option ProcInner :=
  if (10 ≤ tickets ∧ tickets ≤ 150) ∧ tickets % 10 = 0 then
    some { p with tickets := tickets, stride := LARGE_NUMBER / tickets }
  else none

/-- A process whose tickets and stride `set_tickets` accepted. -/
def ValidTickets (p : ProcInner) : Prop :=
  10 ≤ p.tickets ∧ p.tickets ≤ 150 ∧ p.tickets % 10 = 0 ∧ p.stride = LARGE_NUMBER / p.tickets

instance : DecidablePred ValidTickets := fun _ =>
  inferInstanceAs (Decidable (_ ∧ _ ∧ _ ∧ _))

/-! ## The smallest pass -/

/-- `ProcTable::min_pass`: the first process in one of `states` with the smallest pass. -/
def minPass (t : ProcId → ProcInner) (states : List ProcState) : Option (ProcId × ℕ) :=
  (((List.finRange NPROC).filter fun i => (t i).state ∈ states).argmin fun i => (t i).pass).map
    fun i => (i, (t i).pass)

theorem minPass_eq_none {t : ProcId → ProcInner} {states : List ProcState} :
    minPass t states = none ↔ ∀ i, (t i).state ∉ states := by
  simp [minPass, List.argmin_eq_none, List.filter_eq_nil_iff]

theorem minPass_eq_some {t : ProcId → ProcInner} {states : List ProcState} {i : ProcId} {q : ℕ}
    (h : minPass t states = some (i, q)) :
    (t i).state ∈ states ∧ q = (t i).pass ∧ ∀ j, (t j).state ∈ states →
    (t i).pass ≤ (t j).pass := by
  obtain ⟨k, hk, e⟩ := Option.map_eq_some_iff.1 h
  cases e
  have hmem := List.argmin_mem hk
  simp only [List.mem_filter, decide_eq_true_eq] at hmem
  refine ⟨hmem.2, rfl, fun j hj => ?_⟩
  have hj' : j ∈ (List.finRange NPROC).filter fun i => decide ((t i).state ∈ states) := by
    simp [hj]
  exact List.le_of_mem_argmin (f := fun i => (t i).pass) hj' hk

/-! ## The machine -/

/-- Where a process stands inside `fork`: the slot it allocated, the pass it read from itself when
it entered, how far its scan for the smallest pass has come and what the scan found. -/
structure ForkFrame where
  child : ProcId
  parentPass : ℕ
  next : ℕ
  best : Option ℕ
  deriving DecidableEq, Repr

/-- The processes on one CPU. `current` is `cpu.proc`; `trace` records the dispatches, the latest
first, each with the pass of the process when it was dispatched. -/
structure Kernel where
  table : ProcId → ProcInner
  parents : ProcId → Option ProcId := fun _ => none
  forks : ProcId → Option ForkFrame := fun _ => none
  current : Option ProcId := none
  nextPid : ℕ := 1
  trace : List (ProcId × ℕ) := []

/-- The slot of `INIT_PROC`: `user_init` allocates the first slot of the empty table. -/
def initProc : ProcId := ⟨0, by decide⟩

def Kernel.setProc (s : Kernel) (i : ProcId) (p : ProcInner) : Kernel :=
  { s with table := Function.update s.table i p }

/-- Back in `stride_scheduler` after `swtch`: the pass and the count of the process advance. -/
def Kernel.leave (s : Kernel) (i : ProcId) : Kernel :=
  let p := s.table i
  { s.setProc i { p with pass := (p.pass + p.stride) % USIZE, nSchedule := p.nSchedule + 1 } with
    current := none }

/-- Subtract the smallest pass of the running and runnable processes from every pass. -/
def Kernel.normalize (s : Kernel) : Kernel :=
  match minPass s.table [.running, .runnable] with
  | none => s
  | some (_, baseline) =>
    { s with table := fun i => { s.table i with pass := (s.table i).pass - baseline } }

/-- The switch of `stride_scheduler` to the chosen process. -/
def Kernel.dispatch (s : Kernel) (i : ProcId) : Kernel :=
  { s.setProc i { s.table i with state := .running } with
    current := some i, trace := (i, (s.table i).pass) :: s.trace }

/-- One iteration of `stride_scheduler`, up to the switch to the chosen process. -/
def Kernel.schedule (s : Kernel) : Kernel :=
  match minPass s.table [.runnable] with
  | none => s
  | some (i, _) =>
    if (checkedAdd (s.table i).pass (s.table i).stride).isNone then s.normalize else s.dispatch i

/-- `yield`. -/
def Kernel.yield (s : Kernel) (i : ProcId) : Kernel :=
  (s.setProc i { s.table i with state := .runnable }).leave i

/-- `sleep`, up to the switch to the scheduler. -/
def Kernel.sleep (s : Kernel) (i : ProcId) (ch : Channel) : Kernel :=
  (s.setProc i { s.table i with channel := some ch, state := .sleeping }).leave i

/-- The end of `sleep`, once the process runs again. -/
def Kernel.awake (s : Kernel) (i : ProcId) : Kernel :=
  s.setProc i { s.table i with channel := none }

/-- The smallest pass `wakeup` raises the woken processes to. In the scheduler there is no current
process to fall back on. -/
def Kernel.baseline (s : Kernel) : Option ℕ :=
  match minPass s.table [.runnable] with
  | some (_, pass) => some pass
  | none => s.current.map fun i => (s.table i).pass

/-- What `wakeup` does to the process in one slot. -/
def wakeProc (baseline : Option ℕ) (ch : Channel) (p : ProcInner) : ProcInner :=
  if p.state = .sleeping ∧ p.channel = some ch then
    match baseline with
    | some b => { p with pass := max p.pass b, state := .runnable }
    | none => { p with state := .runnable }
  else p

/-- `wakeup`. -/
def Kernel.wakeup (s : Kernel) (ch : Channel) : Kernel :=
  { s with
    table := fun i =>
      if s.current = some i then s.table i else wakeProc s.baseline ch (s.table i) }

/-- What `kill` does to the process with the given pid. -/
def killProc (p : ProcInner) : ProcInner :=
  if p.state = .sleeping then { p with killed := true, state := .runnable }
  else { p with killed := true }

/-- The process `kill` finds. -/
def Kernel.findPid (s : Kernel) (pid : ℕ) : Option ProcId :=
  (List.finRange NPROC).find? fun i => (s.table i).state ≠ .unused ∧ (s.table i).pid = pid

/-- `kill`. -/
def Kernel.kill (s : Kernel) (pid : ℕ) : Kernel :=
  match s.findPid pid with
  | some i => s.setProc i (killProc (s.table i))
  | none => s

/-- `reparent`: the children of `i` go to init, which is woken for each of them. -/
def Kernel.reparent (s : Kernel) (i : ProcId) : Kernel :=
  (List.finRange NPROC).foldl
    (fun s c =>
      if s.parents c = some i then
        { s with parents := Function.update s.parents c (some initProc) }.wakeup (.proc initProc)
      else s) s

/-- The end of `exit`: the process becomes a zombie and never runs again. -/
def Kernel.die (s : Kernel) (i : ProcId) (status : ℤ) : Kernel :=
  (s.setProc i { s.table i with xstate := status, state := .zombie }).leave i

/-- `exit`; that init exits, or a process without a parent, stops the kernel. -/
def Kernel.exit (s : Kernel) (i : ProcId) (status : ℤ) : Option Kernel :=
  if i = initProc then none
  else
    let s := s.reparent i
    match s.parents i with
    | none => none
    | some parent => some ((s.wakeup (.proc parent)).die i status)

/-- `Proc::free`, for the fields kept here. -/
def freeProc (p : ProcInner) : ProcInner :=
  { p with pid := 0, channel := none, killed := false, xstate := 0, state := .unused }

/-- `wait`: reap the first exited child, give up, or sleep until a child exits. -/
def Kernel.wait (s : Kernel) (i : ProcId) : Kernel :=
  match (List.finRange NPROC).find? fun c => s.parents c = some i ∧ (s.table c).state = .zombie with
  | some c =>
    { s.setProc c (freeProc (s.table c)) with parents := Function.update s.parents c none }
  | none =>
    if (∀ c, s.parents c ≠ some i) ∨ (s.table i).killed then s else s.sleep i (.proc i)

/-- The slot `ProcTable::alloc` takes. -/
def Kernel.findUnused (s : Kernel) : Option ProcId :=
  (List.finRange NPROC).find? fun i => (s.table i).state = .unused

/-- The fields `ProcTable::alloc` sets in the slot it takes. -/
def allocProc (pid : ℕ) (p : ProcInner) : ProcInner :=
  { p with
    pid := pid, state := .used, tickets := 10, stride := LARGE_NUMBER / 10, nSchedule := 0 }

/-- The start of `fork`: read the own pass, allocate a slot and make it a child. With `ok = false`
the memory for the child cannot be allocated and the slot is freed again. -/
def Kernel.forkStart (s : Kernel) (i : ProcId) (ok : Bool) : Kernel :=
  match s.findUnused with
  | none => s
  | some c =>
    let p := allocProc s.nextPid (s.table c)
    let s := { s with nextPid := s.nextPid + 1 }
    if ok then
      { s.setProc c p with
        parents := Function.update s.parents c (some i)
        forks := Function.update s.forks i
          (some { child := c, parentPass := (s.table i).pass, next := 0, best := none }) }
    else s.setProc c (freeProc p)

/-- One slot of the scan `min_pass` that `fork` makes with interrupts on. -/
def Kernel.forkScan (s : Kernel) (i : ProcId) (f : ForkFrame) (h : f.next < NPROC) : Kernel :=
  let p := s.table ⟨f.next, h⟩
  let best := if p.state = .runnable then some (f.best.elim p.pass (min p.pass)) else f.best
  { s with forks := Function.update s.forks i (some { f with next := f.next + 1, best := best }) }

/-- The end of `fork`: the child becomes runnable. -/
def Kernel.forkEnd (s : Kernel) (i : ProcId) (f : ForkFrame) : Kernel :=
  { s.setProc f.child
      { s.table f.child with pass := f.best.getD f.parentPass, state := .runnable } with
    forks := Function.update s.forks i none }

/-- What can happen on the CPU. -/
inductive Action
  | schedule
  | yield
  | sleep (ch : Channel)
  | awake
  | wakeup (ch : Channel)
  | kill (pid : ℕ)
  | exit (status : ℤ)
  | wait
  | forkStart (ok : Bool)
  | forkScan
  | forkEnd
  deriving DecidableEq, Repr

/-- The running process, unless it is inside `fork`. -/
def Kernel.outside (s : Kernel) : Option ProcId := s.current.filter fun i => (s.forks i).isNone

/-- The running process that is inside `fork`, with its frame there. -/
def Kernel.inside (s : Kernel) : Option (ProcId × ForkFrame) :=
  s.current.bind fun i => (s.forks i).map fun f => (i, f)

/-- The steps. The scheduler runs when no process does; `wakeup` and `kill` also come from
interrupts, with or without a running process; a process inside `fork` can be preempted, but starts
nothing else. -/
def Kernel.step (s : Kernel) : Action → Option Kernel
  | .schedule => if s.current = none then some s.schedule else none
  | .wakeup ch => some (s.wakeup ch)
  | .kill pid => some (s.kill pid)
  | .yield => s.current.map s.yield
  | .sleep ch => s.outside.map fun i => s.sleep i ch
  | .awake => s.outside.map s.awake
  | .exit status => s.outside.bind fun i => s.exit i status
  | .wait => s.outside.map s.wait
  | .forkStart ok => s.outside.map fun i => s.forkStart i ok
  | .forkScan => s.inside.bind fun (i, f) =>
      if h : f.next < NPROC then some (s.forkScan i f h) else none
  | .forkEnd => s.inside.bind fun (i, f) =>
      if f.next < NPROC then none else some (s.forkEnd i f)

theorem outside_eq_some {s : Kernel} {i : ProcId} (h : s.outside = some i) :
    s.current = some i ∧ s.forks i = none := by
  simpa [Kernel.outside, Option.filter_eq_some_iff] using h

theorem inside_eq_some {s : Kernel} {i : ProcId} {f : ForkFrame} (h : s.inside = some (i, f)) :
    s.current = some i ∧ s.forks i = some f := by
  obtain ⟨j, hj, h⟩ := Option.bind_eq_some_iff.1 h
  obtain ⟨g, hg, e⟩ := Option.map_eq_some_iff.1 h
  cases e
  exact ⟨hj, hg⟩

/-- One step of the machine, as a relation. -/
def Kernel.Step (s : Kernel) (a : Action) (s' : Kernel) : Prop := s.step a = some s'

section Slots

variable (s : Kernel) (c i : ProcId)

@[simp] theorem dispatch_pass : ((s.dispatch c).table i).pass = (s.table i).pass := by
  by_cases h : i = c
  · subst h; simp [Kernel.dispatch, Kernel.setProc]
  · simp [Kernel.dispatch, Kernel.setProc, h]

@[simp] theorem dispatch_stride : ((s.dispatch c).table i).stride = (s.table i).stride := by
  by_cases h : i = c
  · subst h; simp [Kernel.dispatch, Kernel.setProc]
  · simp [Kernel.dispatch, Kernel.setProc, h]

theorem dispatch_state :
    ((s.dispatch c).table i).state = if i = c then .running else (s.table i).state := by
  by_cases h : i = c
  · subst h; simp [Kernel.dispatch, Kernel.setProc]
  · simp [Kernel.dispatch, Kernel.setProc, h]

@[simp] theorem leave_current : (s.leave c).current = none := rfl

@[simp] theorem leave_table_ne (h : i ≠ c) : (s.leave c).table i = s.table i := by
  simp [Kernel.leave, Kernel.setProc, h]

@[simp] theorem leave_stride : ((s.leave c).table i).stride = (s.table i).stride := by
  by_cases h : i = c
  · subst h; simp [Kernel.leave, Kernel.setProc]
  · simp [h]

@[simp] theorem leave_state : ((s.leave c).table i).state = (s.table i).state := by
  by_cases h : i = c
  · subst h; simp [Kernel.leave, Kernel.setProc]
  · simp [h]

theorem leave_pass_self :
    ((s.leave c).table c).pass = ((s.table c).pass + (s.table c).stride) % USIZE := by
  simp [Kernel.leave, Kernel.setProc]

@[simp] theorem wakeup_current (ch : Channel) : (s.wakeup ch).current = s.current := rfl

@[simp] theorem setProc_current (p : ProcInner) : (s.setProc c p).current = s.current := rfl

@[simp] theorem setProc_forks (p : ProcInner) : (s.setProc c p).forks = s.forks := rfl

@[simp] theorem setProc_self (p : ProcInner) : (s.setProc c p).table c = p := by
  simp [Kernel.setProc]

@[simp] theorem setProc_table_ne (p : ProcInner) (h : i ≠ c) :
    (s.setProc c p).table i = s.table i := by
  simp [Kernel.setProc, h]

end Slots

end Octopos
