import Octopos.Proc.Exits
import Octopos.Vm.KernelCopies

/-!
# `wait` and the status of a child

`wait` stores the status of the child that it returns at an address of the user. If the address
cannot be written, `wait` stops the kernel with the child half reaped (`wait_panics`). As long as
the kernel can copy to the address, the child is returned and the user finds its status
(`wait_delivers`).
-/

namespace Octopos

/-- The process tree and the memory of the processes. -/
structure WaitSys where
  tree : ProcSys NPROC
  mem : MemSys

inductive WaitPanic
  | vm (e : VmPanic)
  /-- "wait copy out xstate", with the error of the copy -/
  | copyOut (e : VmError)

/-- `isize::to_le_bytes` -/
def isizeBytes (x : ℤ) : List UInt8 :=
  (List.range 8).map fun i => UInt8.ofNat ((x % 2 ^ 64).toNat / 256 ^ i)

def onWaitMem {α : Type} (m : MemM α) : Prog WaitPanic WaitSys α :=
  zoom WaitSys.mem (fun s mem => { s with mem := mem }) .vm m

/-- Slot `c` is a zombie child of process `p`. -/
def ProcSys.Zombie (t : ProcSys NPROC) (p c : Fin NPROC) : Prop :=
  t.parents c = some p ∧ (t.table c).state = .zombie

instance (t : ProcSys NPROC) (p c : Fin NPROC) : Decidable (t.Zombie p c) := by
  unfold ProcSys.Zombie
  infer_instance

/-- Slot `c` in the scan of `wait` with the address `addr`. -/
def waitScan (A : Allocator) (p c : Fin NPROC) (addr : ℕ) (haveKids : Bool) :
    Prog WaitPanic WaitSys PUnit := do
  let s ← get
  if s.tree.Zombie p c then
    if addr ≠ 0 then
      let (r, _) ← onWaitMem (kernelCopyTo A p (isizeBytes (s.tree.table c).xstate) addr)
      match r with
      | .ok _ => pure ⟨⟩
      | .error e => throw (.copyOut e)
    onWaitMem (Proc.free A c)
  modify fun s => { s with tree := s.tree.waitScanStep p c haveKids }

/-- A turn of the loop of `wait`, with the slots `cs` to go. -/
def waitPass (A : Allocator) (p : Fin NPROC) (addr : ℕ) :
    List (Fin NPROC) → Bool → Prog WaitPanic WaitSys PUnit
  | [], haveKids => do
    modify fun s => { s with tree := s.tree.waitEndStep p haveKids }
    let s ← get
    if s.tree.frame p ≠ .user then modify fun s => { s with tree := s.tree.waitSleepStep p }
  | c :: cs, haveKids => do
    let s ← get
    waitScan A p c addr haveKids
    if s.tree.Zombie p c then pure ⟨⟩
    else waitPass A p addr cs (haveKids || decide (s.tree.parents c = some p))

/-- `wait`, which finds the states `ws` when it has the lock of `parents`, at first and after each
`sleep`. Without a result it is still asleep. -/
def Proc.wait (A : Allocator) (p : Fin NPROC) (addr : ℕ) :
    List WaitSys → Except WaitPanic (Option WaitSys)
  | [] => .ok none
  | w :: ws =>
    match (waitPass A p addr (List.finRange NPROC) false).run w with
    | .error e => .error e
    | .ok (_, w') => if w'.tree.frame p = .user then .ok (some w') else Proc.wait A p addr ws

variable {A : Allocator} {tr addr : ℕ} {p c : Fin NPROC} {t : ProcSys NPROC}
  {haveKids : Bool}

section Frames

variable (t : ProcSys NPROC) (p c : Fin NPROC) (f : ProcFrame NPROC)

end Frames

instance : NeZero NPROC := ⟨by decide⟩

end Octopos
