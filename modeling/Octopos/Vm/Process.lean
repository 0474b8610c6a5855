import Octopos.Fs.Exec
import Octopos.Vm.Uvm

/-!
# The memory of processes

The parts of `proc.rs` and `exec.rs` that make, change and drop the memory of a process. A process
has a trapframe page, a page table and a size. What `exec` reads from the executable is given by
`ExecFile`.
-/

namespace Octopos

/-- The fields of `ProcData` for the memory of a process. -/
structure ProcData where
  live : Bool
  trapframe : Option ℕ
  pagetable : Option ℕ
  size : ℕ
  deriving DecidableEq, Repr

/-- The slot of a process that does not exist. -/
def ProcData.new : ProcData := ⟨false, none, none, 0⟩

/-- The memory and the process table. -/
structure MemSys where
  vm : Vm
  procs : Fin NPROC → ProcData

abbrev MemM := Prog VmPanic MemSys

/-- Run a function of `vm.rs`. -/
def liftVm {α : Type} (m : VmM α) : MemM α := fun s =>
  match m.run s.vm with
  | .ok (a, vm) => .ok (a, { s with vm := vm })
  | .error e => .error e

def updProc (p : Fin NPROC) (f : ProcData → ProcData) : MemM PUnit :=
  modify fun s => { s with procs := upd s.procs p (f (s.procs p)) }

def getProc (p : Fin NPROC) : MemM ProcData := do
  let s ← get
  return s.procs p

/-- Errors of the functions on processes. -/
inductive KernelError
  | vm (e : VmError)
  | alloc
  | outOfProc
  | invalidArgument
  deriving DecidableEq, Repr

namespace Proc

variable (A : Allocator) (trampoline : ℕ)

/-- `Proc::create_pagetable` -/
def createPagetable (trapframe : ℕ) : VmM (Except VmError ℕ) := do
  match ← PageTable.tryNew A with
  | .error e => return .error e
  | .ok root =>
    match ← PageTable.mapPages A root TRAMPOLINE trampoline PGSIZE (PTE_R ||| PTE_X) with
    | .error err =>
      Uvm.free A root 0
      return .error err
    | .ok _ =>
      match ← PageTable.mapPages A root TRAPFRAME trapframe PGSIZE (PTE_R ||| PTE_W) with
      | .error err =>
        Uvm.unmap A root TRAMPOLINE 1 false
        Uvm.free A root 0
        return .error err
      | .ok _ => return .ok root

/-- `Proc::free` -/
def free (p : Fin NPROC) : MemM PUnit := do
  let data ← getProc p
  match data.trapframe with
  | some trapframe => do
    updProc p fun d => { d with trapframe := none }
    liftVm (pageFree trapframe)
  | none => pure ⟨⟩
  match data.pagetable with
  | some pagetable => do
    updProc p fun d => { d with pagetable := none }
    liftVm (Uvm.procFree A pagetable data.size)
  | none => pure ⟨⟩
  updProc p fun d => { d with size := 0, live := false }

/-- `ProcTable::alloc`, which found the unused slot `p`. -/
def alloc (p : Fin NPROC) : MemM (Except KernelError PUnit) := do
  updProc p fun d => { d with live := true }
  match ← liftVm (pageAlloc A) with
  | none =>
    free A p
    return .error .alloc
  | some trapframe =>
    updProc p fun d => { d with trapframe := some trapframe }
    match ← liftVm (createPagetable A trampoline trapframe) with
    | .error e =>
      free A p
      return .error (.vm e)
    | .ok uvm =>
      updProc p fun d => { d with pagetable := some uvm }
      return .ok ⟨⟩

/-- `fork` of the process `p`, where the child gets the slot `q`. -/
def fork (p q : Fin NPROC) : MemM (Except KernelError PUnit) := do
  match ← alloc A trampoline q with
  | .error e => return .error e
  | .ok _ =>
    let data ← getProc p
    let child ← getProc q
    match data.pagetable, child.pagetable with
    | some parentTable, some childTable =>
      match ← liftVm (Uvm.copy A parentTable childTable data.size) with
      | .error e =>
        free A q
        return .error (.vm e)
      | .ok _ =>
        updProc q fun d => { d with size := data.size }
        return .ok ⟨⟩
    | _, _ => throw .null

/-- The largest `isize` is below this. -/
def ISIZE : ℤ := 2 ^ 63

/-- `grow` -/
def grow (p : Fin NPROC) (n : ℤ) (lazily : Bool) : MemM (Except KernelError ℕ) := do
  let data ← getProc p
  match data.pagetable with
  | none => throw .null
  | some pagetable =>
    if 0 < n then
      if lazily then
        let size ← liftVm (usizeAdd data.size n.toNat)
        updProc p fun d => { d with size := size }
        return .ok size
      else
        let new ← liftVm (usizeAdd data.size n.toNat)
        match ← liftVm (Uvm.alloc A pagetable data.size new PTE_W) with
        | .error e => return .error (.vm e)
        | .ok size =>
          updProc p fun d => { d with size := size }
          return .ok size
    else if n < 0 then
      -- `-n` of the least `isize` leaves its range
      if n = -ISIZE then throw .overflow
      else
        let shrink := (-n).toNat
        if data.size < shrink then return .error .invalidArgument
        else
          let size ← liftVm (Uvm.dealloc A pagetable data.size (data.size - shrink))
          updProc p fun d => { d with size := size }
          return .ok size
    else
      return .ok data.size

/-- `sys_sbrk`: the old size, or `SysError::OutOfMemory`. -/
def sbrk (p : Fin NPROC) (n : ℤ) : MemM (Option ℕ) := do
  let data ← getProc p
  match ← grow A p n (0 ≤ n) with
  | .ok _ => return some data.size
  | .error _ => return none

end Proc

/-! ## `exec` -/

/-- What `Inode::read` gives for the bytes at an offset of the executable, if it gives all of
them. -/
abbrev ExecFile := ℕ → ℕ → Option Bytes

/-- `ProgramHeader::get_perms` -/
def ProgramHeader.getPerms (ph : ProgramHeader) : Pte :=
  let perm := if ph.flags &&& 0x1 ≠ 0 then PTE_X else 0
  if ph.flags &&& 0x2 ≠ 0 then perm ||| PTE_W else perm

/-- What `exec` commits to. -/
structure ExecImage where
  root : ℕ
  size : ℕ
  sp : ℕ
  argc : ℕ
  deriving DecidableEq, Repr

namespace Exec

variable (A : Allocator) (trampoline : ℕ)

/-- The loop of `load_elf_segment` over the remaining pages. -/
def loadElfSegment (file : ExecFile) (root va offset size : ℕ) : List ℕ → VmM (Except VmError PUnit)
  | [] => return .ok ⟨⟩
  | k :: rest => do
    match ← PageTable.walkAddr A root (va + k * PGSIZE) with
    | .error e => return .error e
    | .ok pa =>
      let n := min PGSIZE (size - k * PGSIZE)
      let place := offset + k * PGSIZE % 2 ^ 32
      if 2 ^ 32 ≤ place then throw .overflow
      else
        match file place n with
        | none => return .error .fs
        | some buf =>
          modify fun s => s.poke pa 0 n buf
          loadElfSegment file root va offset size rest

/-- The loop of `exec` over the program headers: the size of the program. -/
def loadProgram (file : ExecFile) (root : ℕ) : ℕ → ℕ → ℕ → VmM (Except ExecError ℕ)
  | 0, _, size => return .ok size
  | n + 1, offset, size => do
    match file (offset % 2 ^ 32) ProgramHeader.SIZE with
    -- unlike on the other paths, the page table is not freed here
    | none => return .error .memory
    | some buf =>
      let ph := ProgramHeader.fromBytes buf
      let offset ← usizeAdd offset ProgramHeader.SIZE
      if ph.type ≠ ProgramHeader.LOAD then loadProgram file root n offset size
      else if ¬ph.ok then
        Uvm.procFree A root size
        return .error .header
      else
        match ← Uvm.alloc A root size (ph.vaddr + ph.memsz) ph.getPerms with
        | .error _ =>
          Uvm.procFree A root size
          return .error .alloc
        | .ok size =>
          match ← loadElfSegment A file root ph.vaddr (ph.offset % 2 ^ 32) ph.filesz
              (List.range (stepCount 0 ph.filesz)) with
          | .error _ =>
            Uvm.procFree A root size
            return .error .memory
          | .ok _ => loadProgram file root n offset size

def abandon {α : Type} (root size : ℕ) (e : ExecError) : VmM (Except ExecError α) := do
  Uvm.procFree A root size
  return .error e

/-- The stack of the new program: its size with the stack, and the pages of the guard and the
stack. -/
def makeStack (root size : ℕ) : VmM (Except ExecError ℕ) := do
  let size ← pgRoundUp size
  let new ← usizeAdd size ((USERSTACK + 1) * PGSIZE)
  match ← Uvm.alloc A root size new PTE_W with
  | .error _ => abandon A root size .alloc
  | .ok size =>
    match ← Uvm.clear A root (size - (USERSTACK + 1) * PGSIZE) with
    | .error _ => abandon A root size .memory
    | .ok _ => return .ok size

/-- Copy bytes to the new stack, as a process of size `current`. -/
def push (root current : ℕ) (src : List UInt8) (dst : ℕ) : VmM Bool := do
  let (r, _) ← Uvm.copyTo A root current src dst
  return match r with
  | .ok _ => true
  | .error _ => false

/-- The loop of `exec` over the arguments: the stack pointer and the addresses of the strings. -/
def pushArgs (root size current stackbase : ℕ) :
    List (List UInt8) → ℕ → List ℕ → VmM (Except ExecError (ℕ × List ℕ))
  | [], sp, ustack => return .ok (sp, ustack)
  | arg :: argv, sp, ustack => do
    if MAXARG ≤ ustack.length then abandon A root size .memory
    else
      let sp ← usizeSub sp (arg.length + 1)
      let sp := sp - sp % 16
      if sp < stackbase then abandon A root size .memory
      else if ¬(← push A root current arg sp) then abandon A root size .memory
      else if ¬(← push A root current [0] (sp + arg.length)) then abandon A root size .memory
      else pushArgs root size current stackbase argv sp (ustack ++ [sp])

/-- The bytes of `ustack[..=argc]`. -/
def ustackBytes (ustack : List ℕ) : List UInt8 :=
  (ustack ++ [0]).flatMap fun a => (List.range 8).map fun i => UInt8.ofNat (a / 256 ^ i % 256)

/-- The arguments on the stack of the new program. -/
def pushStack (root size current : ℕ) (argv : List (List UInt8)) :
    VmM (Except ExecError ExecImage) := do
  let stackbase := size - USERSTACK * PGSIZE
  match ← pushArgs A root size current stackbase argv size [] with
  | .error e => return .error e
  | .ok (sp, ustack) =>
    -- `ustack[argc] = 0`
    if MAXARG ≤ ustack.length then throw .index
    else
      let sp ← usizeSub sp ((ustack.length + 1) * 8)
      let sp := sp - sp % 16
      if sp < stackbase then abandon A root size .memory
      else if ¬(← push A root current (ustackBytes ustack) sp) then abandon A root size .memory
      else return .ok ⟨root, size, sp, ustack.length⟩

/-- The new image of `exec`, by a process with this trapframe and of size `current`. -/
def image (file : ExecFile) (trapframe current : ℕ) (argv : List (List UInt8)) :
    VmM (Except ExecError ExecImage) := do
  match file 0 ElfHeader.SIZE with
  | none => return .error .read
  | some buf =>
    let elf := ElfHeader.fromBytes buf
    if elf.magic ≠ ELFMAGIC then return .error .elf
    else
      match ← Proc.createPagetable A trampoline trapframe with
      | .error _ => return .error .alloc
      | .ok root =>
        match ← loadProgram A file root elf.phnum elf.phoff 0 with
        | .error e => return .error e
        | .ok size =>
          match ← makeStack A root size with
          | .error e => return .error e
          | .ok size => pushStack A root size current argv

end Exec

/-- The memory side of `exec`. -/
def Proc.exec (A : Allocator) (trampoline : ℕ) (p : Fin NPROC) (file : ExecFile)
    (argv : List (List UInt8)) : MemM (Except ExecError ExecImage) := do
  let data ← getProc p
  match data.pagetable, data.trapframe with
  | some old, some trapframe =>
    match ← liftVm (Exec.image A trampoline file trapframe data.size argv) with
    | .error e => return .error e
    | .ok image =>
      updProc p fun d => { d with pagetable := some image.root, size := image.size }
      liftVm (Uvm.procFree A old data.size)
      return .ok image
  | _, _ => throw .null

end Octopos
