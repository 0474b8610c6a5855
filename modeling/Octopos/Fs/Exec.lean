import Octopos.Fs.Directory

/-!
# What `exec` reads

The part of `exec` (`exec.rs`) and of `load_elf_segment` (`vm.rs`) that works on the file system:
the executable is opened, its headers and its segments are read, and it is dropped again, in one
operation. The page table is not part of this model; whether its functions succeed is given.
-/

namespace Octopos

/-- Errors of `exec`. -/
inductive ExecError
  | alloc
  | elf
  | header
  | read
  | memory
  deriving DecidableEq, Repr

/-- Outcomes of the memory functions that `exec` calls. -/
structure ExecMemory where
  argv : Bool
  createPagetable : Bool
  alloc : ℕ → Bool
  walkAddr : ℕ → ℕ → Bool

def ELFMAGIC : ℕ := 0x464C457F

/-- The fields of the file header that `exec` reads. -/
structure ElfHeader where
  magic : ℕ
  phoff : ℕ
  phnum : ℕ

/-- `ElfHeader::SIZE` -/
def ElfHeader.SIZE : ℕ := 64

/-- `ElfHeader::from_bytes` -/
def ElfHeader.fromBytes (b : Bytes) : ElfHeader := ⟨leNat b 0 4, leNat b 32 8, leNat b 56 2⟩

/-- The fields of a program header that `exec` reads. -/
structure ProgramHeader where
  type : ℕ
  flags : ℕ
  offset : ℕ
  vaddr : ℕ
  filesz : ℕ
  memsz : ℕ

namespace ProgramHeader

/-- `ProgramHeader::SIZE` -/
def SIZE : ℕ := 56

/-- `ELF_PROG_LOAD` -/
def LOAD : ℕ := 1

/-- `ProgramHeader::from_bytes` -/
def fromBytes (b : Bytes) : ProgramHeader :=
  ⟨leNat b 0 4, leNat b 4 4, leNat b 8 8, leNat b 16 8, leNat b 32 8, leNat b 40 8⟩

/-- The checks on a segment that is to be loaded. -/
def ok (ph : ProgramHeader) : Bool :=
  ph.filesz ≤ ph.memsz && ph.vaddr + ph.memsz < USIZE && ph.vaddr % PGSIZE == 0

end ProgramHeader

section Exec

variable (sb : SuperBlock) (ip : Inode)

/-- `Inode::read` into a buffer of the kernel that is to be filled. -/
def readAll (offset len : ℕ) : FsM (Option Bytes) := do
  match ← ip.read sb offset len .kernel with
  | .ok (n, buf) => if n = len then return some buf else return none
  | .error _ => return none

/-- The loop of `load_elf_segment` over the pages of a segment. -/
def loadElfSegment (walkAddr : ℕ → Bool) (offset size : ℕ) : List ℕ → FsM Bool
  | [] => pure true
  | k :: rest => do
    if walkAddr k then
      match ← readAll sb ip ((offset + k * PGSIZE) % 2 ^ 32) (min PGSIZE (size - k * PGSIZE)) with
      | some _ => loadElfSegment walkAddr offset size rest
      | none => return false
    else return false

/-- The loop of `exec` over the program headers. -/
def loadProgram (mem : ExecMemory) (phoff : ℕ) : List ℕ → FsM (Except ExecError PUnit)
  | [] => pure (.ok ⟨⟩)
  | i :: rest => do
    match ← readAll sb ip ((phoff + i * ProgramHeader.SIZE) % 2 ^ 32) ProgramHeader.SIZE with
    | none => return .error .memory
    | some buf =>
      let ph := ProgramHeader.fromBytes buf
      if ph.type ≠ ProgramHeader.LOAD then loadProgram mem phoff rest
      else if ¬ph.ok then return .error .header
      else if ¬mem.alloc i then return .error .alloc
      else
        let pages := List.range ((ph.filesz + PGSIZE - 1) / PGSIZE)
        if ← loadElfSegment sb ip (mem.walkAddr i) (ph.offset % 2 ^ 32) ph.filesz pages then
          loadProgram mem phoff rest
        else return .error .memory

/-- The reads of `exec` from the executable. -/
def execRead (mem : ExecMemory) : FsM (Except ExecError PUnit) := do
  match ← readAll sb ip 0 ElfHeader.SIZE with
  | none => return .error .read
  | some buf =>
    let elf := ElfHeader.fromBytes buf
    -- make sure it's a valid elf file
    if elf.magic ≠ ELFMAGIC then return .error .elf
    else if ¬mem.createPagetable then return .error .alloc
    else loadProgram sb ip mem elf.phoff (List.range elf.phnum)

end Exec

/-- `exec` inside of its operation. -/
def execOp (sb : SuperBlock) (cwd : Inode) (path : Name) (mem : ExecMemory) :
    FsM (Except ExecError PUnit) := do
  match ← Path.resolve sb cwd path with
  | .error _ => return .error .read
  | .ok inode =>
    inode.lock sb
    let r ← execRead sb inode mem
    inode.unlockPut sb
    return r

end Octopos
