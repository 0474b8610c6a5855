import Octopos.Fs.Directory
import Octopos.Lib.Run

/-!
# The file table

The file table and the ends of pipes (`file.rs`, `pipe.rs`), with the current directory and the
descriptors of the processes. A process slot that is free or belongs to a zombie keeps what the last
process left in it.
-/

namespace Octopos

/-- Errors of system calls; `fs` stands for the conversion of a file system error. -/
inductive SysError
  | noEntry
  | notPermitted
  | invalidArgument
  | notEmpty
  | ioError
  | isDirectory
  | notDirectory
  | tooManyFiles
  | badDescriptor
  | badAddress
  | fs (e : FsError)
  deriving DecidableEq, Repr

/-- Why the kernel stops in a system call. -/
inductive SysPanic
  | fs (e : FsPanic)
  /-- "filedup" -/
  | fileDup
  /-- "fileclose" -/
  | fileClose
  /-- "fileread" -/
  | fileRead
  /-- "filewrite" -/
  | fileWrite
  | nested
  deriving DecidableEq, Repr

/-- What an open file refers to. -/
inductive FileType
  | none
  | pipe (id : ℕ)
  | inode (ip : Inode)
  | device (ip : Inode) (major : UInt16)
  deriving DecidableEq

/-- A slot of the file table. -/
structure FileSlot where
  ref : ℕ := 0
  readable : Bool := false
  writeable : Bool := false
  type : FileType := .none
  offset : ℕ := 0
  deriving DecidableEq

/-- Which ends of a pipe are open. -/
structure PipeEnds where
  readOpen : Bool
  writeOpen : Bool
  deriving DecidableEq

/-- Use of a process slot. -/
inductive ProcUse
  | unused
  | live
  | zombie
  deriving DecidableEq

/-- The files of a process slot. -/
structure FsProc where
  use : ProcUse
  cwd : Inode
  files : Fin NOFILE → Option (Fin NFILE)
  deriving DecidableEq

/-- The file system, the file table and the processes. -/
structure Sys (P : Type) where
  fs : Fs
  ftable : Fin NFILE → FileSlot
  pipes : ℕ → PipeEnds
  pipeCount : ℕ
  procs : P → FsProc
  inOp : Bool

instance : NeZero NFILE := ⟨by decide⟩

instance : NeZero NOFILE := ⟨by decide⟩

abbrev SysM (P : Type) := Prog SysPanic (Sys P)

section Files

variable {P : Type} [DecidableEq P]

def onFs {α : Type} (m : FsM α) : SysM P α := fun s =>
  match m.run s.fs with
  | .ok (a, fs) => .ok (a, { s with fs := fs })
  | .error e => .error (.fs e)

/-- Run inside of an operation (`Operation::begin` and its drop). -/
def withOp {α : Type} (m : SysM P α) : SysM P α := do
  let s ← get
  if s.inOp then throw .nested
  else
    set { s with inOp := true }
    onFs Log.beginOp
    let r ← m
    onFs Log.endOp
    modify fun s => { s with inOp := false }
    return r

def setFile (f : Fin NFILE) (x : FileSlot) : SysM P PUnit :=
  modify fun s => { s with ftable := upd s.ftable f x }

def setProc (p : P) (x : FsProc) : SysM P PUnit :=
  modify fun s => { s with procs := upd s.procs p x }

/-- Change an entry of the descriptor table of `p`. -/
def setFd (p : P) (fd : Fin NOFILE) (f : Option (Fin NFILE)) : SysM P PUnit := do
  let s ← get
  setProc p { s.procs p with files := upd (s.procs p).files fd f }

/-- `Pipe::close` -/
def Pipe.close (id : ℕ) (writeable : Bool) : SysM P PUnit :=
  modify fun s =>
    { s with
      pipes := upd s.pipes id
        (if writeable then { s.pipes id with writeOpen := false }
        else { s.pipes id with readOpen := false }) }

namespace File

/-- `File::alloc` -/
def alloc : SysM P (Except FsError (Fin NFILE)) := do
  let s ← get
  match (List.finRange NFILE).find? fun f => (s.ftable f).ref == 0 with
  | some f =>
    setFile f { s.ftable f with ref := 1 }
    return .ok f
  | none => return .error .outOfFile

/-- `File::dup` -/
def dup (f : Fin NFILE) : SysM P PUnit := do
  let s ← get
  if (s.ftable f).ref < 1 then throw .fileDup
  else setFile f { s.ftable f with ref := (s.ftable f).ref + 1 }

/-- `File::close` -/
def close (sb : SuperBlock) (f : Fin NFILE) : SysM P PUnit := do
  let s ← get
  let x := s.ftable f
  if x.ref < 1 then throw .fileClose
  else if 0 < x.ref - 1 then setFile f { x with ref := x.ref - 1 }
  else
    setFile f { x with ref := 0, type := .none }
    match x.type with
    | .none => pure ⟨⟩
    | .pipe id => Pipe.close id x.writeable
    | .inode ip => withOp (onFs (ip.put sb))
    | .device ip _ => withOp (onFs (ip.put sb))

/-- `File::stat`; `accessible` tells whether the user memory can be written. -/
def stat (sb : SuperBlock) (f : Fin NFILE) (accessible : Bool) :
    SysM P (Except SysError PUnit) := do
  let s ← get
  match (s.ftable f).type with
  | .inode ip | .device ip _ =>
    onFs (ip.lock sb)
    onFs ip.unlock
    if accessible then return .ok ⟨⟩ else return .error .badAddress
  | _ => return .error .badDescriptor

/-- `File::read`; devices and pipes do not concern the file system. -/
def read (sb : SuperBlock) (f : Fin NFILE) (len accessible : ℕ) : SysM P (Except SysError ℕ) := do
  let s ← get
  let x := s.ftable f
  if ¬x.readable then return .error .badDescriptor
  else
    match x.type with
    | .none => throw .fileRead
    | .pipe _ => return .ok 0
    | .device _ _ => return .ok 0
    | .inode ip =>
      onFs (ip.lock sb)
      let r ← onFs (ip.read sb x.offset len (.user accessible))
      match r with
      | .ok (n, _) =>
        setFile f { x with offset := x.offset + n }
        onFs ip.unlock
        return .ok n
      | .error _ =>
        onFs ip.unlock
        return .error .ioError

/-- Most bytes that one operation of `File::write` writes. -/
def WRITEMAX : ℕ := (MAXOPBLOCKS - 1 - 1 - 2) / 2 * BSIZE

/-- One turn of the loop of `File::write`: an operation that writes at most `WRITEMAX` bytes. -/
def writeChunk (sb : SuperBlock) (f : Fin NFILE) (src : Src) : SysM P (Except SysError ℕ) := do
  let s ← get
  let x := s.ftable f
  if ¬x.writeable then return .error .badDescriptor
  else
    match x.type with
    | .none => throw .fileWrite
    | .pipe _ => return .ok 0
    | .device _ _ => return .ok 0
    | .inode ip =>
      if src.length = 0 then return .ok 0
      else
        withOp do
          onFs (ip.lock sb)
          let r ← onFs (ip.write sb x.offset { src with length := min src.length WRITEMAX })
          match r with
          | .ok n =>
            setFile f { x with offset := x.offset + n }
            onFs ip.unlock
            return .ok n
          | .error _ =>
            onFs ip.unlock
            return .error .ioError

end File

/-- `Pipe::alloc`; `memory` tells whether there is memory for the pipe. -/
def Pipe.alloc (sb : SuperBlock) (memory : Bool) :
    SysM P (Except FsError (Fin NFILE × Fin NFILE)) := do
  match ← File.alloc with
  | .error e => return .error e
  | .ok f0 =>
    match ← File.alloc with
    | .error e =>
      File.close sb f0
      return .error e
    | .ok f1 =>
      if memory then
        let s ← get
        set { s with
          pipes := upd s.pipes s.pipeCount ⟨true, true⟩
          pipeCount := s.pipeCount + 1
          ftable := upd
            (upd s.ftable f0
              { s.ftable f0 with type := .pipe s.pipeCount, readable := true, writeable := false })
            f1 { s.ftable f1 with type := .pipe s.pipeCount, readable := false, writeable := true } }
        return .ok (f0, f1)
      else
        File.close sb f0
        File.close sb f1
        return .error .outOfPipe

/-- `fd_alloc` -/
def fdAlloc (p : P) (f : Fin NFILE) : SysM P (Except SysError (Fin NOFILE)) := do
  let s ← get
  match (List.finRange NOFILE).find? fun fd => ((s.procs p).files fd).isNone with
  | some fd =>
    setFd p fd (some f)
    return .ok fd
  | none => return .error .tooManyFiles

end Files

end Octopos
