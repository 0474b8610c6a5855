import Octopos.Fs.Exec
import Octopos.Fs.File

/-!
# System calls on files

The system calls of `sysfile.rs`, with the part of `fork`, `exit` and `wait` that concerns files. A
system call is one step of the system. `sys_write` runs one operation for every few blocks; each of
these operations is a step of its own.
-/

namespace Octopos

/-! ## Arguments -/

/-- The loop of `fetch_string` at byte `i`; `mem` gives the bytes of the user memory that can be
read. -/
def fetchIn (mem : ℕ → Option UInt8) : ℕ → ℕ → Name → Except SysError Name
  | 0, _, result => .ok result
  | n + 1, i, result =>
    match mem i with
    | none => .error .badAddress
    | some b => if b = 0 then .ok result else fetchIn mem n (i + 1) (result ++ utf8 b)

/-- `fetch_string` of a path. -/
def fetchPath (mem : ℕ → Option UInt8) : Except SysError Name := fetchIn mem MAXPATH 0 []

/-! ## Links and names -/

/-- The part of `sys_link` that names the inode in the new parent. -/
def linkNew (sb : SuperBlock) (cwd : Inode) (new : Name) (old : Inode) :
    FsM (Except SysError ℕ) := do
  match ← Path.resolveParent sb cwd new with
  | .error _ => return .error .noEntry
  | .ok (parent, name) =>
    parent.lock sb
    match ← Directory.link sb parent name (UInt16.ofNat old.inum) with
    | .error e =>
      parent.unlockPut sb
      return .error (.fs e)
    | .ok _ =>
      parent.unlockPut sb
      return .ok 0

/-- `sys_link` inside its transaction. -/
def sysLinkOp (sb : SuperBlock) (cwd : Inode) (old new : Name) : FsM (Except SysError ℕ) := do
  match ← Path.resolve sb cwd old with
  | .error _ => return .error .noEntry
  | .ok inode =>
    inode.lock sb
    let inner ← getInner inode.id
    if inner.type = .directory then
      inode.unlockPut sb
      return .error .notPermitted
    else
      modifyInner inode.id fun n => { n with nlink := n.nlink + 1 }
      inode.update sb
      inode.unlock
      let result ← linkNew sb cwd new inode
      match result with
      | .ok _ => pure ⟨⟩
      | .error _ =>
        inode.lock sb
        modifyInner inode.id fun n => { n with nlink := n.nlink - 1 }
        inode.update sb
        inode.unlock
      inode.put sb
      return result

/-- The part of `sys_unlink` after the entry and its inode are found and both inodes are locked. -/
def unlinkEntry (sb : SuperBlock) (parent : Inode) (offset : ℕ) (inode : Inode) :
    FsM (Except SysError ℕ) := do
  match ← parent.write sb offset DirEntry.empty.src with
  | .error _ =>
    -- the inode is unlocked but keeps its reference
    inode.unlock
    parent.unlockPut sb
    return .error .ioError
  | .ok n =>
    if n ≠ DIRENTSIZE then throw .unlinkWrite
    else
      let inner ← getInner inode.id
      if inner.type = .directory then
        modifyInner parent.id fun n => { n with nlink := n.nlink - 1 }
        parent.update sb
      parent.unlockPut sb
      modifyInner inode.id fun n => { n with nlink := n.nlink - 1 }
      inode.update sb
      inode.unlockPut sb
      return .ok 0

/-- `sys_unlink` inside its transaction. -/
def sysUnlinkOp (sb : SuperBlock) (cwd : Inode) (path : Name) : FsM (Except SysError ℕ) := do
  match ← Path.resolveParent sb cwd path with
  | .error _ => return .error .noEntry
  | .ok (parent, name) =>
    parent.lock sb
    -- cannot unlink `.` or `..`
    if name = DOT ∨ name = DOTDOT then
      parent.unlockPut sb
      return .error .invalidArgument
    else
      match ← Directory.lookup sb parent name with
      | .ok (some (offset, inode)) =>
        inode.lock sb
        let inner ← getInner inode.id
        if inner.nlink < 1 then throw .unlinkNlink
        else
          let keep ← if inner.type = .directory then (!·) <$> Directory.isEmpty sb inode
            else pure false
          if keep then
            inode.unlockPut sb
            parent.unlockPut sb
            return .error .notEmpty
          else unlinkEntry sb parent offset inode
      | _ =>
        parent.unlockPut sb
        return .error .noEntry

namespace OpenFlag

def READ_ONLY : ℕ := 0x000
def WRITE_ONLY : ℕ := 0x001
def READ_WRITE : ℕ := 0x002
def CREATE : ℕ := 0x200
def TRUNCATE : ℕ := 0x400

/-- `o_mode & flag != 0` -/
def isSet (mode flag : ℕ) : Bool := mode &&& flag != 0

end OpenFlag

/-- The first half of `sys_open`: find or create the inode, which is returned locked. -/
def openInode (sb : SuperBlock) (cwd : Inode) (path : Name) (mode : ℕ) :
    FsM (Except SysError Inode) := do
  if OpenFlag.isSet mode OpenFlag.CREATE then
    match ← Inode.create sb cwd path .file 0 0 with
    | .error e => return .error (.fs e)
    | .ok inode => return .ok inode
  else
    match ← Path.resolve sb cwd path with
    | .error _ => return .error .noEntry
    | .ok inode =>
      inode.lock sb
      let inner ← getInner inode.id
      -- if it is a directory, cannot open with write mode
      if inner.type = .directory ∧ mode ≠ OpenFlag.READ_ONLY then
        inode.unlockPut sb
        return .error .isDirectory
      else return .ok inode

/-- `sys_mkdir` and `sys_mknod` inside of their operation, behind the fetch of the path. -/
def sysMakeOp (sb : SuperBlock) (cwd : Inode) (path : Name) (type : InodeType)
    (major minor : UInt16) : FsM (Except SysError ℕ) := do
  match ← Inode.create sb cwd path type major minor with
  | .error e => return .error (.fs e)
  | .ok inode =>
    inode.unlockPut sb
    return .ok 0

/-- `sys_chdir` inside of its operation, up to the change of the directory. -/
def chdirOp (sb : SuperBlock) (cwd : Inode) (path : Name) : FsM (Except SysError Inode) := do
  match ← Path.resolve sb cwd path with
  | .error _ => return .error .noEntry
  | .ok inode =>
    inode.lock sb
    let inner ← getInner inode.id
    if inner.type ≠ .directory then
      inode.unlockPut sb
      return .error .notDirectory
    else
      inode.unlock
      return .ok inode

/-- `sys_pwd` inside of its operation: the path of the current directory. A path that is longer than
the buffer of the user, or a fault, leaves everything as it is. -/
def pwdOp (sb : SuperBlock) (cwd : Inode) (fuel : ℕ) : FsM (Except FsError Name) := do
  let inode ← cwd.dup
  makePath sb fuel inode

/-- What `sys_open` makes of a file that it allocated. -/
def FileSlot.opened (x : FileSlot) (mode : ℕ) (inode : Inode) (inner : InodeInner) : FileSlot :=
  { x with
    type := if inner.type = .device then .device inode inner.major else .inode inode
    offset := if inner.type = .device then x.offset else 0
    readable := !OpenFlag.isSet mode OpenFlag.WRITE_ONLY
    writeable :=
      OpenFlag.isSet mode OpenFlag.WRITE_ONLY || OpenFlag.isSet mode OpenFlag.READ_WRITE }

section Calls

variable {P : Type} [DecidableEq P] (sb : SuperBlock) (p : P)

/-- The second half of `sys_open`: allocate a file and a descriptor. -/
def openFile (mode : ℕ) (inode : Inode) : SysM P (Except SysError ℕ) := do
  let inner ← onFs (getInner inode.id)
  if inner.type = .device ∧ NDEV ≤ inner.major.toNat then
    onFs (inode.unlockPut sb)
    return .error .noEntry
  else
    match ← File.alloc with
    | .error e =>
      onFs (inode.unlockPut sb)
      return .error (.fs e)
    | .ok f =>
      match ← fdAlloc p f with
      | .error e =>
        -- if err here, we must also close the file
        File.close sb f
        onFs (inode.unlockPut sb)
        return .error e
      | .ok fd =>
        let s ← get
        setFile f ((s.ftable f).opened mode inode inner)
        if OpenFlag.isSet mode OpenFlag.TRUNCATE ∧ inner.type = .file then onFs (inode.trunc sb)
        onFs inode.unlock
        return .ok fd.val

/-- `sys_open` -/
def sysOpen (path : ℕ → Option UInt8) (mode : ℕ) : SysM P (Except SysError ℕ) := do
  match fetchPath path with
  | .error e => return .error e
  | .ok path =>
    let s ← get
    withOp do
      match ← onFs (openInode sb (s.procs p).cwd path mode) with
      | .error e => return .error e
      | .ok inode => openFile sb p mode inode

/-- A system call that fetches a path inside of its operation. -/
def withPath {α : Type} (path : ℕ → Option UInt8) (op : Name → SysM P (Except SysError α)) :
    SysM P (Except SysError α) :=
  withOp do
    match fetchPath path with
    | .error e => return .error e
    | .ok path => op path

/-- `sys_mkdir` -/
def sysMkdir (path : ℕ → Option UInt8) : SysM P (Except SysError ℕ) := do
  let s ← get
  withPath path fun path => onFs (sysMakeOp sb (s.procs p).cwd path .directory 0 0)

/-- `sys_mknod` -/
def sysMknod (path : ℕ → Option UInt8) (major minor : UInt16) : SysM P (Except SysError ℕ) := do
  let s ← get
  withPath path fun path => onFs (sysMakeOp sb (s.procs p).cwd path .device major minor)

/-- `sys_link` -/
def sysLink (old new : ℕ → Option UInt8) : SysM P (Except SysError ℕ) := do
  match fetchPath old with
  | .error e => return .error e
  | .ok old =>
    match fetchPath new with
    | .error e => return .error e
    | .ok new =>
      let s ← get
      withOp (onFs (sysLinkOp sb (s.procs p).cwd old new))

/-- `sys_unlink` -/
def sysUnlink (path : ℕ → Option UInt8) : SysM P (Except SysError ℕ) := do
  match fetchPath path with
  | .error e => return .error e
  | .ok path =>
    let s ← get
    withOp (onFs (sysUnlinkOp sb (s.procs p).cwd path))

/-- `sys_chdir` -/
def sysChdir (path : ℕ → Option UInt8) : SysM P (Except SysError ℕ) := do
  let s ← get
  let x := s.procs p
  withPath path fun path => do
    match ← onFs (chdirOp sb x.cwd path) with
    | .error e => return .error e
    | .ok inode =>
      setProc p { x with cwd := inode }
      onFs (x.cwd.put sb)
      return .ok 0

/-- `sys_pwd` -/
def sysPwd (fuel : ℕ) : SysM P (Except FsError Name) := do
  let s ← get
  withOp (onFs (pwdOp sb (s.procs p).cwd fuel))

/-- `sys_exec` -/
def sysExec (path : ℕ → Option UInt8) (mem : ExecMemory) : SysM P PUnit := do
  match fetchPath path with
  | .error _ => pure ⟨⟩
  | .ok path =>
    if mem.argv then
      let s ← get
      let _ ← withOp (onFs (execOp sb (s.procs p).cwd path mem))

/-- A system call on the file of a descriptor (`get_file`). -/
def withFile {α : Type} (fd : Fin NOFILE) (op : Fin NFILE → SysM P (Except SysError α)) :
    SysM P (Except SysError α) := do
  let s ← get
  match (s.procs p).files fd with
  | none => return .error .badDescriptor
  | some f => op f

/-- `sys_close` -/
def sysClose (fd : Fin NOFILE) : SysM P (Except SysError ℕ) :=
  withFile p fd fun f => do
    setFd p fd none
    File.close sb f
    return .ok 0

/-- `sys_dup` -/
def sysDup (fd : Fin NOFILE) : SysM P (Except SysError ℕ) :=
  withFile p fd fun f => do
    match ← fdAlloc p f with
    | .error e => return .error e
    | .ok fd' =>
      File.dup f
      return .ok fd'.val

/-- `sys_pipe`; `accessible` tells whether the user memory can be written. -/
def sysPipe (memory accessible : Bool) : SysM P (Except SysError ℕ) := do
  match ← Pipe.alloc sb memory with
  | .error e => return .error (.fs e)
  | .ok (read, write) =>
    match ← fdAlloc p read with
    | .error _ =>
      File.close sb read
      File.close sb write
      return .error .tooManyFiles
    | .ok fd0 =>
      match ← fdAlloc p write with
      | .error _ =>
        setFd p fd0 none
        File.close sb read
        File.close sb write
        return .error .tooManyFiles
      | .ok fd1 =>
        if accessible then return .ok 0
        else
          setFd p fd0 none
          setFd p fd1 none
          File.close sb read
          File.close sb write
          return .error .badAddress

/-- Share one descriptor of `p` with the child `c`. -/
def forkFd (c : P) (fd : Fin NOFILE) : SysM P PUnit := do
  let s ← get
  match (s.procs p).files fd with
  | none => pure ⟨⟩
  | some f =>
    File.dup f
    setFd c fd (some f)

/-- The files of `fork`: the child `c` shares them. There may be no free slot or no memory for the
child; then nothing happens. -/
def fork (c : P) (memory : Bool) : SysM P PUnit := do
  let s ← get
  if (s.procs c).use = .unused ∧ memory then
    (List.finRange NOFILE).forM (forkFd p c)
    let cwd ← onFs (s.procs p).cwd.dup
    let s ← get
    setProc c { s.procs c with use := .live, cwd := cwd }

/-- Close one descriptor of an exiting process. -/
def exitFd (fd : Fin NOFILE) : SysM P PUnit := do
  let s ← get
  match (s.procs p).files fd with
  | none => pure ⟨⟩
  | some f =>
    setFd p fd none
    File.close sb f

/-- The files of `exit`. -/
def exit : SysM P PUnit := do
  (List.finRange NOFILE).forM (exitFd sb p)
  let s ← get
  withOp (onFs ((s.procs p).cwd.put sb))
  let s ← get
  setProc p { s.procs p with use := .zombie }

/-- The slot of a child that `wait` returns. -/
def wait (c : P) : SysM P PUnit := do
  let s ← get
  if (s.procs c).use = .zombie then setProc c { s.procs c with use := .unused }

end Calls

/-! ## The system -/

/-- What a process can do. A path is given by the user memory that holds it. -/
inductive FsAction (P : Type)
  | open (path : ℕ → Option UInt8) (mode : ℕ)
  | mkdir (path : ℕ → Option UInt8)
  | mknod (path : ℕ → Option UInt8) (major minor : UInt16)
  | link (old new : ℕ → Option UInt8)
  | unlink (path : ℕ → Option UInt8)
  | chdir (path : ℕ → Option UInt8)
  | pwd (fuel : ℕ)
  | exec (path : ℕ → Option UInt8) (mem : ExecMemory)
  | pipe (memory accessible : Bool)
  | close (fd : Fin NOFILE)
  | dup (fd : Fin NOFILE)
  | fstat (fd : Fin NOFILE) (accessible : Bool)
  | read (fd : Fin NOFILE) (len accessible : ℕ)
  | write (fd : Fin NOFILE) (data : Bytes) (len accessible : ℕ)
  | fork (child : P) (memory : Bool)
  | exit
  | wait (child : P)

section Steps

variable {P : Type} [DecidableEq P]

/-- The system call `a` of process `p`. -/
def sysCall (sb : SuperBlock) (p : P) : FsAction P → SysM P PUnit
  | .open path mode => do let _ ← sysOpen sb p path mode
  | .mkdir path => do let _ ← sysMkdir sb p path
  | .mknod path major minor => do let _ ← sysMknod sb p path major minor
  | .link old new => do let _ ← sysLink sb p old new
  | .unlink path => do let _ ← sysUnlink sb p path
  | .chdir path => do let _ ← sysChdir sb p path
  | .pwd fuel => do let _ ← sysPwd sb p fuel
  | .exec path mem => sysExec sb p path mem
  | .pipe memory accessible => do let _ ← sysPipe sb p memory accessible
  | .close fd => do let _ ← sysClose sb p fd
  | .dup fd => do let _ ← sysDup p fd
  | .fstat fd accessible => do let _ ← withFile p fd fun f => File.stat sb f accessible
  | .read fd len accessible => do let _ ← withFile p fd fun f => File.read sb f len accessible
  | .write fd data len accessible => do
    let _ ← withFile p fd fun f => File.writeChunk sb f ⟨data, len, some accessible⟩
  | .fork child memory => fork p child memory
  | .exit => exit sb p
  | .wait child => wait child

/-- One system call; `none` if the process is not alive or the kernel panics. -/
def Sys.next (sb : SuperBlock) (s : Sys P) (l : P × FsAction P) : Option (Sys P) :=
  if (s.procs l.1).use = .live then
    match (sysCall sb l.1 l.2).run s with
    | .ok (_, s') => some s'
    | .error _ => none
  else none

def Sys.Step (sb : SuperBlock) (s : Sys P) (l : P × FsAction P) (s' : Sys P) : Prop :=
  s.next sb l = some s'

/-- Before the first system call, no file is open. -/
structure Sys.Init (s : Sys P) : Prop where
  files : ∀ p fd, (s.procs p).files fd = none
  closed : ∀ f, (s.ftable f).ref = 0 ∧ (s.ftable f).type = .none
  pipes : s.pipeCount = 0
  idle : s.inOp = false

/-- A system in which process `init` is the only one. -/
def Sys.boot (fs : Fs) (init : P) (cwd : Inode) : Sys P where
  fs := fs
  ftable _ := {}
  pipes _ := ⟨false, false⟩
  pipeCount := 0
  procs p := { use := if p = init then .live else .unused, cwd := cwd, files := fun _ => none }
  inOp := false

theorem Sys.init_boot (fs : Fs) (init : P) (cwd : Inode) : (Sys.boot fs init cwd).Init :=
  ⟨fun _ _ => rfl, fun _ => ⟨rfl, rfl⟩, rfl, rfl⟩

end Steps

end Octopos
