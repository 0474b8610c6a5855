import Octopos.Fs.Inode

/-!
# Directories and paths

Directory entries (`Directory` in `fs.rs`), the walk along a path (`Path::resolve_inner`), creation
of inodes and the way back from an inode to its path (`make_path`). Names and paths are byte
strings.
-/

namespace Octopos

abbrev Name := List UInt8

/-- The UTF-8 encoding of the character whose number is the byte. -/
def utf8 (b : UInt8) : Name :=
  if b < 128 then [b] else [(192 : UInt8) ||| (b >>> 6), (128 : UInt8) ||| (b &&& 63)]

def DIRENTSIZE : ℕ := 16

/-- `/` -/
def SLASH : UInt8 := 47

/-- `.` -/
def DOT : Name := [46]

/-- `..` -/
def DOTDOT : Name := [46, 46]

/-- A directory entry: an inode number, zero if the slot is empty, and a name up to its first zero
byte. -/
structure DirEntry where
  inum : UInt16
  name : Name
  deriving DecidableEq, Repr

namespace DirEntry

/-- The entry at offset `o`. -/
def load (b : Bytes) (o : ℕ) : DirEntry where
  inum := get16 b o
  name := ((List.range DIRSIZE).map fun j => b (o + 2 + j)).takeWhile (· ≠ 0)

/-- `Directory::new_empty`. -/
def empty : DirEntry := ⟨0, []⟩

/-- The bytes of an entry (`set_name`, `as_bytes`): the name is cut off at `DIRSIZE` bytes. -/
def bytes (e : DirEntry) : Bytes := fun i =>
  if i < 2 then leBytes e.inum.toNat i else (e.name.take DIRSIZE).getD (i - 2) 0

def src (e : DirEntry) : Src := ⟨e.bytes, DIRENTSIZE, none⟩

end DirEntry

/-- The offsets `(start..stop).step_by(SIZE)`. -/
def entryOffsets (start stop : ℕ) : List ℕ :=
  (List.range ((stop - start + (DIRENTSIZE - 1)) / DIRENTSIZE)).map fun k => start + DIRENTSIZE * k

namespace Directory

/-- `Directory::from_inode`. -/
def fromInode (sb : SuperBlock) (ip : Inode) (offset : ℕ) : FsM (Except FsError DirEntry) := do
  match ← ip.read sb offset DIRENTSIZE .kernel with
  | .error e => return .error e
  | .ok (n, buf) => if n ≠ DIRENTSIZE then throw .dirRead else return .ok (DirEntry.load buf 0)

/-- The loop of `Directory::is_empty`. -/
def isEmptyIn (sb : SuperBlock) (ip : Inode) : List ℕ → FsM Bool
  | [] => pure true
  | offset :: rest => do
    match ← fromInode sb ip offset with
    | .error _ => throw .dirIsEmpty
    | .ok dir => if dir.inum ≠ 0 then return false else isEmptyIn sb ip rest

/-- `Directory::is_empty`. -/
def isEmpty (sb : SuperBlock) (ip : Inode) : FsM Bool := do
  let inner ← getInner ip.id
  isEmptyIn sb ip (entryOffsets (2 * DIRENTSIZE) inner.size.toNat)

/-- The loop of `Directory::lookup`. -/
def lookupIn (sb : SuperBlock) (ip : Inode) (name : Name) :
    List ℕ → FsM (Except FsError (Option (ℕ × Inode)))
  | [] => pure (.ok none)
  | offset :: rest => do
    match ← fromInode sb ip offset with
    | .error e => return .error e
    | .ok dir =>
      if dir.inum = 0 then lookupIn sb ip name rest
      else if dir.name = name then
        -- entry matches path element
        match ← Inode.get dir.inum.toNat with
        | .error e => return .error e
        | .ok found => return .ok (some (offset, found))
      else lookupIn sb ip name rest

/-- `Directory::lookup`. -/
def lookup (sb : SuperBlock) (ip : Inode) (name : Name) :
    FsM (Except FsError (Option (ℕ × Inode))) := do
  let inner ← getInner ip.id
  if inner.type ≠ .directory then throw .notDir
  else lookupIn sb ip name (entryOffsets 0 inner.size.toNat)

/-- The search of `Directory::link` for an empty slot; `stop` if there is none. -/
def emptySlot (sb : SuperBlock) (ip : Inode) (stop : ℕ) : List ℕ → FsM (Except FsError ℕ)
  | [] => pure (.ok stop)
  | offset :: rest => do
    match ← fromInode sb ip offset with
    | .error e => return .error e
    | .ok dir => if dir.inum = 0 then return .ok offset else emptySlot sb ip stop rest

/-- The end of the search of `Directory::link`: the first offset past `size`. -/
def slotsEnd (size : ℕ) : ℕ := (size + (DIRENTSIZE - 1)) / DIRENTSIZE * DIRENTSIZE

/-- The end of `Directory::link`, when the name is not found. -/
def fill (sb : SuperBlock) (ip : Inode) (name : Name) (inum : UInt16) :
    FsM (Except FsError PUnit) := do
  let inner ← getInner ip.id
  match ← emptySlot sb ip (slotsEnd inner.size.toNat) (entryOffsets 0 inner.size.toNat) with
  | .error e => return .error e
  | .ok offset =>
    match ← ip.write sb offset (DirEntry.src ⟨inum, name⟩) with
    | .error e => return .error e
    | .ok n => if n ≠ DIRENTSIZE then return .error .link else return .ok ⟨⟩

/-- `Directory::link`: an error of the lookup counts as absence of the name. -/
def link (sb : SuperBlock) (ip : Inode) (name : Name) (inum : UInt16) :
    FsM (Except FsError PUnit) := do
  match ← lookup sb ip name with
  | .ok (some (_, found)) =>
    found.put sb
    return .error .link
  | _ => fill sb ip name inum

end Directory

namespace Path

/-- `Path::next_component`: the next component and the rest without leading slashes. -/
def nextComponent (path : Name) : Option (Name × Name) :=
  match path.dropWhile (· = SLASH) with
  | [] => none
  | s => some (s.takeWhile (· ≠ SLASH), (s.dropWhile (· ≠ SLASH)).dropWhile (· = SLASH))

/-- The loop of `Path::resolve_inner`. A path has fewer components than bytes, so its length plus
one bounds the steps. -/
def walk (sb : SuperBlock) (parent : Bool) :
    ℕ → Inode → Name → Name → FsM (Except FsError (Inode × Name))
  | 0, _, _, _ => throw .running
  | fuel + 1, inode, path, name =>
    match nextComponent path with
    | none =>
      if parent then do
        inode.put sb
        return .error .resolve
      else return .ok (inode, name)
    | some (component, rest) => do
      inode.lock sb
      let inner ← getInner inode.id
      if inner.type ≠ .directory then
        inode.unlockPut sb
        return .error .resolve
      else if parent ∧ rest = [] then
        -- stop one level early
        inode.unlock
        return .ok (inode, component)
      else
        match ← Directory.lookup sb inode component with
        | .ok (some (_, next)) =>
          inode.unlockPut sb
          walk sb parent fuel next rest component
        | .ok none =>
          inode.unlockPut sb
          return .error .resolve
        | .error e =>
          inode.unlockPut sb
          return .error e

/-- `Path::resolve_inner`, for a process with current directory `cwd`. -/
def resolveInner (sb : SuperBlock) (cwd : Inode) (path : Name) (parent : Bool) :
    FsM (Except FsError (Inode × Name)) := do
  if path.head? = some SLASH then
    match ← Inode.get ROOTINO with
    | .error e => return .error e
    | .ok root => walk sb parent (path.length + 1) root path []
  else
    let inode ← cwd.dup
    walk sb parent (path.length + 1) inode path []

/-- `Path::resolve`. -/
def resolve (sb : SuperBlock) (cwd : Inode) (path : Name) : FsM (Except FsError Inode) := do
  match ← resolveInner sb cwd path false with
  | .error e => return .error e
  | .ok (inode, _) => return .ok inode

/-- `Path::resolve_parent`. -/
def resolveParent (sb : SuperBlock) (cwd : Inode) (path : Name) :
    FsM (Except FsError (Inode × Name)) :=
  resolveInner sb cwd path true

end Path

/-! ## Creation -/

/-- Undo a creation: drop the new inode and the parent. -/
def Inode.createFail (sb : SuperBlock) (parent inode : Inode) : FsM (Except FsError Inode) := do
  modifyInner inode.id fun n => { n with nlink := 0 }
  inode.update sb
  inode.unlockPut sb
  parent.unlockPut sb
  return .error .create

/-- The end of `Inode::create`: name the new inode in its parent. -/
def Inode.createLink (sb : SuperBlock) (parent : Inode) (name : Name) (type : InodeType)
    (inode : Inode) : FsM (Except FsError Inode) := do
  match ← Directory.link sb parent name (UInt16.ofNat inode.inum) with
  | .error _ => Inode.createFail sb parent inode
  | .ok _ =>
    if type = .directory then
      -- success is now guaranteed
      modifyInner parent.id fun n => { n with nlink := n.nlink + 1 }
      parent.update sb
    parent.unlockPut sb
    return .ok inode

/-- The entries `.` and `..` of a new directory; there is no link for `.`. -/
def Inode.createDots (sb : SuperBlock) (parent inode : Inode) : FsM (Except FsError PUnit) := do
  match ← Directory.link sb inode DOT (UInt16.ofNat inode.inum) with
  | .error e => return .error e
  | .ok _ => Directory.link sb inode DOTDOT (UInt16.ofNat parent.inum)

/-- The part of `Inode::create` after the new inode is allocated. -/
def Inode.createInit (sb : SuperBlock) (parent : Inode) (name : Name) (type : InodeType)
    (major minor : UInt16) (inode : Inode) : FsM (Except FsError Inode) := do
  inode.lock sb
  modifyInner inode.id fun n => { n with major := major, minor := minor, nlink := 1 }
  inode.update sb
  if type = .directory then
    match ← Inode.createDots sb parent inode with
    | .error _ => Inode.createFail sb parent inode
    | .ok _ => Inode.createLink sb parent name type inode
  else Inode.createLink sb parent name type inode

/-- The part of `Inode::create` for a name that exists. -/
def Inode.createExisting (sb : SuperBlock) (parent : Inode) (type : InodeType) (inode : Inode) :
    FsM (Except FsError Inode) := do
  parent.unlockPut sb
  inode.lock sb
  let inner ← getInner inode.id
  -- check type matches
  if type = .file ∧ (inner.type = .file ∨ inner.type = .device) then return .ok inode
  else
    inode.unlockPut sb
    return .error .create

/-- `Inode::create`; the inode it returns is locked. -/
def Inode.create (sb : SuperBlock) (cwd : Inode) (path : Name) (type : InodeType)
    (major minor : UInt16) : FsM (Except FsError Inode) := do
  match ← Path.resolveParent sb cwd path with
  | .error e => return .error e
  | .ok (parent, name) =>
    parent.lock sb
    -- check if the file already exists
    match ← Directory.lookup sb parent name with
    | .ok (some (_, inode)) => Inode.createExisting sb parent type inode
    | _ =>
      match ← Inode.alloc sb type with
      | .error e =>
        parent.unlockPut sb
        return .error e
      | .ok inode => Inode.createInit sb parent name type major minor inode

/-! ## The path of a directory -/

/-- The search of `make_path` for the name of inode `inum` in its parent. -/
def nameIn (sb : SuperBlock) (parent : Inode) (inum : ℕ) :
    List ℕ → FsM (Except FsError (Option Name))
  | [] => pure (.ok none)
  | offset :: rest => do
    match ← Directory.fromInode sb parent offset with
    | .error e => return .error e
    | .ok dir =>
      if dir.inum.toNat = inum then
        if ByteArray.validateUTF8 ⟨⟨dir.name⟩⟩ then return .ok (some dir.name)
        else return .error .invalidName
      else nameIn sb parent inum rest

/-- The loop of `make_path`: `current` is locked, and `tail` is the path below it. Every turn goes
one directory up; the step bound is `fuel`. -/
def makePathLoop (sb : SuperBlock) : ℕ → Inode → Name → FsM (Except FsError Name)
  | 0, _, _ => throw .running
  | fuel + 1, current, tail =>
    if current.inum = ROOTINO then do
      current.unlock
      current.put sb
      return .ok (if tail = [] then [SLASH] else tail)
    else do
      match ← Directory.lookup sb current DOTDOT with
      | .ok (some (_, parent)) =>
        current.unlock
        parent.lock sb
        let inner ← getInner parent.id
        match ← nameIn sb parent current.inum (entryOffsets 0 inner.size.toNat) with
        | .error e =>
          parent.unlock
          parent.put sb
          current.put sb
          return .error e
        | .ok none =>
          parent.unlock
          current.put sb
          parent.put sb
          return .error .resolve
        | .ok (some name) =>
          parent.unlock
          current.put sb
          parent.lock sb
          makePathLoop sb fuel parent (SLASH :: name ++ tail)
      | .ok none =>
        current.unlock
        current.put sb
        return .error .outOfRange
      | .error e =>
        current.unlock
        current.put sb
        return .error e

/-- `make_path`. -/
def makePath (sb : SuperBlock) (fuel : ℕ) (inode : Inode) : FsM (Except FsError Name) := do
  inode.lock sb
  makePathLoop sb fuel inode []

end Octopos
