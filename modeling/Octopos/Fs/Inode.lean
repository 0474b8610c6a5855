import Octopos.Fs.Block

/-!
# Inodes

The inode layer of `fs.rs`: the inode table (`get`, `dup`, `lock`, `put`), allocation of inodes and
of their blocks (`alloc`, `map`, `trunc`), and reading and writing of contents.
-/

namespace Octopos

namespace InodeType

/-- The number that stands for the type on the disk. -/
def toU16 : InodeType → UInt16
  | free => 0
  | directory => 1
  | file => 2
  | device => 3

/-- The type that a number on the disk stands for; other numbers do not occur. -/
def ofU16 (n : UInt16) : InodeType :=
  if n = 1 then directory else if n = 2 then file else if n = 3 then device else free

end InodeType

namespace InodeInner

/-- The inode at offset `o` of an inode block. -/
def load (b : Bytes) (o : ℕ) : InodeInner where
  type := InodeType.ofU16 (get16 b o)
  major := get16 b (o + 2)
  minor := get16 b (o + 4)
  nlink := get16 b (o + 6)
  size := get32 b (o + 8)
  addrs := fun k => get32 b (o + 12 + 4 * k.val)

def bytes (n : InodeInner) : Bytes := fun j =>
  if j < 2 then leBytes n.type.toU16.toNat j
  else if j < 4 then leBytes n.major.toNat (j - 2)
  else if j < 6 then leBytes n.minor.toNat (j - 4)
  else if j < 8 then leBytes n.nlink.toNat (j - 6)
  else if j < 12 then leBytes n.size.toNat (j - 8)
  else if h : (j - 12) / 4 < NDIRECT + 1 then leBytes (n.addrs ⟨(j - 12) / 4, h⟩).toNat (j % 4)
  else 0

/-- Store the inode at offset `o` of an inode block. -/
def store (n : InodeInner) (b : Bytes) (o : ℕ) : Bytes := blit b o DINODESIZE n.bytes

end InodeInner

/-- Block of inode `inum`. -/
def SuperBlock.inodeBlock (sb : SuperBlock) (inum : ℕ) : ℕ := sb.inodestart + inum / IPB

/-- Offset of inode `inum` in its block (`DiskInode::from_buf`). -/
def inodeOffset (inum : ℕ) : ℕ := inum % IPB * DINODESIZE

/-! ## The inode table -/

def Fs.setSlot (s : Fs) (id : Fin NINODE) (x : Slot) : Fs :=
  { s with itable := upd s.itable id x }

def modifySlot (id : Fin NINODE) (f : Slot → Slot) : FsM PUnit :=
  modify fun s => s.setSlot id (f (s.itable id))

def modifyInner (id : Fin NINODE) (f : InodeInner → InodeInner) : FsM PUnit :=
  modifySlot id fun x => { x with inner := f x.inner }

def getInner (id : Fin NINODE) : FsM InodeInner := do
  let s ← get
  return (s.itable id).inner

namespace Inode

/-- `Inode::get`. -/
def get (inum : ℕ) : FsM (Except FsError Inode) := do
  let s ← MonadState.get
  match (List.finRange NINODE).find? fun id =>
      0 < (s.itable id).ref && (s.itable id).inum == inum with
  | some id =>
    modifySlot id fun x => { x with ref := x.ref + 1 }
    return .ok ⟨id, inum⟩
  | none =>
    match (List.finRange NINODE).find? fun id => (s.itable id).ref == 0 with
    | some id =>
      modifySlot id fun x => { x with ref := 1, inum := inum, valid := false }
      return .ok ⟨id, inum⟩
    | none => return .error .outOfInode

/-- The loop of `Inode::alloc` over the inode numbers. -/
def allocIn (sb : SuperBlock) (type : InodeType) : List ℕ → FsM (Except FsError Inode)
  | [] => pure (.error .outOfInode)
  | inum :: rest => do
    let buf ← BCache.read (sb.inodeBlock inum)
    if (InodeInner.load buf (inodeOffset inum)).type = .free then
      BCache.edit (sb.inodeBlock inum) fun c => set16 c (inodeOffset inum) type.toU16
      Log.write sb (sb.inodeBlock inum)
      BCache.release (sb.inodeBlock inum)
      Inode.get inum
    else
      BCache.release (sb.inodeBlock inum)
      allocIn sb type rest

/-- `Inode::alloc`. -/
def alloc (sb : SuperBlock) (type : InodeType) : FsM (Except FsError Inode) :=
  allocIn sb type (List.range' 1 (sb.ninodes - 1))

/-- `Inode::update`. -/
def update (sb : SuperBlock) (ip : Inode) : FsM PUnit := do
  let inner ← getInner ip.id
  let _ ← BCache.read (sb.inodeBlock ip.inum)
  BCache.edit (sb.inodeBlock ip.inum) fun c => inner.store c (inodeOffset ip.inum)
  Log.write sb (sb.inodeBlock ip.inum)
  BCache.release (sb.inodeBlock ip.inum)

/-- `Inode::dup`. -/
def dup (ip : Inode) : FsM Inode := do
  modifySlot ip.id fun x => { x with ref := x.ref + 1 }
  return ip

/-- `Inode::lock`. -/
def lock (sb : SuperBlock) (ip : Inode) : FsM PUnit := do
  let s ← MonadState.get
  if (s.itable ip.id).locked then throw .deadlock
  else
    modifySlot ip.id fun x => { x with locked := true }
    if (s.itable ip.id).valid then pure ⟨⟩
    else
      let buf ← BCache.read (sb.inodeBlock ip.inum)
      let inner := InodeInner.load buf (inodeOffset ip.inum)
      modifySlot ip.id fun x => { x with inner := inner, valid := true }
      BCache.release (sb.inodeBlock ip.inum)
      if inner.type = .free then throw .noType else pure ⟨⟩

/-- `Inode::unlock`. -/
def unlock (ip : Inode) : FsM PUnit := modifySlot ip.id fun x => { x with locked := false }

/-! ## Blocks of an inode -/

/-- Free a direct block of `Inode::trunc`. -/
def freeDirect (sb : SuperBlock) (ip : Inode) (k : Fin (NDIRECT + 1)) : FsM PUnit := do
  let inner ← getInner ip.id
  if inner.addrs k ≠ 0 then
    Block.free sb (inner.addrs k).toNat
    modifyInner ip.id fun n => { n with addrs := upd n.addrs k 0 }

/-- Free a block listed in the indirect block. -/
def freeListed (sb : SuperBlock) (buf : Bytes) (k : ℕ) : FsM PUnit :=
  if get32 buf (4 * k) ≠ 0 then Block.free sb (get32 buf (4 * k)).toNat else pure ⟨⟩

/-- `Inode::trunc`. -/
def trunc (sb : SuperBlock) (ip : Inode) : FsM PUnit := do
  (List.finRange NDIRECT).forM fun k => freeDirect sb ip k.castSucc
  let inner ← getInner ip.id
  let indirect := inner.addrs (Fin.last NDIRECT)
  if indirect ≠ 0 then
    let buf ← BCache.read indirect.toNat
    (List.range NINDIRECT).forM (freeListed sb buf)
    BCache.release indirect.toNat
    freeDirect sb ip (Fin.last NDIRECT)
  modifyInner ip.id fun n => { n with size := 0 }
  update sb ip

/-- The address `addrs[k]`, allocating a block if there is none. -/
def mapDirect (sb : SuperBlock) (ip : Inode) (k : Fin (NDIRECT + 1)) :
    FsM (Except FsError ℕ) := do
  let inner ← getInner ip.id
  if inner.addrs k = 0 then
    match ← Block.alloc sb with
    | .error e => return .error e
    | .ok b =>
      modifyInner ip.id fun n => { n with addrs := upd n.addrs k (UInt32.ofNat b) }
      return .ok b
  else return .ok (inner.addrs k).toNat

/-- `Inode::map`. -/
def map (sb : SuperBlock) (ip : Inode) (blockNo : ℕ) : FsM (Except FsError ℕ) := do
  if h : blockNo < NDIRECT then
    mapDirect sb ip ⟨blockNo, by omega⟩
  else if blockNo - NDIRECT < NINDIRECT then
    -- load indirect block, allocating if necessary
    match ← mapDirect sb ip (Fin.last NDIRECT) with
    | .error e => return .error e
    | .ok indirect =>
      let k := blockNo - NDIRECT
      let buf ← BCache.read indirect
      if get32 buf (4 * k) = 0 then
        match ← Block.alloc sb with
        -- the buffer of the indirect block is not released here
        | .error e => return .error e
        | .ok b =>
          BCache.edit indirect fun c => set32 c (4 * k) (UInt32.ofNat b)
          Log.write sb indirect
          BCache.release indirect
          return .ok b
      else
        BCache.release indirect
        return .ok (get32 buf (4 * k)).toNat
  else return .error .outOfRange

/-- `Inode::put`: the last reference to an inode without links frees it. -/
def put (sb : SuperBlock) (ip : Inode) : FsM PUnit := do
  let s ← MonadState.get
  let x := s.itable ip.id
  if x.ref = 1 then
    if x.locked then throw .deadlock
    else if x.valid = true ∧ x.inner.nlink = 0 then
      modifySlot ip.id fun x => { x with locked := true }
      trunc sb ip
      modifyInner ip.id fun n => { n with type := .free }
      update sb ip
      modifySlot ip.id fun x => { x with valid := false, locked := false }
  modifySlot ip.id fun x => { x with ref := x.ref - 1 }

/-- `Inode::unlock_put`. -/
def unlockPut (sb : SuperBlock) (ip : Inode) : FsM PUnit := do
  ip.unlock
  ip.put sb

end Inode

/-- The destination of a read: kernel memory, or user memory of which a number of bytes is
accessible. -/
inductive Dst
  | kernel
  | user (accessible : ℕ)

/-- Whether the first `n` bytes of the destination can be written. -/
def Dst.accepts (n : ℕ) : Dst → Bool
  | .kernel => true
  | .user accessible => n ≤ accessible

/-- The source of a write: bytes in kernel memory, or in user memory of which a number of bytes is
accessible. -/
structure Src where
  data : Bytes
  length : ℕ
  user : Option ℕ

namespace Inode

/-- The loop of `Inode::read`, `rest` bytes before its end: the bytes read so far are `out`, and
`total` is their number. The step bound is `fuel`. -/
def readLoop (sb : SuperBlock) (ip : Inode) (dst : Dst) :
    ℕ → ℕ → ℕ → ℕ → Bytes → FsM (Except FsError (ℕ × Bytes))
  | 0, _, _, _, _ => throw .running
  | fuel + 1, offset, rest, total, out =>
    if rest = 0 then return .ok (total, out)
    else do
      match ← map sb ip (offset / BSIZE) with
      | .error _ => return .ok (total, out)
      | .ok addr =>
        let buf ← BCache.read addr
        let m := min rest (BSIZE - offset % BSIZE)
        if dst.accepts (total + m) then
          BCache.release addr
          readLoop sb ip dst fuel (offset + m) (rest - m) (total + m)
            (blit out total m fun i => buf (offset % BSIZE + i))
        else
          BCache.release addr
          return .error .read

/-- `Inode::read` of `len` bytes. -/
def read (sb : SuperBlock) (ip : Inode) (offset len : ℕ) (dst : Dst) :
    FsM (Except FsError (ℕ × Bytes)) := do
  let inner ← getInner ip.id
  let n := len % 2 ^ 32
  if inner.size.toNat < offset ∨ 2 ^ 32 ≤ offset + n then return .error .read
  else
    let n := if inner.size.toNat < offset + n then inner.size.toNat - offset else n
    readLoop sb ip dst (n + 1) offset n 0 fun _ => 0

/-- The loop of `Inode::write`, `rest` bytes before its end; returns the offset it reached. A copy
from the kernel takes all of the remaining source, not only what fits the block. -/
def writeLoop (sb : SuperBlock) (ip : Inode) (src : Src) : ℕ → ℕ → ℕ → ℕ → FsM ℕ
  | 0, _, _, _ => throw .running
  | fuel + 1, offset, rest, total =>
    if rest = 0 then return offset
    else do
      match ← map sb ip (offset / BSIZE) with
      | .error _ => return offset
      | .ok addr =>
        let _ ← BCache.read addr
        let m := min rest (BSIZE - offset % BSIZE)
        let here : Bytes := fun i => src.data (total + i)
        match src.user with
        | some accessible =>
          if total + m ≤ accessible then
            BCache.edit addr fun c => blit c (offset % BSIZE) m here
            Log.write sb addr
            BCache.release addr
            writeLoop sb ip src fuel (offset + m) (rest - m) (total + m)
          else
            -- the accessible bytes have been copied
            BCache.edit addr fun c => blit c (offset % BSIZE) (accessible - total) here
            BCache.release addr
            return offset
        | none =>
          if rest ≠ m then throw .overrun
          else
            BCache.edit addr fun c => blit c (offset % BSIZE) m here
            Log.write sb addr
            BCache.release addr
            writeLoop sb ip src fuel (offset + m) (rest - m) (total + m)

/-- `Inode::write`; returns the number of bytes written. -/
def write (sb : SuperBlock) (ip : Inode) (offset : ℕ) (src : Src) : FsM (Except FsError ℕ) := do
  let inner ← getInner ip.id
  let n := src.length % 2 ^ 32
  if inner.size.toNat < offset ∨ 2 ^ 32 ≤ offset + n then return .error .write
  else if MAXFILE * BSIZE < offset + n then return .error .write
  else
    let reached ← writeLoop sb ip src (n + 1) offset n 0
    if inner.size.toNat < reached then
      modifyInner ip.id fun n => { n with size := UInt32.ofNat reached }
    -- the loop above might have called `map()` and added a new block to `addrs[]`
    update sb ip
    return .ok (reached - offset)

end Inode

end Octopos
