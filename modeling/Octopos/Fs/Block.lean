import Octopos.Param
import Octopos.Lib.Bytes
import Octopos.Lib.Wp
import Mathlib.Data.List.FinRange

/-!
# The state of the file system, and the block allocator

The file system of `fs.rs` works on a logical disk: the buffer cache, the log and the device
together show every reader the last contents of a block. The state below holds these contents, the
reference counts of the buffers, the blocks of the open transaction and the inode table.
-/

namespace Octopos

def BSIZE : ℕ := 1024

/-- Number of direct block addresses in an inode. -/
def NDIRECT : ℕ := 12

/-- Number of block addresses in an indirect block. -/
def NINDIRECT : ℕ := BSIZE / 4

def MAXFILE : ℕ := NDIRECT + NINDIRECT

def DINODESIZE : ℕ := 64

def IPB : ℕ := BSIZE / DINODESIZE

def BPB : ℕ := BSIZE * 8

def DIRSIZE : ℕ := 14

def ROOTINO : ℕ := 1

/-- Errors of `fs.rs`. -/
inductive FsError
  | outOfBlock
  | outOfInode
  | outOfFile
  | outOfPipe
  | outOfRange
  | invalidName
  | read
  | write
  | create
  | link
  | resolve
  deriving DecidableEq, Repr

/-- Why the kernel stops inside the file system. -/
inductive FsPanic
  /-- "log_write: transaction too big" -/
  | tooBig
  /-- "log_write: outside of trans" -/
  | outsideTrans
  /-- "bcache get no buffers" -/
  | noBuffers
  /-- "bfree: block already free" -/
  | alreadyFree
  /-- "ilock: no type" -/
  | noType
  /-- "dirlookup not DIR" -/
  | notDir
  /-- "dir read from inode" -/
  | dirRead
  /-- "dir is_empty" -/
  | dirIsEmpty
  /-- "unlink nlink < 1" -/
  | unlinkNlink
  /-- "unlink write" -/
  | unlinkWrite
  | deadlock
  | overrun
  | running
  deriving DecidableEq, Repr

/-- The superblock, as read at boot. -/
structure SuperBlock where
  size : ℕ
  nblocks : ℕ
  ninodes : ℕ
  nlogs : ℕ
  logstart : ℕ
  inodestart : ℕ
  bmapstart : ℕ
  deriving DecidableEq, Repr

/-- Inode types. -/
inductive InodeType
  | free
  | directory
  | file
  | device
  deriving DecidableEq, Repr

/-- The fields that an inode on the disk and its copy in memory share. -/
structure InodeInner where
  type : InodeType
  major : UInt16
  minor : UInt16
  nlink : UInt16
  size : UInt32
  addrs : Fin (NDIRECT + 1) → UInt32
  deriving DecidableEq

/-- A slot of the inode table; there is one device. -/
structure Slot where
  ref : ℕ
  inum : ℕ
  valid : Bool
  locked : Bool
  inner : InodeInner
  deriving DecidableEq

/-- Handle of an inode: its slot and its number. -/
structure Inode where
  id : Fin NINODE
  inum : ℕ
  deriving DecidableEq

/-- The file system. -/
structure Fs where
  disk : ℕ → Bytes
  bufs : ℕ → ℕ
  log : List ℕ
  outstanding : ℕ
  itable : Fin NINODE → Slot

instance : NeZero NINODE := ⟨by decide⟩

abbrev FsM := Prog FsPanic Fs

/-! ## Buffers and the log -/

/-- `BCACHE.read`. -/
def BCache.read (b : ℕ) : FsM Bytes := do
  let s ← get
  set { s with bufs := upd s.bufs b (s.bufs b + 1) }
  return s.disk b

/-- `BCACHE.release`. -/
def BCache.release (b : ℕ) : FsM PUnit :=
  modify fun s => { s with bufs := upd s.bufs b (s.bufs b - 1) }

/-- Change a buffer in place (`data_mut`). -/
def BCache.edit (b : ℕ) (f : Bytes → Bytes) : FsM PUnit :=
  modify fun s => { s with disk := upd s.disk b (f (s.disk b)) }

/-- `log::write` of a block that was read before. The blocks of the log are pinned and there are
buffers for `NBUF - 1` blocks, so `BCache::get` finds none for a block that is one too many. -/
def Log.write (sb : SuperBlock) (b : ℕ) : FsM PUnit := do
  let s ← get
  if NBUF - 1 ≤ s.log.length ∧ b ∉ s.log then throw .noBuffers
  else if LOGBLOCKS ≤ s.log.length ∨ sb.nlogs - 1 ≤ s.log.length then throw .tooBig
  else if s.outstanding < 1 then throw .outsideTrans
  else if b ∈ s.log then pure ⟨⟩
  else set { s with log := s.log ++ [b], bufs := upd s.bufs b (s.bufs b + 1) }

/-- `begin_op`, when no other process runs: a sleep would not end. -/
def Log.beginOp : FsM PUnit := do
  let s ← get
  if s.log.length + (s.outstanding + 1) * MAXOPBLOCKS > LOGBLOCKS then throw .deadlock
  else set { s with outstanding := s.outstanding + 1 }

/-- `end_op`: the last operation commits, which unpins the blocks of the transaction. -/
def Log.endOp : FsM PUnit := do
  let s ← get
  if s.outstanding - 1 = 0 then
    set { s with
      outstanding := 0
      log := []
      bufs := s.log.foldl (fun r b => upd r b (r b - 1)) s.bufs }
  else set { s with outstanding := s.outstanding - 1 }

/-! ## The block allocator -/

/-- The bit of bitmap bit `bi` in its byte. -/
def bitMask (bi : ℕ) : UInt8 := 1 <<< UInt8.ofNat (bi % 8)

/-- `Block::zero`. -/
def Block.zero (sb : SuperBlock) (b : ℕ) : FsM PUnit := do
  let _ ← BCache.read b
  BCache.edit b fun _ _ => 0
  Log.write sb b
  BCache.release b

/-- The first clear bit from `bi` on, among `n` bits of a bitmap block. -/
def Block.firstClear (buf : Bytes) : ℕ → ℕ → Option ℕ
  | 0, _ => none
  | n + 1, bi => if buf (bi / 8) &&& bitMask bi = 0 then some bi else firstClear buf n (bi + 1)

/-- The loop of `Block::alloc` over the bitmap blocks. -/
def Block.allocIn (sb : SuperBlock) : List ℕ → FsM (Except FsError ℕ)
  | [] => pure (.error .outOfBlock)
  | g :: groups => do
    let buf ← BCache.read (sb.bmapstart + g)
    match Block.firstClear buf (min BPB (sb.size - g * BPB)) 0 with
    | some bi =>
      -- block is free, mark it as in use
      BCache.edit (sb.bmapstart + g) fun c =>
        upd c (bi / 8) (c (bi / 8) ||| bitMask bi)
      Log.write sb (sb.bmapstart + g)
      BCache.release (sb.bmapstart + g)
      Block.zero sb (g * BPB + bi)
      return .ok (g * BPB + bi)
    | none =>
      BCache.release (sb.bmapstart + g)
      Block.allocIn sb groups

/-- `Block::alloc`. -/
def Block.alloc (sb : SuperBlock) : FsM (Except FsError ℕ) :=
  Block.allocIn sb (List.range ((sb.size + BPB - 1) / BPB))

/-- `Block::free`. -/
def Block.free (sb : SuperBlock) (b : ℕ) : FsM PUnit := do
  let buf ← BCache.read (sb.bmapstart + b / BPB)
  let bi := b % BPB
  if buf (bi / 8) &&& bitMask bi = 0 then throw .alreadyFree
  else
    BCache.edit (sb.bmapstart + b / BPB) fun c =>
      upd c (bi / 8) (c (bi / 8) &&& ~~~bitMask bi)
    Log.write sb (sb.bmapstart + b / BPB)
    BCache.release (sb.bmapstart + b / BPB)

end Octopos
