import Octopos.Fs.Directory

/-!
# The image builder

`mkfs` writes the file system image that the kernel mounts. It is a program of its own, with its
own copies of the structures on the disk and its own way from an offset in a file to a block. The
image is a file of sectors; blocks and inodes are handed out in order by two counters. The constants
that `mkfs` repeats with the values of the kernel are not repeated here.
-/

namespace Octopos

def FSSIZE : ℕ := 2000

def FSMAGIC : UInt32 := 0x10203040

def NINODES : ℕ := 200

def NBITMAP : ℕ := FSSIZE / BPB + 1

def NINODEBLOCKS : ℕ := NINODES / IPB + 1

/-- Header followed by `LOGBLOCKS` data blocks. -/
def NLOG : ℕ := LOGBLOCKS + 1

/-- Number of meta blocks (boot, superblock, log, inodes, bitmap). -/
def NMETA : ℕ := NLOG + NINODEBLOCKS + NBITMAP + 2

def NBLOCKS : ℕ := FSSIZE - NMETA

namespace Mkfs

/-- Why `mkfs` stops. -/
inductive Panic
  | rootIno
  | nameLength
  | maxFile
  | bitmap
  | running
  deriving DecidableEq, Repr

/-- The image file and the two counters of `main`. -/
structure State where
  sector : ℕ → Bytes
  freeBlock : ℕ
  freeInode : ℕ

end Mkfs

abbrev MkfsM := Prog Mkfs.Panic Mkfs.State

/-- An input file: its name, as `Path::file_name` gives it, and its contents. -/
structure InputFile where
  name : Name
  data : List UInt8
  ne_nil : name ≠ []
  no_slash : SLASH ∉ name
  no_nul : (0 : UInt8) ∉ name
  ne_dot : name ≠ DOT
  ne_dotdot : name ≠ DOTDOT

namespace Mkfs

/-! ## Structures on the disk -/

/-- `SuperBlock`. -/
structure SuperBlock where
  magic : UInt32
  size : UInt32
  nblocks : UInt32
  ninodes : UInt32
  nlogs : UInt32
  logstart : UInt32
  inodestart : UInt32
  bmapstart : UInt32

namespace SuperBlock

def fields (sb : SuperBlock) : List UInt32 :=
  [sb.magic, sb.size, sb.nblocks, sb.ninodes, sb.nlogs, sb.logstart, sb.inodestart, sb.bmapstart]

/-- `bytemuck::bytes_of`. -/
def bytes (sb : SuperBlock) : Bytes := fun j => leBytes (sb.fields.getD (j / 4) 0).toNat (j % 4)

end SuperBlock

/-- `DiskInode`; the type is a number. -/
structure DiskInode where
  type : UInt16
  major : UInt16
  minor : UInt16
  nlink : UInt16
  size : UInt32
  addrs : Fin (NDIRECT + 1) → UInt32

/-- `InodeType::DIRECTORY`. -/
def DIRECTORY : UInt16 := 1

/-- `InodeType::FILE`. -/
def FILE : UInt16 := 2

namespace DiskInode

/-- `DiskInode::new`. -/
def new (type : UInt16) : DiskInode := ⟨type, 0, 0, 0, 0, fun _ => 0⟩

/-- `bytemuck::bytes_of`. -/
def bytes (din : DiskInode) : Bytes := fun j =>
  if j < 2 then leBytes din.type.toNat j
  else if j < 4 then leBytes din.major.toNat (j - 2)
  else if j < 6 then leBytes din.minor.toNat (j - 4)
  else if j < 8 then leBytes din.nlink.toNat (j - 6)
  else if j < 12 then leBytes din.size.toNat (j - 8)
  else if h : (j - 12) / 4 < NDIRECT + 1 then leBytes (din.addrs ⟨(j - 12) / 4, h⟩).toNat (j % 4)
  else 0

/-- `bytemuck::from_bytes`, at offset `o`. -/
def fromBytes (b : Bytes) (o : ℕ) : DiskInode where
  type := get16 b o
  major := get16 b (o + 2)
  minor := get16 b (o + 4)
  nlink := get16 b (o + 6)
  size := get32 b (o + 8)
  addrs := fun k => get32 b (o + 12 + 4 * k.val)

end DiskInode

/-- `Directory`: an inode number and `DIRSIZE` bytes of name. -/
structure Directory where
  inum : UInt16
  name : Bytes

namespace Directory

/-- Overwrite the start of the name (`name[..n].copy_from_slice`). -/
def setName (de : Directory) (name : Name) : Directory :=
  { de with name := blit de.name 0 name.length fun i => name.getD i 0 }

/-- `bytemuck::bytes_of`. -/
def bytes (de : Directory) : List UInt8 :=
  (List.range DIRENTSIZE).map fun i => if i < 2 then leBytes de.inum.toNat i else de.name (i - 2)

end Directory

/-! ## Sectors and inodes -/

/-- `write_sector`. -/
def writeSector (sec : ℕ) (buf : Bytes) : MkfsM PUnit :=
  modify fun s => { s with sector := upd s.sector sec buf }

/-- `read_sector`. -/
def readSector (sec : ℕ) : MkfsM Bytes := do
  let s ← get
  return s.sector sec

/-- Block of inode `inum`: inode start plus inode number by inodes per block. -/
def inodeBlockNum (inum : ℕ) : ℕ := 2 + NLOG + inum / IPB

/-- `write_inode`. -/
def writeInode (inum : ℕ) (inode : DiskInode) : MkfsM PUnit := do
  let buf ← readSector (inodeBlockNum inum)
  let offset := inum % IPB * DINODESIZE
  writeSector (inodeBlockNum inum) (blit buf offset DINODESIZE inode.bytes)

/-- `read_inode`. -/
def readInode (inum : ℕ) : MkfsM DiskInode := do
  let buf ← readSector (inodeBlockNum inum)
  let offset := inum % IPB * DINODESIZE
  return DiskInode.fromBytes buf offset

/-- `allocate_inode`. -/
def allocateInode (type : UInt16) : MkfsM ℕ := do
  let s ← get
  let inum := s.freeInode
  set { s with freeInode := s.freeInode + 1 }
  writeInode inum { DiskInode.new type with nlink := 1, size := 0 }
  return inum

/-! ## Appending to an inode -/

def takeBlock : MkfsM ℕ := do
  let s ← get
  set { s with freeBlock := s.freeBlock + 1 }
  return s.freeBlock

/-- Give `addrs[k]` a block if it has none. -/
def fillAddr (din : DiskInode) (k : Fin (NDIRECT + 1)) : MkfsM DiskInode := do
  if din.addrs k = 0 then
    let b ← takeBlock
    return { din with addrs := upd din.addrs k (UInt32.ofNat b) }
  else return din

/-- The sector of block `fbn` of an inode, which is allocated if there is none. -/
def sectorOf (din : DiskInode) (fbn : ℕ) : MkfsM (DiskInode × ℕ) := do
  if h : fbn < NDIRECT then
    let din ← fillAddr din ⟨fbn, Nat.lt_succ_of_lt h⟩
    return (din, (din.addrs ⟨fbn, Nat.lt_succ_of_lt h⟩).toNat)
  else
    let din ← fillAddr din (Fin.last NDIRECT)
    let indirect ← readSector (din.addrs (Fin.last NDIRECT)).toNat
    let index := fbn - NDIRECT
    let blockAddr := get32 indirect (4 * index)
    if blockAddr = 0 then
      let b ← takeBlock
      writeSector (din.addrs (Fin.last NDIRECT)).toNat (set32 indirect (4 * index) (UInt32.ofNat b))
      return (din, (UInt32.ofNat b).toNat)
    else return (din, blockAddr.toNat)

/-- The loop of `append_inode`; returns the inode and the offset it reached. Every turn takes at
least one byte of the data; the step bound is `fuel`. -/
def appendLoop : ℕ → DiskInode → ℕ → List UInt8 → MkfsM (DiskInode × ℕ)
  | 0, _, _, _ => throw .running
  | fuel + 1, din, offset, data =>
    if data = [] then return (din, offset)
    else do
      let fbn := offset / BSIZE
      if MAXFILE ≤ fbn then throw .maxFile
      else
        let (din, x) ← sectorOf din fbn
        let blockOffset := offset - fbn * BSIZE
        let n1 := min data.length ((fbn + 1) * BSIZE - offset)
        let buf ← readSector x
        writeSector x (blit buf blockOffset n1 fun i => data.getD i 0)
        appendLoop fuel din (offset + n1) (data.drop n1)

/-- `append_inode`. -/
def appendInode (inum : ℕ) (data : List UInt8) : MkfsM PUnit := do
  let din ← readInode inum
  let (din, offset) ← appendLoop (data.length + 1) din din.size.toNat data
  writeInode inum { din with size := UInt32.ofNat offset }

/-! ## The program -/

/-- The bitmap block with the first `used` bits set. -/
def usedBits (used : ℕ) : Bytes :=
  (List.range used).foldl (fun buf i => upd buf (i / 8) (buf (i / 8) ||| bitMask i)) fun _ => 0

/-- `allocate_block`. -/
def allocateBlock (used bmapstart : ℕ) : MkfsM PUnit :=
  if BPB ≤ used then throw .bitmap
  else writeSector bmapstart (usedBits used)

/-- The superblock that `main` writes. -/
def superBlock : SuperBlock where
  magic := FSMAGIC
  size := UInt32.ofNat FSSIZE
  nblocks := UInt32.ofNat NBLOCKS
  ninodes := UInt32.ofNat NINODES
  nlogs := UInt32.ofNat NLOG
  logstart := 2
  inodestart := UInt32.ofNat (2 + NLOG)
  bmapstart := UInt32.ofNat (2 + NLOG + NINODEBLOCKS)

/-- The loop of `main` over the input files. -/
def addFile (rootino : ℕ) (f : InputFile) : MkfsM PUnit := do
  if DIRSIZE ≤ f.name.length then throw .nameLength
  else
    let inum ← allocateInode FILE
    let de := Directory.setName ⟨UInt16.ofNat inum, fun _ => 0⟩ f.name
    appendInode rootino de.bytes
    appendInode inum f.data

/-- `main`, with the input files as arguments; irreducible, lest unification run it. -/
@[irreducible] def main (files : List InputFile) : MkfsM PUnit := do
  modify fun s => { s with freeBlock := NMETA, freeInode := 1 }
  (List.range FSSIZE).forM fun i => writeSector i fun _ => 0
  writeSector 1 (blit (fun _ => 0) 0 32 superBlock.bytes)
  let rootino ← allocateInode DIRECTORY
  if rootino ≠ ROOTINO then throw .rootIno
  else
    let de := Directory.setName ⟨UInt16.ofNat ROOTINO, fun _ => 0⟩ DOT
    appendInode rootino de.bytes
    let de := Directory.setName de DOTDOT
    appendInode rootino de.bytes
    files.forM (addFile rootino)
    -- fix size of root inode dir
    let din ← readInode rootino
    writeInode rootino { din with size := UInt32.ofNat ((din.size.toNat / BSIZE + 1) * BSIZE) }
    let s ← get
    allocateBlock s.freeBlock superBlock.bmapstart.toNat

end Mkfs

/-- `SuperBlock::initialize`: the superblock in a block, if its magic number is right. -/
def SuperBlock.initializeFrom (buf : Bytes) : Option SuperBlock :=
  if get32 buf 0 = FSMAGIC then
    some {
      size := (get32 buf 4).toNat
      nblocks := (get32 buf 8).toNat
      ninodes := (get32 buf 12).toNat
      nlogs := (get32 buf 16).toNat
      logstart := (get32 buf 20).toNat
      inodestart := (get32 buf 24).toNat
      bmapstart := (get32 buf 28).toNat }
  else none

end Octopos
