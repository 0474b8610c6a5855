import Octopos.Fs.Block
import Octopos.Lib.Ring
import Octopos.Lib.Run

/-!
# The disk driver

`virtio_disk.rs`: the driver shares a table of descriptors and two rings with the device. A request
is a chain of three descriptors, whose head goes through the `avail` ring to the device and comes
back through the `used` ring. A step of `rw` is what it does between two points where it gives up
the lock of the disk; a step of the interrupt handler is an iteration of its loop.

The device takes the heads in order and completes each chain once, in any order. What it does to the
buffer and to the status byte, which the driver never reads, is left out. The indices of the rings
wrap; with overflow checks the kernel stops there.
-/

namespace Octopos

/-- The number of descriptors, and the size of the rings. -/
def NUM : ℕ := 8

instance : NeZero NUM := ⟨by decide⟩

abbrev DescId := Fin NUM

abbrev BufId := Fin NBUF

def VRING_DESC_F_NEXT : UInt16 := 1

def VRING_DESC_F_WRITE : UInt16 := 2

def VIRTIO_BLK_T_IN : ℕ := 0

def VIRTIO_BLK_T_OUT : ℕ := 1

/-- What the address of a descriptor points to. -/
inductive DescAddr
  | null
  | op (i : DescId)
  | data (b : BufId)
  | status (i : DescId)
  deriving DecidableEq, Repr

structure VirtqDesc where
  addr : DescAddr := .null
  len : ℕ := 0
  flags : UInt16 := 0
  next : UInt16 := 0
  deriving DecidableEq, Repr

structure VirtqAvail where
  idx : UInt16
  ring : Fin NUM → UInt16

structure VirtqUsed where
  idx : UInt16
  ring : Fin NUM → UInt32

/-- The first part of a request. -/
structure BlockReq where
  type : ℕ := 0
  reserved : ℕ := 0
  sector : ℕ := 0
  deriving DecidableEq, Repr

/-- Track info about in-flight operations; no buffer is `usize::MAX`. -/
structure DiskInfo where
  bufId : Option BufId := none
  status : UInt8 := 0
  deriving DecidableEq, Repr

structure VirtioDisk where
  desc : DescId → VirtqDesc
  avail : VirtqAvail
  used : VirtqUsed
  free : DescId → Bool
  usedIdx : UInt16
  info : DescId → DiskInfo
  ops : DescId → BlockReq

inductive VirtioError
  | alloc
  deriving DecidableEq, Repr

def ringSlot (idx : UInt16) : Fin NUM := Fin.ofNat NUM idx.toNat

/-- An index into an array of `NUM` elements; out of bounds the kernel stops. -/
def descId (i : ℕ) : Option DescId := if h : i < NUM then some ⟨i, h⟩ else none

namespace VirtioDisk

def new : VirtioDisk where
  desc _ := {}
  avail := ⟨0, fun _ => 0⟩
  used := ⟨0, fun _ => 0⟩
  free _ := true
  usedIdx := 0
  info _ := {}
  ops _ := {}

/-- Finds a free descriptor, marks it non-free and returns its index. -/
def allocDesc (d : VirtioDisk) : Except VirtioError DescId × VirtioDisk :=
  match (List.finRange NUM).find? (d.free ·) with
  | some i => (.ok i, { d with free := upd d.free i false })
  | none => (.error .alloc, d)

def freeDesc (d : VirtioDisk) (i : DescId) : VirtioDisk :=
  { d with desc := upd d.desc i {}, free := upd d.free i true }

/-- The loop of `alloc3_desc`, with the descriptors that it has got; `n` are missing. If one cannot
be had, the others are freed again; these are returned as well. -/
def alloc3Loop (d : VirtioDisk) (got : List DescId) :
    ℕ → Except VirtioError (List DescId) × List DescId × VirtioDisk
  | 0 => (.ok got, [], d)
  | n + 1 =>
    match d.allocDesc with
    | (.ok i, d) => d.alloc3Loop (got ++ [i]) n
    | (.error e, d) => (.error e, got, got.foldl freeDesc d)

def alloc3Desc (d : VirtioDisk) : Except VirtioError (List DescId) × List DescId × VirtioDisk :=
  d.alloc3Loop [] 3

/-- Frees a chain of descriptors and returns them; at most `NUM + 1` iterations, since a descriptor
that is free has no next one. -/
def freeChain (d : VirtioDisk) (i : DescId) : ℕ → Option (List DescId × VirtioDisk)
  | 0 => none
  | fuel + 1 =>
    let x := d.desc i
    let d := d.freeDesc i
    if x.flags &&& VRING_DESC_F_NEXT ≠ 0 then do
      let next ← descId x.next.toNat
      let (freed, d) ← d.freeChain next fuel
      pure (i :: freed, d)
    else some ([i], d)

/-- Format the three descriptors and record the buffer. -/
def format (d : VirtioDisk) (i j k : DescId) (b : BufId) (sector : ℕ) (write : Bool) : VirtioDisk :=
  let op : BlockReq :=
    { type := if write then VIRTIO_BLK_T_OUT else VIRTIO_BLK_T_IN, reserved := 0, sector := sector }
  let first : VirtqDesc :=
    { addr := .op i, len := 16, flags := VRING_DESC_F_NEXT, next := UInt16.ofNat j.val }
  let second : VirtqDesc :=
    { addr := .data b, len := BSIZE,
      flags := (if write then 0 else VRING_DESC_F_WRITE) ||| VRING_DESC_F_NEXT
      next := UInt16.ofNat k.val }
  let third : VirtqDesc := { addr := .status i, len := 1, flags := VRING_DESC_F_WRITE, next := 0 }
  { d with
    ops := upd d.ops i op
    desc := upd (upd (upd d.desc i first) j second) k third
    info := upd d.info i { bufId := some b, status := 0xFF } }

/-- Tell the device the first index in our chain of descriptors. -/
def publish (d : VirtioDisk) (i : DescId) : VirtioDisk :=
  { d with
    avail :=
      { idx := d.avail.idx + 1
        ring := upd d.avail.ring (ringSlot d.avail.idx) (UInt16.ofNat i.val) } }

/-- The device adds a head to the `used` ring. -/
def complete (d : VirtioDisk) (i : DescId) : VirtioDisk :=
  { d with
    used :=
      { idx := d.used.idx + 1
        ring := upd d.used.ring (ringSlot d.used.idx) (UInt32.ofNat i.val) } }

end VirtioDisk

/-- What a call of `rw` is asked to do. -/
structure DiskCall where
  buf : BufId
  blockNo : ℕ
  write : Bool
  deriving DecidableEq, Repr

/-- `block_no as u64 * (BSIZE as u64 / 512)` -/
def DiskCall.sector (c : DiskCall) : ℕ := c.blockNo * (BSIZE / 512)

/-- A request in flight: the call, its descriptors, and its number among all requests. -/
structure Request where
  call : DiskCall
  i : DescId
  j : DescId
  k : DescId
  number : ℕ
  deriving DecidableEq, Repr

def Request.ids (r : Request) : List DescId := [r.i, r.j, r.k]

/-- Where a process stands in `rw`. -/
inductive DiskFrame
  | user
  | start (c : DiskCall)
  | alloc (c : DiskCall)
  | allocSleep (c : DiskCall)
  | wait (r : Request)
  | waitSleep (r : Request)
  | waitLock (r : Request)
  deriving DecidableEq, Repr

namespace DiskFrame

def call : DiskFrame → Option DiskCall
  | user => none
  | start c | alloc c | allocSleep c => some c
  | wait r | waitSleep r | waitLock r => some r.call

/-- The request of the process that is in flight. -/
def request : DiskFrame → Option Request
  | wait r | waitSleep r | waitLock r => some r
  | _ => none

def wake : DiskFrame → DiskFrame
  | allocSleep c => start c
  | waitSleep r => waitLock r
  | f => f

end DiskFrame

/-- Who has the lock of the disk. -/
inductive DiskOwner (P : Type)
  | process (p : P)
  | handler
  deriving DecidableEq, Repr

/-- The disk, the device and the processes. -/
structure DiskSys (P : Type) where
  disk : VirtioDisk
  busy : BufId → Bool
  owner : Option (DiskOwner P)
  frame : P → DiskFrame
  panicked : Bool
  seen : UInt16
  working : List (DescId × ℕ)
  submitted : List (DescId × ℕ)
  fetched : ℕ
  completed : List (DescId × ℕ)
  handled : ℕ

/-- What can happen. -/
inductive DiskAction (P : Type)
  | rw (p : P) (c : DiskCall)
  | run (p : P)
  | kill (p : P)
  | interrupt
  | fetch
  | complete (n : ℕ)
  deriving DecidableEq, Repr

namespace DiskSys

variable {P : Type} [DecidableEq P]

def setFrame (s : DiskSys P) (p : P) (f : DiskFrame) : DiskSys P :=
  { s with frame := upd s.frame p f }

def acquire (s : DiskSys P) (p : P) (f : DiskFrame) : Option (DiskSys P) :=
  if s.owner.isNone then some { s.setFrame p f with owner := some (.process p) } else none

def unlock (s : DiskSys P) (p : P) (f : DiskFrame) : DiskSys P :=
  { s.setFrame p f with owner := none }

/-- `free_desc` wakes up those who sleep on the channel of the descriptor; that of descriptor 0 is
the one where processes wait for descriptors. -/
def wakeFree (s : DiskSys P) (freed : List DescId) : DiskSys P :=
  { s with
    frame := fun q =>
      match s.frame q with
      | .allocSleep c => if 0 ∈ freed then .start c else .allocSleep c
      | f => f }

/-- Wake up the process that waits for the buffer. -/
def wakeBuf (s : DiskSys P) (b : BufId) : DiskSys P :=
  { s with
    frame := fun q =>
      match s.frame q with
      | .waitSleep r => if r.call.buf = b then .waitLock r else .waitSleep r
      | f => f }

/-- Hand the request over to the device. -/
def submit (s : DiskSys P) (p : P) (d : VirtioDisk) (r : Request) : DiskSys P :=
  { s.setFrame p (.wait r) with
    disk := (d.format r.i r.j r.k r.call.buf r.call.sector r.call.write).publish r.i
    busy := upd s.busy r.call.buf true
    submitted := s.submitted ++ [(r.i, r.number)] }

/-- An iteration of the loop that allocates descriptors. -/
def allocStep (s : DiskSys P) (p : P) (c : DiskCall) : DiskSys P :=
  match s.disk.alloc3Desc with
  | (.ok [i, j, k], _, d) => s.submit p d ⟨c, i, j, k, s.submitted.length⟩
  | (.ok _, _, _) => { s with panicked := true }
  | (.error _, freed, d) => { (s.wakeFree freed).unlock p (.allocSleep c) with disk := d }

/-- An iteration of the loop that waits for the device. -/
def waitStep (s : DiskSys P) (p : P) (r : Request) : DiskSys P :=
  if s.busy r.call.buf then s.unlock p (.waitSleep r)
  else
    let d := { s.disk with info := upd s.disk.info r.i { s.disk.info r.i with bufId := none } }
    match d.freeChain r.i (NUM + 1) with
    | some (freed, d) => { (s.wakeFree freed).unlock p .user with disk := d }
    | none => { s with panicked := true }

/-- Go on from the point where process `p` stands. -/
def run (s : DiskSys P) (p : P) : Option (DiskSys P) :=
  match s.frame p with
  | .start c => s.acquire p (.alloc c)
  | .alloc c => some (s.allocStep p c)
  | .wait r => some (s.waitStep p r)
  | .waitLock r => s.acquire p (.wait r)
  | .user | .allocSleep _ | .waitSleep _ => none

/-- An iteration of the loop of the interrupt handler. -/
def handleStep (s : DiskSys P) : DiskSys P :=
  if s.disk.usedIdx ≠ s.disk.used.idx then
    let id := (s.disk.used.ring (ringSlot s.disk.usedIdx)).toNat
    match (descId id).bind fun i => (s.disk.info i).bufId with
    | some b =>
      { s.wakeBuf b with
        busy := upd s.busy b false
        disk := { s.disk with usedIdx := s.disk.usedIdx + 1 }
        handled := s.handled + 1 }
    | none => { s with panicked := true }
  else { s with owner := none }

/-- The device takes a head out of the `avail` ring. -/
def fetch (s : DiskSys P) : Option (DiskSys P) :=
  if s.seen ≠ s.disk.avail.idx then do
    let i ← descId (s.disk.avail.ring (ringSlot s.seen)).toNat
    let entry ← s.submitted[s.fetched]?
    pure
      { s with
        seen := s.seen + 1
        working := s.working ++ [(i, entry.2)]
        fetched := s.fetched + 1 }
  else none

def complete (s : DiskSys P) (n : ℕ) : Option (DiskSys P) := do
  let entry ← s.working[n]?
  pure
    { s with
      disk := s.disk.complete entry.1
      working := s.working.eraseIdx n
      completed := s.completed ++ [entry] }

/-- One step of the system. A buffer is locked while `rw` works on it, so that it is called for a
buffer by one process at a time. -/
def next (s : DiskSys P) (a : DiskAction P) : Option (DiskSys P) :=
  if s.panicked then none
  else
    match a with
    | .rw p c => if s.frame p = .user then some (s.setFrame p (.start c)) else none
    | .run p => s.run p
    | .kill p => some (s.setFrame p (s.frame p).wake)
    | .interrupt =>
      match s.owner with
      | none => some { s with owner := some .handler }
      | some .handler => some s.handleStep
      | some (.process _) => none
    | .fetch => s.fetch
    | .complete n => s.complete n

/-- The disk as it is made, with no process in `rw`. -/
def new : DiskSys P where
  disk := VirtioDisk.new
  busy _ := false
  owner := none
  frame _ := .user
  panicked := false
  seen := 0
  working := []
  submitted := []
  fetched := 0
  completed := []
  handled := 0

end DiskSys

/-- Steps of the system. The caller of `rw` has the sleep lock of the buffer, so no other process is
in `rw` with it. -/
def DiskStep {P : Type} [DecidableEq P] (s : DiskSys P) (a : DiskAction P) (s' : DiskSys P) :
    Prop :=
  s.next a = some s' ∧
    ∀ p c, a = .rw p c → ∀ q c', (s.frame q).call = some c' → c'.buf ≠ c.buf

/-- The disk as it is made, with no process in `rw`. -/
def DiskInit {P : Type} [DecidableEq P] (s : DiskSys P) : Prop := s = DiskSys.new

end Octopos
