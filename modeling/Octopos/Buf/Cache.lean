import Octopos.Lib.Run
import Octopos.Log.Commit

/-!
# The buffer cache

The buffer cache of `buf.rs` under any number of processes, with the parts of `log.rs` that decide
when a buffer may be recycled: `log::write` pins the buffer of a block, and `commit` copies the
block to the log, installs it and unpins it. What a process does under the lock of the cache or of
the log is one step, and so is a request to the device, which completes it correctly.

The last fields of the state are a history: what the last holder of each block left in it (`left`),
the same without the copies that `commit` makes (`written`), and the last value that a read returned
(`output`).
-/

namespace Octopos

instance : NeZero NBUF := ⟨by decide⟩

abbrev BlockId := ℕ × ℕ

/-- A buffer with its metadata; `block` is `dev` and `block_no`. -/
structure Buf where
  valid : Bool
  block : BlockId
  ref : ℕ
  data : Bytes

/-- Where a process stands in a function of the cache. -/
inductive BufPc
  | run
  | lock (k : BlockId) (i : Fin NBUF)
  | check (k : BlockId) (i : Fin NBUF)
  | load (k : BlockId) (i : Fin NBUF)
  | fill (k : BlockId) (i : Fin NBUF)
  | unref (i : Fin NBUF)
  deriving DecidableEq

/-- Where `commit` stands in a turn of the loop of `write_log` or of `install_trans`; the buffers
are those of the log block and of the home block. -/
inductive RoundPc
  | first
  | second (a : Fin NBUF)
  | copy (a b : Fin NBUF)
  | flush (a b : Fin NBUF)
  | unpin (a b : Fin NBUF)
  | drop1 (a b : Fin NBUF)
  | drop2 (b : Fin NBUF)
  deriving DecidableEq

/-- Where `commit` stands in `write_head`. -/
inductive HeadPc
  | read
  | put (a : Fin NBUF)
  | flush (a : Fin NBUF)
  | drop (a : Fin NBUF)
  deriving DecidableEq

/-- Where `commit` stands. -/
inductive CommitPc
  | start
  | round (install : Bool) (n tail : ℕ) (pc : RoundPc)
  | head (last : Bool) (pc : HeadPc)
  | clear (n : ℕ)
  | finish
  deriving DecidableEq

/-- The buffer that `read` returned to `commit`. -/
def CommitPc.got (i : Fin NBUF) : CommitPc → CommitPc
  | round install n tail .first => round install n tail (.second i)
  | round install n tail (.second a) => round install n tail (.copy a i)
  | head last .read => head last (.put i)
  | c => c

/-- Place and size of the log. -/
structure LogArea where
  start : ℕ
  size : ℕ

/-- Block of the log for the logged block with index `tail`. -/
def LogArea.block (la : LogArea) (tail : ℕ) : BlockId := (ROOTDEV, la.start + tail + 1)

def LogArea.head (la : LogArea) : BlockId := (ROOTDEV, la.start)

def LogArea.Has (la : LogArea) (k : BlockId) : Prop :=
  k.1 = ROOTDEV ∧ la.start ≤ k.2 ∧ k.2 < la.start + la.size

instance (la : LogArea) (k : BlockId) : Decidable (la.Has k) :=
  inferInstanceAs (Decidable (_ ∧ _ ∧ _))

/-- The cache, the log and the processes. -/
structure CacheSys (P : Type) where
  buf : Fin NBUF → Buf
  prev : Fin NBUF → Fin NBUF
  next : Fin NBUF → Fin NBUF
  holder : Fin NBUF → Option P
  disk : BlockId → Bytes
  header : List ℕ
  outstanding : ℕ
  commit : Option (P × CommitPc)
  pc : P → BufPc
  dirty : Fin NBUF → Bool
  left : BlockId → Bytes
  written : BlockId → Bytes
  output : Option (P × BlockId × Bytes)

/-- What a process can do. -/
inductive CacheAction
  | go
  | read (k : BlockId)
  | modify (i : Fin NBUF) (data : Bytes)
  | logWrite (i : Fin NBUF)
  | release (i : Fin NBUF)
  | beginOp
  | endOp

namespace CacheSys

variable {P : Type} [DecidableEq P]

def setBuf (s : CacheSys P) (i : Fin NBUF) (x : Buf) : CacheSys P :=
  { s with buf := upd s.buf i x }

def goto (s : CacheSys P) (p : P) (c : BufPc) : CacheSys P :=
  { s with pc := upd s.pc p c }

/-- `inner.head` -/
def head : Fin NBUF := 0

/-! ## `get` and `read` -/

/-- The first loop of `get`. -/
def find (s : CacheSys P) (k : BlockId) : Option (Fin NBUF) :=
  (List.finRange NBUF).find? fun i => (s.buf i).block = k

/-- The second loop of `get`, at buffer `i`; the list has `NBUF` entries. -/
def recycle (s : CacheSys P) : ℕ → Fin NBUF → Option (Fin NBUF)
  | 0, _ => none
  | fuel + 1, i =>
    if i = head then none
    else if (s.buf i).ref = 0 then some i
    else recycle s fuel (s.prev i)

/-- `get` up to the sleep lock; without a free buffer it panics. -/
def get (s : CacheSys P) (p : P) (k : BlockId) : Option (CacheSys P) :=
  match s.find k with
  | some i =>
    some ((s.setBuf i { s.buf i with ref := (s.buf i).ref + 1 }).goto p (.lock k i))
  | none =>
    match s.recycle NBUF (s.prev head) with
    | some i =>
      some ((s.setBuf i { s.buf i with block := k, valid := false, ref := (s.buf i).ref + 1 }).goto p
        (.lock k i))
    | none => none

/-- `read` returns buffer `i`. -/
def returns (s : CacheSys P) (p : P) (k : BlockId) (i : Fin NBUF) : CacheSys P :=
  { s.goto p .run with
    output := some (p, k, (s.buf i).data)
    commit := s.commit.map fun c => if c.1 = p then (p, c.2.got i) else c }

/-! ## `release` -/

/-- The first half of `release`: drop the sleep lock. `user` is not set for `commit`. -/
def unlock (s : CacheSys P) (la : LogArea) (p : P) (i : Fin NBUF) (user : Bool) : CacheSys P :=
  { s.goto p (.unref i) with
    holder := upd s.holder i none
    left := upd s.left (s.buf i).block (s.buf i).data
    written := if user = true ∨ la.Has (s.buf i).block then
        upd s.written (s.buf i).block (s.buf i).data
      else s.written }

/-- Move a buffer to the front of the list. -/
def moveToFront (s : CacheSys P) (id : Fin NBUF) : CacheSys P :=
  let prev := upd s.prev (s.next id) (s.prev id)
  let next := upd s.next (s.prev id) (s.next id)
  let first := next head
  { s with
    prev := upd (upd prev id head) first id
    next := upd (upd next id first) head id }

/-- The second half of `release`. -/
def unref (s : CacheSys P) (p : P) (i : Fin NBUF) : CacheSys P :=
  let s := (s.setBuf i { s.buf i with ref := (s.buf i).ref - 1 }).goto p .run
  if (s.buf i).ref = 0 then s.moveToFront i else s

/-- Change the data of a buffer in place (`data_mut`). -/
def setData (s : CacheSys P) (i : Fin NBUF) (data : Bytes) : CacheSys P :=
  { s.setBuf i { s.buf i with data := data } with dirty := upd s.dirty i true }

/-- `BCache::write` -/
def flush (s : CacheSys P) (i : Fin NBUF) : CacheSys P :=
  { s with
    disk := upd s.disk (s.buf i).block (s.buf i).data
    dirty := upd s.dirty i false }

/-- `log::write`; a block that is new in the header is pinned. -/
def logWrite (s : CacheSys P) (la : LogArea) (i : Fin NBUF) : Option (CacheSys P) :=
  let b := (s.buf i).block.2
  if LOGBLOCKS ≤ s.header.length ∨ la.size - 1 ≤ s.header.length ∨ s.outstanding < 1 then none
  else if b ∈ s.header then some { s with dirty := upd s.dirty i false }
  else
    some { s.setBuf i { s.buf i with ref := (s.buf i).ref + 1 } with
      header := s.header ++ [b]
      dirty := upd s.dirty i false }

/-! ## `commit` -/

def setCommit (s : CacheSys P) (p : P) (c : CommitPc) : CacheSys P :=
  { s with commit := some (p, c) }

/-- The buffer that a turn of the loop copies to, and the one it copies from. -/
def dst (install : Bool) (a b : Fin NBUF) : Fin NBUF := if install then b else a

def src (install : Bool) (a b : Fin NBUF) : Fin NBUF := if install then a else b

/-- A turn of the loop of `write_log` or of `install_trans`. -/
def roundStep (s : CacheSys P) (la : LogArea) (p : P) (install : Bool) (n tail : ℕ) :
    RoundPc → Option (CacheSys P)
  | .first =>
    if tail < n then s.get p (la.block tail)
    else some (s.setCommit p (if install then .clear n else .head false .read))
  | .second _ => s.get p (ROOTDEV, s.header.getD tail 0)
  | .copy a b =>
    some ((s.setData (dst install a b) (s.buf (src install a b)).data).setCommit p
      (.round install n tail (.flush a b)))
  | .flush a b =>
    some ((s.flush (dst install a b)).setCommit p
      (.round install n tail (if install then .unpin a b else .drop1 a b)))
  | .unpin a b =>
    some ((s.setBuf b { s.buf b with ref := (s.buf b).ref - 1 }).setCommit p
      (.round install n tail (.drop1 a b)))
  | .drop1 a b =>
    some ((s.unlock la p a false).setCommit p (.round install n tail (.drop2 b)))
  | .drop2 b =>
    some ((s.unlock la p b false).setCommit p (.round install n (tail + 1) .first))

/-- The header block for the header in memory. -/
def headBlock (s : CacheSys P) (old : Bytes) : Bytes :=
  putHeader old (UInt32.ofNat s.header.length) fun i => UInt32.ofNat (s.header.getD i 0)

/-- `write_head` -/
def headStep (s : CacheSys P) (la : LogArea) (p : P) (last : Bool) : HeadPc → Option (CacheSys P)
  | .read => s.get p la.head
  | .put a => some ((s.setData a (s.headBlock (s.buf a).data)).setCommit p (.head last (.flush a)))
  | .flush a => some ((s.flush a).setCommit p (.head last (.drop a)))
  | .drop a =>
    some ((s.unlock la p a false).setCommit p
      (if last then .finish else .round true s.header.length 0 .first))

/-- A step of `commit`. -/
def commitStep (s : CacheSys P) (la : LogArea) (p : P) : CommitPc → Option (CacheSys P)
  | .start =>
    some (s.setCommit p
      (if 0 < s.header.length then .round false s.header.length 0 .first else .finish))
  | .round install n tail pc => s.roundStep la p install n tail pc
  | .head last pc => s.headStep la p last pc
  | .clear _ => some ({ s with header := [] }.setCommit p (.head true .read))
  | .finish => some { s with commit := none }

/-- `end_op` -/
def endOp (s : CacheSys P) (p : P) : Option (CacheSys P) :=
  if s.outstanding = 0 ∨ s.commit.isSome then none
  else if s.outstanding - 1 = 0 then some { s with outstanding := 0, commit := some (p, .start) }
  else some { s with outstanding := s.outstanding - 1 }

/-- What a process does outside of `commit`. It changes, logs and releases only buffers that it
holds, logs only blocks of the device of the log, and releases no buffer that it changed and did not
log. -/
def call (s : CacheSys P) (la : LogArea) (p : P) : CacheAction → Option (CacheSys P)
  | .go => none
  | .read k => s.get p k
  | .modify i data => if s.holder i = some p then some (s.setData i data) else none
  | .logWrite i =>
    if s.holder i = some p ∧ (s.buf i).block.1 = ROOTDEV then s.logWrite la i else none
  | .release i =>
    if s.holder i = some p ∧ s.dirty i = false then some (s.unlock la p i true) else none
  | .beginOp =>
    if s.commit.isSome ∨ LOGBLOCKS < s.header.length + (s.outstanding + 1) * MAXOPBLOCKS then none
    else some { s with outstanding := s.outstanding + 1 }
  | .endOp => s.endOp p

/-- A step of process `p`, from the point where it stands. -/
def step (s : CacheSys P) (la : LogArea) (p : P) (a : CacheAction) : Option (CacheSys P) :=
  match s.pc p with
  | .lock k i =>
    if s.holder i = none then some ({ s with holder := upd s.holder i (some p) }.goto p (.check k i))
    else none
  | .check k i => if (s.buf i).valid then some (s.returns p k i) else some (s.goto p (.load k i))
  | .load k i =>
    some ((s.setBuf i { s.buf i with data := s.disk (s.buf i).block }).goto p (.fill k i))
  | .fill k i => some ((s.setBuf i { s.buf i with valid := true }).returns p k i)
  | .unref i => some (s.unref p i)
  | .run =>
    match s.commit with
    | some (q, c) => if q = p then s.commitStep la p c else s.call la p a
    | none => s.call la p a

def nextState (s : CacheSys P) (la : LogArea) (l : P × CacheAction) : Option (CacheSys P) :=
  { s with output := none }.step la l.1 l.2

end CacheSys

section Steps

variable {P : Type} [DecidableEq P]

def CacheStep (la : LogArea) (s : CacheSys P) (l : P × CacheAction) (s' : CacheSys P) : Prop :=
  s.nextState la l = some s'

/-- Before the first operation: nobody uses a buffer, and the buffers hold what is on the disk. The
buffers that were never used, among them the head of the list, belong to block `0` of device `0`. -/
structure CacheInit (s : CacheSys P) : Prop where
  head : (s.buf CacheSys.head).block = (0, 0)
  unused : ∀ i ≠ CacheSys.head, (s.buf i).block = (0, 0) → (s.buf i).valid = false
  unique : ∀ i j, (s.buf i).block = (s.buf j).block → (s.buf i).block ≠ (0, 0) → i = j
  ref : ∀ i, (s.buf i).ref = 0
  holder : ∀ i, s.holder i = none
  data : ∀ i, (s.buf i).valid = true → (s.buf i).data = s.disk (s.buf i).block
  header : s.header = []
  outstanding : s.outstanding = 0
  commit : s.commit = none
  pc : ∀ p, s.pc p = .run
  dirty : ∀ i, s.dirty i = false
  left : s.left = s.disk
  written : s.written = s.disk
  output : s.output = none

/-- The cache after `init`. -/
def CacheSys.boot (disk : BlockId → Bytes) : CacheSys P where
  buf _ := ⟨false, (0, 0), 0, fun _ => 0⟩
  prev i := i - 1
  next i := i + 1
  holder _ := none
  disk := disk
  header := []
  outstanding := 0
  commit := none
  pc _ := .run
  dirty _ := false
  left := disk
  written := disk
  output := none

omit [DecidableEq P] in
theorem cacheInit_boot (disk : BlockId → Bytes) : CacheInit (CacheSys.boot disk : CacheSys P) where
  head := rfl
  unused _ _ _ := rfl
  unique _ _ _ h := absurd rfl h
  ref _ := rfl
  holder _ := rfl
  data _ h := by cases h
  header := rfl
  outstanding := rfl
  commit := rfl
  pc _ := rfl
  dirty _ := rfl
  left := rfl
  written := rfl
  output := rfl

end Steps

end Octopos
