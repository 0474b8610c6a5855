import Octopos.Param
import Octopos.Lib.Bytes
import Octopos.Lib.Wp

/-!
# Committing and recovering the log

The functions of `log.rs` that move blocks between the buffer cache, the log area and the home
blocks.

The log occupies the header block `start` and the `LOGBLOCKS` blocks after it. A disk write is
atomic, and the power may fail between two of them: a machine carries the number of writes it will
still complete. A home block of the transaction stays cached until it is installed; any other buffer
equals its disk block whenever it may be evicted, so eviction does not change what is read.
-/

namespace Octopos

abbrev Disk := ℕ → Bytes

/-- Why the machine stops: the power fails, leaving a disk, or the kernel panics. -/
inductive Stop
  | crash (disk : Disk)
  | panic

/-- The disk, the buffer cache and the in-memory log header (`LogInner::header`). -/
structure LogMachine where
  disk : Disk
  cache : ℕ → Option Bytes
  n : UInt32
  blocks : ℕ → UInt32
  budget : Option ℕ

namespace LogMachine

/-- What a read of block `b` returns. -/
def buf (s : LogMachine) (b : ℕ) : Bytes := (s.cache b).getD (s.disk b)

/-- The machine with `v` in the buffer of block `b`. -/
def fill (s : LogMachine) (b : ℕ) (v : Bytes) : LogMachine :=
  { s with cache := Function.update s.cache b (some v) }

/-- Home block of the `i`-th logged block. -/
def home (s : LogMachine) (i : ℕ) : ℕ := (s.blocks i).toNat

end LogMachine

abbrev LogM := Prog Stop LogMachine

/-- `BCACHE.read`. -/
def bread (b : ℕ) : LogM Bytes := do
  let s ← get
  set (s.fill b (s.buf b))
  return s.buf b

/-- Change the contents of a buffer in place (`data_mut`). -/
def setData (b : ℕ) (v : Bytes) : LogM PUnit :=
  modify fun s => s.fill b v

/-- `BCACHE.write`: the write happens, or the power fails before it. -/
def bwrite (b : ℕ) : LogM PUnit := do
  let s ← get
  if s.budget = some 0 then throw (.crash s.disk)
  else
    set { s with
      disk := Function.update s.disk b (s.buf b)
      budget := s.budget.map (· - 1) }

/-- `header.n` in a header block. -/
def headerN (b : Bytes) : UInt32 := get32 b 0

/-- `header.blocks[i]` in a header block. -/
def headerBlock (b : Bytes) (i : ℕ) : UInt32 := get32 b (4 + 4 * i)

/-- A header block with `n` and the first `n` block numbers overwritten. -/
def putHeader (b : Bytes) (n : UInt32) (blocks : ℕ → UInt32) : Bytes :=
  (List.range n.toNat).foldl (fun b i => set32 b (4 + 4 * i) (blocks i)) (set32 b 0 n)

/-- `Log::read_head`: indexing `blocks` panics when the header claims more than `LOGBLOCKS`. -/
def readHead (start : ℕ) : LogM PUnit := do
  let buf ← bread start
  if LOGBLOCKS < (headerN buf).toNat then throw .panic
  else
    modify fun s =>
      { s with
        n := headerN buf
        blocks := fun i => if i < (headerN buf).toNat then headerBlock buf i else s.blocks i }

/-- `Log::write_head`. -/
def writeHead (start : ℕ) : LogM PUnit := do
  let buf ← bread start
  let s ← get
  if LOGBLOCKS < s.n.toNat then throw .panic
  else
    setData start (putHeader buf s.n s.blocks)
    bwrite start

/-- One round of the loop of `Log::write_log`; `blocks[tail]` panics past the end of the array. -/
def writeLogBlock (start tail : ℕ) : LogM PUnit := do
  let s ← get
  if LOGBLOCKS ≤ tail then throw .panic
  else
    let _ ← bread (start + tail + 1)
    let source ← bread (s.home tail)
    setData (start + tail + 1) source
    bwrite (start + tail + 1)

/-- `Log::write_log`. -/
def writeLog (start : ℕ) : LogM PUnit := do
  let s ← get
  (List.range s.n.toNat).forM (writeLogBlock start)

/-- One round of the loop of `Log::install_trans`; pins are not modelled. -/
def installBlock (start tail : ℕ) : LogM PUnit := do
  let s ← get
  if LOGBLOCKS ≤ tail then throw .panic
  else
    let lbuf ← bread (start + tail + 1)
    let _ ← bread (s.home tail)
    setData (s.home tail) lbuf
    bwrite (s.home tail)

/-- `Log::install_trans`. -/
def installTrans (start : ℕ) : LogM PUnit := do
  let s ← get
  (List.range s.n.toNat).forM (installBlock start)

/-- Set `header.n` to zero in memory and write the header. -/
def clearHead (start : ℕ) : LogM PUnit := do
  modify fun s => { s with n := 0 }
  writeHead start

/-- `commit`. -/
def commit (start : ℕ) : LogM PUnit := do
  let s ← get
  if 0 < s.n.toNat then
    writeLog start
    writeHead start
    installTrans start
    clearHead start

/-- `recover_from_log`. -/
def recoverFromLog (start : ℕ) : LogM PUnit := do
  readHead start
  installTrans start
  clearHead start

def boot (disk : Disk) (budget : Option ℕ) : LogMachine where
  disk := disk
  cache := fun _ => none
  n := 0
  blocks := fun _ => 0
  budget := budget

/-- The disk a run leaves behind; `none` if the kernel panicked. -/
def leftDisk : Except Stop (PUnit × LogMachine) → Option Disk
  | .ok (_, s) => some s.disk
  | .error (.crash d) => some d
  | .error .panic => none

/-- The disk left by `commit` when the power fails after `k` disk writes. -/
def commitDisk (start : ℕ) (s : LogMachine) (k : ℕ) : Option Disk :=
  leftDisk ((commit start).run { s with budget := some k })

/-- The disk left by `recover_from_log` after a reboot. -/
def recoverDisk (start : ℕ) (budget : Option ℕ) (d : Disk) : Option Disk :=
  leftDisk ((recoverFromLog start).run (boot d budget))

/-! ## The header block -/

theorem get32_foldl_of_disjoint {blocks : ℕ → UInt32} {p n : ℕ} (b : Bytes)
    (h : p = 0 ∨ 4 + 4 * n ≤ p) :
    get32 ((List.range n).foldl (fun b i => set32 b (4 + 4 * i) (blocks i)) b) p = get32 b p := by
  induction n with
  | zero => rfl
  | succ n ih =>
    rw [List.range_succ, List.foldl_concat, set32, get32_blit_of_disjoint (by omega), ih (by omega)]

theorem headerN_putHeader (b : Bytes) (n : UInt32) (blocks : ℕ → UInt32) :
    headerN (putHeader b n blocks) = n := by
  rw [headerN, putHeader, get32_foldl_of_disjoint _ (Or.inl rfl), get32_set32]

theorem headerBlock_foldl {blocks : ℕ → UInt32} {n i : ℕ} (b : Bytes) (hi : i < n) :
    headerBlock ((List.range n).foldl (fun b i => set32 b (4 + 4 * i) (blocks i)) b) i =
      blocks i := by
  induction n with
  | zero => omega
  | succ n ih =>
    rw [List.range_succ, List.foldl_concat]
    by_cases hin : i = n
    · subst hin
      exact get32_set32 _ _ _
    · rw [headerBlock, set32, get32_blit_of_disjoint (by omega)]
      exact ih (by omega)

theorem headerBlock_putHeader (b : Bytes) {n : UInt32} (blocks : ℕ → UInt32) {i : ℕ}
    (hi : i < n.toNat) : headerBlock (putHeader b n blocks) i = blocks i :=
  headerBlock_foldl _ hi

end Octopos
