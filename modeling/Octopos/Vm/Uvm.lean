import Octopos.Vm.PageTable

/-!
# User memory

The functions of `Uvm` (`vm.rs`): growing and shrinking the memory of a process, sharing it with a
child, resolving page faults, and copying between the kernel and user memory. The copies also return
the entries through which bytes were copied, so that one can say which pages they touch.
-/

namespace Octopos

/-- Addition of `usize`. -/
@[irreducible] def usizeAdd (a b : ℕ) : VmM ℕ :=
  if USIZE ≤ a + b then throw .overflow else return a + b

/-- Subtraction of `usize`. -/
@[irreducible] def usizeSub (a b : ℕ) : VmM ℕ := if a < b then throw .overflow else return a - b

/-- `pg_round_up` -/
def pgRoundUp (size : ℕ) : VmM ℕ := do
  let a ← usizeAdd size PGSIZE
  return pgRoundDown (a - 1)

/-- The number of iterations of `(lo..hi).step_by(PGSIZE)`. -/
def stepCount (lo hi : ℕ) : ℕ := (hi - lo + PGSIZE - 1) / PGSIZE

/-- Copy `n` bytes to a place in a page. -/
def Vm.poke (s : Vm) (pa offset n : ℕ) (src : Bytes) : Vm :=
  { s with data := upd s.data pa (blit (s.data pa) offset n src) }

namespace Uvm

variable (A : Allocator)

/-- `Uvm::dealloc` -/
def dealloc (root oldSize newSize : ℕ) : VmM ℕ := do
  if oldSize ≤ newSize then return oldSize
  else
    let old ← pgRoundUp oldSize
    let new ← pgRoundUp newSize
    if new < old then unmap A root new ((old - new) / PGSIZE) true
    return newSize

/-- The loop of `Uvm::alloc` over the remaining pages. -/
def allocLoop (root oldSize newSize : ℕ) (xperm : Pte) : ℕ → ℕ → VmM (Except VmError ℕ)
  | 0, _ => return .ok newSize
  | n + 1, i => do
    match ← pageAlloc A with
    | none =>
      let _ ← dealloc A root i oldSize
      return .error .alloc
    | some mem =>
      match ← PageTable.mapPages A root i mem PGSIZE (PTE_R ||| PTE_U ||| xperm) with
      | .error err =>
        pageFree mem
        let _ ← dealloc A root i oldSize
        return .error err
      | .ok _ => allocLoop root oldSize newSize xperm n (i + PGSIZE)

/-- `Uvm::alloc` -/
def alloc (root oldSize newSize : ℕ) (xperm : Pte) : VmM (Except VmError ℕ) := do
  if newSize < oldSize then return .ok oldSize
  else
    let old ← pgRoundUp oldSize
    allocLoop A root old newSize xperm (stepCount old newSize) old

/-- `Uvm::free` -/
def free (root size : ℕ) : VmM PUnit := do
  if 0 < size then
    let top ← pgRoundUp size
    unmap A root 0 (top / PGSIZE) true
  PageTable.freeWalk 3 root

/-- `Uvm::proc_free` -/
def procFree (root size : ℕ) : VmM PUnit := do
  unmap A root TRAMPOLINE 1 false
  unmap A root TRAPFRAME 1 false
  free A root size

/-- The loop of `Uvm::copy` over the remaining pages. -/
def copyLoop (parent child : ℕ) : ℕ → ℕ → VmM (Except VmError PUnit)
  | 0, _ => return .ok ⟨⟩
  | n + 1, i => do
    match ← PageTable.walkRaw A parent i false with
    -- an intermediate page is absent, lazily allocated
    | .error _ => copyLoop parent child n (i + PGSIZE)
    | .ok (table, j) =>
      let pte ← getPte table j
      if !pte.isV then copyLoop parent child n (i + PGSIZE)
      else
        let pte ← markCow table j
        match ← PageTable.mapPages A child i pte.asPa PGSIZE pte.flags with
        | .error err =>
          unmap A child 0 (i / PGSIZE) true
          return .error err
        | .ok _ =>
          incrementRef pte.asPa
          copyLoop parent child n (i + PGSIZE)

/-- `Uvm::copy` -/
def copy (parent child size : ℕ) : VmM (Except VmError PUnit) :=
  copyLoop A parent child (stepCount 0 size) 0

/-- Case 3 of `Uvm::vmfault`: copy a shared page and make it writable. -/
def copyPage (table : ℕ) (i : Fin 512) (pte : Pte) : VmM (Except VmError ℕ) := do
  match ← pageAlloc A with
  | none => return .error .alloc
  | some mem =>
    modify fun s => s.poke mem 0 PGSIZE (s.data pte.asPa)
    setPte table i (paToPte mem ||| ((pte.flags &&& ~~~PTE_COW) ||| PTE_W))
    pageFree pte.asPa
    return .ok mem

/-- Case 4 of `Uvm::vmfault`: map a new page. -/
def lazyPage (root va : ℕ) : VmM (Except VmError ℕ) := do
  match ← pageAlloc A with
  | none => return .error .alloc
  | some mem =>
    match ← PageTable.mapPages A root va mem PGSIZE (PTE_W ||| PTE_U ||| PTE_R) with
    | .error e =>
      pageFree mem
      return .error e
    | .ok _ => return .ok mem

/-- `Uvm::vmfault`, while the current process has size `size`. -/
def vmfault (root size va : ℕ) : VmM (Except VmError ℕ) := do
  -- case 1: out-of-bounds access
  if size ≤ va then return .error .invalidAddress
  else
    let va := pgRoundDown va
    match ← PageTable.walkRaw A root va false with
    | .error _ => lazyPage A root va
    | .ok (table, i) =>
      let pte ← getPte table i
      if !pte.isV then lazyPage A root va
      -- case 2: mapped but not writable
      else if !pte.isCow then return .error .invalidAddress
      else copyPage A table i pte

/-- The physical page of a user page, resolved if it is not there. -/
def userPage (root size va0 : ℕ) : VmM (Except VmError ℕ) := do
  match ← PageTable.walkAddr A root va0 with
  | .ok pa0 => return .ok pa0
  | .error _ => vmfault A root size va0

/-- The loop of `Uvm::copy_to`, with at most `fuel` iterations. -/
def copyToLoop (root size : ℕ) : ℕ → List UInt8 → ℕ → VmM (Except VmError PUnit × List Pte)
  | _, [], _ => return (.ok ⟨⟩, [])
  | 0, _ :: _, _ => throw .running
  | fuel + 1, src, dstva => do
    let va0 := pgRoundDown dstva
    if MAXVA < va0 then return (.error .invalidAddress, [])
    else
      match ← userPage A root size va0 with
      | .error e => return (.error e, [])
      | .ok pa0 =>
        match ← PageTable.walk A root va0 with
        | .error e => return (.error e, [])
        | .ok pte =>
          -- forbid copy_out over read-only user text pages
          if !pte.isW then return (.error .invalidPte, [])
          else
            let n := min (PGSIZE - (dstva - va0)) src.length
            modify fun s => s.poke pa0 (dstva - va0) n fun i => src.getD i 0
            let dstva ← usizeAdd va0 PGSIZE
            let (r, touched) ← copyToLoop root size fuel (src.drop n) dstva
            return (r, pte :: touched)

/-- `Uvm::copy_to` -/
def copyTo (root size : ℕ) (src : List UInt8) (dst : ℕ) : VmM (Except VmError PUnit × List Pte) :=
  copyToLoop A root size src.length src dst

/-- What `Uvm::copy_from` did: its result, the bytes that it copied and the entries it copied them
through. -/
structure CopyFrom where
  result : Except VmError PUnit
  bytes : List UInt8
  touched : List Pte

/-- The loop of `Uvm::copy_from` over `len` more bytes, with at most `fuel` iterations. -/
def copyFromLoop (root size : ℕ) : ℕ → ℕ → ℕ → VmM CopyFrom
  | _, 0, _ => return ⟨.ok ⟨⟩, [], []⟩
  | 0, _ + 1, _ => throw .running
  | fuel + 1, len, srcva => do
    let va0 := pgRoundDown srcva
    match ← userPage A root size va0 with
    | .error e => return ⟨.error e, [], []⟩
    | .ok pa0 =>
      let n := min (PGSIZE - (srcva - va0)) len
      let s ← get
      let bytes := (List.range n).map fun i => s.data pa0 (srcva - va0 + i)
      let pte := s.entry root va0
      let srcva ← usizeAdd va0 PGSIZE
      let r ← copyFromLoop root size fuel (len - n) srcva
      return { r with bytes := bytes ++ r.bytes, touched := pte :: r.touched }

/-- `Uvm::copy_from` -/
def copyFrom (root size src len : ℕ) : VmM CopyFrom := copyFromLoop A root size len len src

/-- The translation of an address for an access in user mode. -/
def access (root va : ℕ) (write : Bool) : VmM (Option ℕ) := do
  match ← PageTable.walk A root va with
  | .error _ => return none
  | .ok pte =>
    if pte.isV && pte.isU && (if write then pte.isW else pte.isR) then return some pte.asPa
    else return none

/-- An access in user mode (`usertrap`): a page fault runs `vmfault`, which ends the process or lets
it try again, at most `fuel` times. -/
def userAccess (root size va : ℕ) (write : Bool) : ℕ → VmM (Except VmError ℕ)
  | 0 => throw .running
  | fuel + 1 => do
    match ← access A root va write with
    | some pa => return .ok pa
    | none =>
      match ← vmfault A root size va with
      | .error e => return .error e
      | .ok _ => userAccess root size va write fuel

/-- A load of a byte by the user program. -/
def load (root size va : ℕ) : VmM (Except VmError UInt8) := do
  match ← userAccess A root size va false 3 with
  | .error e => return .error e
  | .ok pa =>
    let s ← get
    return .ok (s.data pa (va % PGSIZE))

/-- A store of a byte by the user program. -/
def store (root size va : ℕ) (b : UInt8) : VmM (Except VmError PUnit) := do
  match ← userAccess A root size va true 3 with
  | .error e => return .error e
  | .ok pa =>
    modify fun s => s.poke pa (va % PGSIZE) 1 fun _ => b
    return .ok ⟨⟩

end Uvm

end Octopos
