import Octopos.Lib.Bytes
import Octopos.Lib.Run
import Octopos.Lib.Wp
import Octopos.Vm.Pte

/-!
# Physical pages and page tables

`kalloc.rs` and the part of `vm.rs` that builds and walks page tables. Physical memory consists of
pages, named by their addresses. A page holds a page table or bytes, and the allocator hands out
pages that are not in use; which one is up to the allocator (`Allocator`).
-/

namespace Octopos

/-- Errors of `vm.rs`. -/
inductive VmError
  | alloc
  | invalidAddress
  | invalidPage
  | invalidPte
  | fs
  deriving DecidableEq, Repr

/-- Why the kernel stops inside of `vm.rs` and `kalloc.rs`. -/
inductive VmPanic
  /-- "map_pages: va not aligned" -/
  | vaNotAligned
  /-- "map_pages: size not aligned" -/
  | sizeNotAligned
  /-- "map_pages: size" -/
  | sizeZero
  /-- "map_pages: remap" -/
  | remap
  /-- "uvmunmap: not aligned" -/
  | unmapNotAligned
  /-- "uvmunmap: not a leaf" -/
  | notLeaf
  /-- "free_walk: leaf" -/
  | leaf
  | null
  | pageRef
  | overflow
  | index
  | running
  deriving DecidableEq, Repr

abbrev RawPageTable := Fin 512 → Pte

/-- Physical memory. -/
structure Vm where
  table : ℕ → RawPageTable
  data : ℕ → Bytes
  used : ℕ → Bool
  refs : ℕ → UInt8
  requests : ℕ

/-- The entry of an address; zero if a table on the way is missing. -/
def Vm.entry (s : Vm) (root va : ℕ) : Pte :=
  let d := s.table root (px 2 va)
  if d.isV then
    let l := s.table d.asPa (px 1 va)
    if l.isV then s.table l.asPa (px 0 va) else 0
  else 0

/-- The page allocator: it gives out a page that is not in use, or none. What it gives may depend
on everything that was asked of it before. -/
structure Allocator where
  pick : ℕ → (ℕ → Bool) → Option ℕ
  unused : ∀ {n used pa}, pick n used = some pa → used pa = false
  aligned : ∀ {n used pa}, pick n used = some pa → pa % PGSIZE = 0
  base : ∀ {n used pa}, pick n used = some pa → KERNBASE ≤ pa
  top : ∀ {n used pa}, pick n used = some pa → pa < PHYSTOP

abbrev VmM := Prog VmPanic Vm

/-- The place of a page in `PAGE_REFS`. -/
def pageRef (pa : ℕ) : VmM ℕ :=
  if pa < KERNBASE ∨ (PHYSTOP - KERNBASE) / PGSIZE ≤ (pa - KERNBASE) / PGSIZE then throw .pageRef
  else pure ((pa - KERNBASE) / PGSIZE)

/-- `increment_ref` -/
def incrementRef (pa : ℕ) : VmM PUnit := do
  let i ← pageRef pa
  modify fun s => { s with refs := upd s.refs i (s.refs i + 1) }

/-- `Box::try_new_zeroed` of a page, through `Kmem::alloc`. -/
def pageAlloc (A : Allocator) : VmM (Option ℕ) := do
  let s ← get
  match A.pick s.requests s.used with
  | none =>
    set { s with requests := s.requests + 1 }
    return none
  | some pa =>
    let i ← pageRef pa
    set
      { s with
        table := upd s.table pa fun _ => 0
        data := upd s.data pa fun _ => 0
        used := upd s.used pa true
        refs := upd s.refs i 1
        requests := s.requests + 1 }
    return some pa

/-- Drop the box of a page: `Kmem::dealloc`. -/
def pageFree (pa : ℕ) : VmM PUnit := do
  let i ← pageRef pa
  modify fun s =>
    { s with
      refs := upd s.refs i (s.refs i - 1)
      used := if s.refs i = 1 then upd s.used pa false else s.used }

/-- The entry at an index of a page table. -/
def getPte (table : ℕ) (i : Fin 512) : VmM Pte := do
  let s ← get
  return s.table table i

def setPte (table : ℕ) (i : Fin 512) (e : Pte) : VmM PUnit :=
  modify fun s => { s with table := upd s.table table (upd (s.table table) i e) }

namespace PageTable

variable (A : Allocator)

/-- An iteration of the loop of `walk_raw`: the table of the next level, made if it is missing. -/
def walkLevel (table va level : ℕ) (alloc : Bool) : VmM (Except VmError ℕ) := do
  let pte ← getPte table (px level va)
  if pte.isV then
    if pte.asPa = 0 then throw .null else return .ok pte.asPa
  else if !alloc then return .error .invalidPage
  else
    match ← pageAlloc A with
    | none => return .error .alloc
    | some page =>
      setPte table (px level va) (paToPte page ||| PTE_V)
      return .ok page

/-- `PageTable::try_new` -/
def tryNew : VmM (Except VmError ℕ) := do
  match ← pageAlloc A with
  | none => return .error .alloc
  | some page => return .ok page

/-- `PageTable::walk_raw`: the place of the entry of an address, as a table and an index. -/
def walkRaw (root va : ℕ) (alloc : Bool) : VmM (Except VmError (ℕ × Fin 512)) := do
  if MAXVA ≤ va then return .error .invalidAddress
  else
    match ← walkLevel A root va 2 alloc with
    | .error e => return .error e
    | .ok table =>
      match ← walkLevel A table va 1 alloc with
      | .error e => return .error e
      | .ok table => return .ok (table, px 0 va)

/-- `PageTable::walk`: the entry of an address. -/
def walk (root va : ℕ) : VmM (Except VmError Pte) := do
  match ← walkRaw A root va false with
  | .error e => return .error e
  | .ok (table, i) =>
    let pte ← getPte table i
    return .ok pte

/-- `PageTable::walk_addr` -/
def walkAddr (root va : ℕ) : VmM (Except VmError ℕ) := do
  if MAXVA < va then return .error .invalidAddress
  else
    match ← walk A root va with
    | .error e => return .error e
    | .ok pte => if !pte.isV || !pte.isU then return .error .invalidPte else return .ok pte.asPa

/-- The loop of `map_pages` over `n + 1` pages. -/
def mapLoop (root : ℕ) (perm : Pte) : ℕ → ℕ → ℕ → VmM (Except VmError PUnit)
  | n, va, pa => do
    match ← walkRaw A root va true with
    | .error e => return .error e
    | .ok (table, i) =>
      let pte ← getPte table i
      if pte.isV then throw .remap
      else
        setPte table i (paToPte pa ||| perm ||| PTE_V)
        match n with
        | 0 => return .ok ⟨⟩
        | n + 1 => mapLoop root perm n (va + PGSIZE) (pa + PGSIZE)

/-- `PageTable::map_pages` -/
def mapPages (root va pa size : ℕ) (perm : Pte) : VmM (Except VmError PUnit) :=
  if va % PGSIZE ≠ 0 then throw .vaNotAligned
  else if size % PGSIZE ≠ 0 then throw .sizeNotAligned
  else if size = 0 then throw .sizeZero
  else if USIZE ≤ va + size then throw .overflow
  else mapLoop A root perm (size / PGSIZE - 1) va pa

@[irreducible] def indices : List (Fin 512) := List.finRange 512

/-- An iteration of the loop of `free_walk`, where `walk` frees a table of the next level. -/
def freeEntry (walk : ℕ → VmM PUnit) (table : ℕ) (i : Fin 512) : VmM PUnit := do
  let pte ← getPte table i
  if pte.isV then
    if pte.isLeaf then throw .leaf
    else if pte.asPa = 0 then throw .null
    else
      walk pte.asPa
      setPte table i 0

/-- `PageTable::free_walk`, for a table of at most `depth` levels. -/
def freeWalk : ℕ → ℕ → VmM PUnit
  | 0, _ => throw .running
  | depth + 1, table => do
    indices.forM (freeEntry (freeWalk depth) table)
    pageFree table

end PageTable

namespace Uvm

variable (A : Allocator)

/-- An iteration of the loop of `Uvm::unmap`. -/
def unmapPage (root va : ℕ) (free : Bool) : VmM PUnit := do
  match ← PageTable.walkRaw A root va false with
  -- an intermediate page-table page is absent
  | .error _ => return ⟨⟩
  | .ok (table, i) =>
    let pte ← getPte table i
    if !pte.isV then return ⟨⟩
    else if !pte.isLeaf then throw .notLeaf
    else
      if free then pageFree pte.asPa
      setPte table i 0

/-- `Uvm::unmap` -/
def unmap (root va npages : ℕ) (free : Bool) : VmM PUnit :=
  if va % PGSIZE ≠ 0 then throw .unmapNotAligned
  else if USIZE ≤ va + npages * PGSIZE then throw .overflow
  else (List.range npages).forM fun k => unmapPage A root (va + k * PGSIZE) free

/-- The part of an iteration of `Uvm::copy` that turns a writable page into a copy-on-write page. -/
def markCow (table : ℕ) (i : Fin 512) : VmM Pte := do
  let pte ← getPte table i
  if pte.isW then
    let pte := pte &&& ~~~PTE_W
    let pte := pte ||| PTE_COW
    setPte table i pte
    return pte
  else return pte

/-- `Uvm::clear` -/
def clear (root va : ℕ) : VmM (Except VmError PUnit) := do
  match ← PageTable.walkRaw A root va false with
  | .error e => return .error e
  | .ok (table, i) =>
    let pte ← getPte table i
    setPte table i (pte &&& ~~~PTE_U)
    return .ok ⟨⟩

end Uvm

def Vm.blank : Vm := ⟨fun _ _ => 0, fun _ => fun _ => 0, fun _ => false, fun _ => 0, 0⟩

/-- An allocator that gives out the pages in order. -/
def bump : Allocator where
  pick n used := if n < 32768 ∧ used (KERNBASE + n * PGSIZE) = false then some (KERNBASE + n * PGSIZE) else none
  unused {n used pa} h := by
    split_ifs at h with hn
    cases h
    exact hn.2
  aligned {n used pa} h := by
    split_ifs at h with hn
    cases h
    rw [Nat.add_mul_mod_self_right]
    rfl
  base {n used pa} h := by
    split_ifs at h with hn
    cases h
    exact Nat.le_add_right _ _
  top {n used pa} h := by
    have hpg : PGSIZE = 4096 := rfl
    have hb : KERNBASE = 0x80000000 := rfl
    have ht : PHYSTOP = 0x88000000 := rfl
    split_ifs at h with hn
    cases h
    rw [hpg, hb, ht]
    omega

end Octopos
