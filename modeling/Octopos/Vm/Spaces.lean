import Octopos.Lib.Count
import Octopos.Vm.Entries
import Octopos.Vm.Uvm

/-!
# Address spaces

The memory holds the address spaces of a finite set `ι` of owners. Every page in use belongs to
someone: it is a table of one address space, a page of user memory, a page of the kernel, or it was
in use from the start. `MemOk` ties the memory to its abstract description: which page tables there
are (`roots`), whom the pages belong to (`own`), what the entries are (`pte`), and which bytes each
address space holds (`mem`).
-/

namespace Octopos

/-- Who a page belongs to. -/
inductive Owner (ι : Type)
  | table (i : ι) (n : Node)
  | user
  | kernel
  | static (refs : UInt8)

/-- The count of a page that is neither mapped by a user nor a table. -/
def fixedCount {ι : Type} : Option (Owner ι) → Option UInt8
  | none => some 0
  | some .kernel => some 1
  | some (.static n) => some n
  | some .user => none
  | some (.table _ _) => none

/-- The number of pages below the trapframe. -/
def USERPAGES : ℕ := TRAPFRAME / PGSIZE

def uva (k : Fin USERPAGES) : ℕ := k * PGSIZE

/-- A page of user memory. -/
structure UserVa (va : ℕ) : Prop where
  aligned : va % PGSIZE = 0
  top : va < TRAPFRAME

def Pte.target (e : Pte) : Option ℕ := if e.isV then some e.asPa else none

section Defs

variable {ι : Type} [DecidableEq ι]

/-- The places of the tables of one address space. -/
def labels (own : ℕ → Option (Owner ι)) (i : ι) (a : ℕ) : Option Node :=
  match own a with
  | some (.table j n) => if j = i then some n else none
  | _ => none

/-- The owners after the tables of one address space became those of `lab`. -/
def relabel (own : ℕ → Option (Owner ι)) (i : ι) (lab : ℕ → Option Node) (a : ℕ) :
    Option (Owner ι) :=
  match lab a with
  | some n => some (.table i n)
  | none => own a

def setEntry (pte : ι → ℕ → Pte) (i : ι) (va : ℕ) (e : Pte) : ι → ℕ → Pte :=
  upd pte i (upd (pte i) va e)

def setBytes (mem : ι → Bytes) (i : ι) (va n : ℕ) (src : Bytes) : ι → Bytes :=
  upd mem i (blit (mem i) va n src)

/-- The physical page of every user page of every address space. -/
def mapping (pte : ι → ℕ → Pte) (x : ι × Fin USERPAGES) : Option ℕ := (pte x.1 (uva x.2)).target

/-- The page tables. -/
structure Trees (vm : Vm) (roots : ι → Option ℕ) (own : ℕ → Option (Owner ι)) (pte : ι → ℕ → Pte) :
    Prop where
  radix : ∀ {i r}, roots i = some r → Radix vm r (labels own i)
  entry : ∀ {i r}, roots i = some r → ∀ va, va % PGSIZE = 0 → va < MAXVA → vm.entry r va = pte i va
  dead : ∀ {i}, roots i = none → ∀ a n, own a ≠ some (.table i n)
  blank : ∀ {i}, roots i = none → ∀ va, pte i va = 0

/-- The pages in use are those that belong to someone. -/
structure Pages (vm : Vm) (own : ℕ → Option (Owner ι)) : Prop where
  page : ∀ {a o}, own a = some o → IsPage a
  used : ∀ {a}, IsPage a → (vm.used a = true ↔ own a ≠ none)
  count : ∀ {a}, IsPage a → ∀ {n}, fixedCount (own a) = some n → vm.refs (pageIndex a) = n

variable [Fintype ι]

/-- The pages of user memory, how often they are mapped and who may write to them. -/
structure Users (refs : ℕ → UInt8) (own : ℕ → Option (Owner ι)) (pte : ι → ℕ → Pte) : Prop where
  leaf : ∀ {i k}, (pte i (uva k)).isV = true →
    (pte i (uva k)).isR = true ∧ own (pte i (uva k)).asPa = some .user
  inj : ∀ {i k l a}, mapping pte (i, k) = some a → mapping pte (i, l) = some a → k = l
  count : ∀ {a}, own a = some .user →
    (refs (pageIndex a)).toNat = uses (mapping pte) a ∧ 0 < uses (mapping pte) a
  excl : ∀ {i k}, (pte i (uva k)).isV = true → (pte i (uva k)).isW = true →
    uses (mapping pte) (pte i (uva k)).asPa = 1

omit [Fintype ι] [DecidableEq ι] in
def Views (data : ℕ → Bytes) (pte : ι → ℕ → Pte) (mem : ι → Bytes) : Prop :=
  ∀ i k off, off < PGSIZE → mem i (uva k + off) =
    if (pte i (uva k)).isV then data (pte i (uva k)).asPa off else 0

/-- The memory and its description. -/
structure MemOk (vm : Vm) (roots : ι → Option ℕ) (own : ℕ → Option (Owner ι)) (pte : ι → ℕ → Pte)
    (mem : ι → Bytes) : Prop where
  trees : Trees vm roots own pte
  pages : Pages vm own
  users : Users vm.refs own pte
  views : Views vm.data pte mem

end Defs

/-! ## Addresses and entries -/

theorem uva_userVa (k : Fin USERPAGES) : UserVa (uva k) := by
  refine ⟨Nat.mul_mod_left _ _, ?_⟩
  have hlt : k.val < TRAPFRAME / PGSIZE := k.isLt
  have hpg : PGSIZE = 4096 := rfl
  have htf : TRAPFRAME = 2 ^ 38 - 8192 := rfl
  rw [hpg, htf] at hlt
  unfold uva
  rw [hpg, htf]
  omega

theorem UserVa.exists_uva {va : ℕ} (h : UserVa va) : ∃ k, uva k = va := by
  obtain ⟨ha, ht⟩ := h
  have hpg : PGSIZE = 4096 := rfl
  have htf : TRAPFRAME = 2 ^ 38 - 8192 := rfl
  refine ⟨⟨va / PGSIZE, ?_⟩, ?_⟩
  · unfold USERPAGES
    rw [htf] at ht ⊢
    rw [hpg] at ha ⊢
    omega
  · change va / PGSIZE * PGSIZE = va
    rw [hpg] at ha ⊢
    omega

theorem uva_inj {k l : Fin USERPAGES} (h : uva k = uva l) : k = l :=
  Fin.ext (Nat.eq_of_mul_eq_mul_right (by decide) h)

theorem UserVa.lt_MAXVA {va : ℕ} (h : UserVa va) : va < MAXVA := h.top.trans (by decide)

theorem UserVa.fits {va : ℕ} (h : UserVa va) : va + PGSIZE < USIZE := by
  have hlt := h.top
  have hpg : PGSIZE = 4096 := rfl
  have htf : TRAPFRAME = 2 ^ 38 - 8192 := rfl
  have hu : USIZE = 2 ^ 64 := rfl
  omega

section Lemmas

variable {ι : Type} [DecidableEq ι] {own : ℕ → Option (Owner ι)} {i j : ι} {a : ℕ} {n : Node}
  {lab : ℕ → Option Node} {pte : ι → ℕ → Pte} {k : Fin USERPAGES} {e : Pte}

theorem labels_eq_some : labels own i a = some n ↔ own a = some (.table i n) := by
  unfold labels
  split
  · rename_i j m h
    rw [h]
    split_ifs with hj
    · simp [hj]
    · simp [hj]
  · rename_i h
    exact ⟨fun h' => (by cases h'), fun h' => absurd h' (h i n)⟩

theorem mapping_setEntry (e : Pte) :
    mapping (setEntry pte i (uva k) e) = upd (mapping pte) (i, k) e.target := by
  funext ⟨j, l⟩
  unfold mapping setEntry
  by_cases hj : j = i
  · subst hj
    rw [upd_self]
    by_cases hl : l = k
    · subst hl
      rw [upd_self, upd_self]
    · rw [upd_of_ne fun h => hl (uva_inj h), upd_of_ne fun h => hl (Prod.mk.inj h).2]
  · rw [upd_of_ne hj, upd_of_ne fun h => hj (Prod.mk.inj h).1]

theorem setEntry_self (pte : ι → ℕ → Pte) (i : ι) (va : ℕ) (e : Pte) :
    setEntry pte i va e i va = e := by
  unfold setEntry
  rw [upd_self, upd_self]

theorem setEntry_of_ne {va va' : ℕ} (h : j ≠ i ∨ va' ≠ va) :
    setEntry pte i va e j va' = pte j va' := by
  unfold setEntry
  by_cases hj : j = i
  · subst hj
    rw [upd_self, upd_of_ne (h.resolve_left fun hne => hne rfl)]
  · rw [upd_of_ne hj]

theorem setEntry_cases (pte : ι → ℕ → Pte) (i : ι) (k : Fin USERPAGES) (e : Pte) (j : ι)
    (l : Fin USERPAGES) :
    (j = i ∧ l = k) ∨ ((j, l) ≠ (i, k) ∧ setEntry pte i (uva k) e j (uva l) = pte j (uva l)) := by
  by_cases hjl : j = i ∧ l = k
  · exact .inl hjl
  · refine .inr ⟨fun h => hjl (Prod.mk.inj h), setEntry_of_ne ?_⟩
    rw [not_and_or] at hjl
    exact hjl.imp_right fun hne heq => hne (uva_inj heq)

theorem Pte.target_eq_some : e.target = some a ↔ e.isV = true ∧ e.asPa = a := by
  unfold Pte.target
  split_ifs with hv
  · simp [hv]
  · simp [hv]

theorem Pte.target_none (h : e.isV = false) : e.target = none := by
  unfold Pte.target
  rw [if_neg (by rw [h]; exact Bool.false_ne_true)]

omit [DecidableEq ι] in
theorem mapping_eq_some :
    mapping pte (i, k) = some a ↔ (pte i (uva k)).isV = true ∧ (pte i (uva k)).asPa = a :=
  Pte.target_eq_some

theorem labels_congr {own' : ℕ → Option (Owner ι)}
    (h : ∀ a n, own' a = some (.table i n) ↔ own a = some (.table i n)) :
    labels own' i = labels own i := by
  funext a
  refine Option.ext fun n => ?_
  rw [labels_eq_some, labels_eq_some, h]

/-- The tables of an address space after it has grown: those that it had, and pages that belonged to
no one. -/
structure Relabels (own : ℕ → Option (Owner ι)) (i : ι) (lab : ℕ → Option Node) : Prop where
  old : ∀ {a n}, own a = some (.table i n) → lab a = some n
  new : ∀ {a n}, lab a = some n → own a = some (.table i n) ∨ own a = none

namespace Relabels

variable (h : Relabels own i lab)
include h

theorem table_iff (j : ι) (a : ℕ) (n : Node) :
    relabel own i lab a = some (.table j n) ↔
      if j = i then lab a = some n else own a = some (.table j n) := by
  unfold relabel
  cases hl : lab a with
  | none =>
    dsimp only
    split_ifs with hj
    · subst hj
      refine ⟨fun ho => ?_, False.elim⟩
      rw [h.old ho] at hl
      cases hl
    · rfl
  | some m =>
    dsimp only
    split_ifs with hj
    · subst hj
      simp
    · refine ⟨fun ho => absurd (Owner.table.inj (Option.some.inj ho)).1.symm hj, fun ho => ?_⟩
      rcases h.new hl with hm | hm
      · rw [hm] at ho
        exact absurd (Owner.table.inj (Option.some.inj ho)).1.symm hj
      · rw [hm] at ho
        cases ho

theorem labels_self : labels (relabel own i lab) i = lab := by
  funext a
  refine Option.ext fun n => ?_
  rw [labels_eq_some, h.table_iff, if_pos rfl]

theorem labels_of_ne (hj : j ≠ i) : labels (relabel own i lab) j = labels own j :=
  labels_congr fun a n => by rw [h.table_iff, if_neg hj]

omit [DecidableEq ι] in
theorem keep {o : Owner ι} (ho : ∀ j n, o ≠ .table j n) :
    relabel own i lab a = some o ↔ own a = some o := by
  unfold relabel
  cases hl : lab a with
  | none => rfl
  | some m =>
    dsimp only
    refine ⟨fun hm => absurd (Option.some.inj hm).symm (ho i m), fun hm => ?_⟩
    rcases h.new hl with hn | hn
    · rw [hn] at hm
      exact absurd (Option.some.inj hm).symm (ho i m)
    · rw [hn] at hm
      cases hm

omit [DecidableEq ι] in
theorem lab_none {o : Owner ι} (ho : ∀ n, o ≠ .table i n) (ha : own a = some o) : lab a = none := by
  by_contra hne
  obtain ⟨m, hm⟩ := Option.ne_none_iff_exists'.1 hne
  rcases h.new hm with hn | hn
  · rw [hn] at ha
    exact ho m (Option.some.inj ha).symm
  · rw [hn] at ha
    cases ha

end Relabels

end Lemmas

end Octopos
