import Octopos.Vm.Entries

/-!
# The page table as a finite map

A page table is made by `PageTable::try_new`, and then pages are mapped one at a time, unmapped, and
their flags changed, in any order; between these calls the rest of the memory may change in any way.
The state carries a record of what was installed last for each page. In every reachable state a
walk gives what the record says.
-/

namespace Octopos

/-- A page table and what was installed in it. -/
structure PtSys where
  vm : Vm
  root : ℕ
  installed : ℕ → Option (ℕ × Pte)

/-- What may be done to a page table. -/
inductive PtAction
  | mapPage (va pa : ℕ) (perm : Pte)
  | unmap (va npages : ℕ) (free : Bool)
  | clear (va : ℕ)
  | markCow (va : ℕ)
  | other
  deriving DecidableEq, Repr

namespace PtAction

/-- The parent's side of `Uvm::copy` for one page. -/
def copyPage (A : Allocator) (root va : ℕ) : VmM (Except VmError PUnit) := do
  match ← PageTable.walkRaw A root va false with
  | .error e => return .error e
  | .ok (table, i) =>
    let _ ← Uvm.markCow table i
    return .ok ⟨⟩

def call (A : Allocator) (root : ℕ) : PtAction → VmM (Except VmError PUnit)
  | mapPage va pa perm => PageTable.mapPages A root va pa PGSIZE perm
  | unmap va npages free => do
    Uvm.unmap A root va npages free
    return .ok ⟨⟩
  | clear va => Uvm.clear A root va
  | markCow va => copyPage A root va
  | other => return .ok ⟨⟩

def names : PtAction → ℕ → Bool
  | mapPage va _ _, a => a = va
  | unmap va npages _, a => va ≤ a ∧ a < va + npages * PGSIZE
  | clear va, a => a = va / PGSIZE * PGSIZE
  | markCow va, a => a = va / PGSIZE * PGSIZE
  | other, _ => false

/-- What a call that succeeded installs for the pages it is about. -/
def install : PtAction → Option (ℕ × Pte) → Option (ℕ × Pte)
  | mapPage _ pa perm, _ => some (pa, perm ||| PTE_V)
  | unmap _ _ _, _ => none
  | clear _, m => m.map fun (pa, f) => (pa, f &&& ~~~PTE_U)
  | markCow _, m => m.map fun (pa, f) => (pa, f.shared)
  | other, m => m

/-- What was installed after a call: a call that failed installs nothing. -/
def record (a : PtAction) (r : Except VmError PUnit) (m : ℕ → Option (ℕ × Pte)) :
    ℕ → Option (ℕ × Pte) :=
  match r with
  | .error _ => m
  | .ok _ => fun va => if a.names va then a.install (m va) else m va

/-- The calls that are made. A page is mapped while nothing is installed for it, at a page-aligned
physical address; and the pages that `Uvm::unmap` gives back to the allocator are not tables of this
page table. -/
def Allowed (s : PtSys) : PtAction → Prop
  | mapPage va pa perm => va % PGSIZE = 0 ∧ s.installed va = none ∧ pa % PGSIZE = 0 ∧ pa < 2 ^ 54 ∧
      perm.toNat < 2 ^ 10
  | unmap va npages free => free = true → ∀ a pa f, va ≤ a → a < va + npages * PGSIZE →
      s.installed a = some (pa, f) → ¬s.vm.IsTable s.root pa
  | _ => True

end PtAction

/-- A step: a call that returns, or a change of the memory outside of the tree. -/
def PtStep (A : Allocator) (s : PtSys) (a : PtAction) (s' : PtSys) : Prop :=
  match a with
  | .other => s'.root = s.root ∧ s'.installed = s.installed ∧
      SameOn (fun p => s.vm.IsTable s.root p) s.vm s'.vm
  | a => a.Allowed s ∧ ∃ r vm, (a.call A s.root).run s.vm = .ok (r, vm) ∧
      s' = ⟨vm, s.root, a.record r s.installed⟩

def PtInit (A : Allocator) (s : PtSys) : Prop :=
  (∃ vm, (PageTable.tryNew A).run vm = .ok (.ok s.root, s.vm)) ∧ s.installed = fun _ => none

/-- The entry agrees with what was installed. -/
def EntryOk (e : Pte) : Option (ℕ × Pte) → Prop
  | none => e.isV = false
  | some (pa, f) => e = paToPte pa ||| f ∧ f.isV = true ∧ pa % PGSIZE = 0 ∧ pa < 2 ^ 54 ∧
      f.toNat < 2 ^ 10

/-- The tree is a tree and its entries agree with what was installed. -/
structure PtInv (s : PtSys) (lab : ℕ → Option Node) : Prop where
  radix : Radix s.vm s.root lab
  entries : ∀ va, va % PGSIZE = 0 → va < MAXVA → EntryOk (s.vm.entry s.root va) (s.installed va)

section Step

variable {A : Allocator} {s s' : PtSys} {lab : ℕ → Option Node}

theorem Radix.isTable_iff_ne {vm : Vm} {root a : ℕ} (h : Radix vm root lab) :
    vm.IsTable root a ↔ lab a ≠ none := by
  rw [h.isTable_iff, Option.ne_none_iff_exists']

/-- What a call does to the entries: those that it does not name stay. -/
structure Called (s : PtSys) (a : PtAction) (r : Except VmError PUnit) (vm : Vm) : Prop where
  inv : ∃ lab, PtInv ⟨vm, s.root, a.record r s.installed⟩ lab
  others : ∀ va, va % PGSIZE = 0 → va < MAXVA → a.names va = false →
    vm.entry s.root va = s.vm.entry s.root va

theorem PtInv.of_edit (h : PtInv s lab) {a : PtAction} {va : ℕ} {e : Pte} {vm : Vm}
    {lab' : ℕ → Option Node} (he : Edited s.vm vm s.root lab lab' (upd (s.vm.entry s.root) va e))
    (hn : ∀ b, a.names b = decide (b = va)) (hok : EntryOk e (a.install (s.installed va))) :
    Called s a (.ok ⟨⟩) vm := by
  refine ⟨⟨lab', he.radix, fun b hb hb' => ?_⟩, fun b hb hb' hna => ?_⟩
  · change EntryOk (vm.entry s.root b) (if a.names b then _ else _)
    rw [he.entry b hb hb', hn]
    rcases eq_or_ne b va with rfl | hne
    · simp only [upd_self, decide_true, if_true]
      exact hok
    · simp only [upd_of_ne hne, hne, decide_false]
      exact h.entries b hb hb'
  · rw [hn, decide_eq_false_iff_not] at hna
    rw [he.entry b hb hb', upd_of_ne hna]

theorem PtInv.of_grown (h : PtInv s lab) {a : PtAction} {err : VmError} {vm : Vm}
    {lab' : ℕ → Option Node} (hg : TreeGrown s.vm vm s.root lab lab') :
    Called s a (.error err) vm := by
  refine ⟨⟨lab', hg.radix, fun b hb hb' => ?_⟩, fun b _ _ _ => hg.entry b⟩
  change EntryOk (vm.entry s.root b) (s.installed b)
  rw [hg.entry]
  exact h.entries b hb hb'

theorem PtInv.mapPage (h : PtInv s lab) {va pa : ℕ} {perm : Pte}
    (hok : (PtAction.mapPage va pa perm).Allowed s) :
    wp ((PtAction.mapPage va pa perm).call A s.root) (Called s (.mapPage va pa perm)) (fun _ =>
          True) s.vm := by
  obtain ⟨ha, hnone, hpa, hpa', hperm⟩ := hok
  by_cases hfit : va + PGSIZE < USIZE
  · refine mapPages_wp h.radix ha hfit (fun _ _ => trivial) (fun _ => h.of_grown (.refl h.radix))
      (fun _ _ _ hg => h.of_grown hg) fun vm lab' hva _ he _ => ?_
    refine h.of_edit he (fun _ => rfl) ⟨BitVec.or_assoc _ _ _, ?_, hpa, hpa', ?_⟩
    · rw [Pte.isV_eq, BitVec.getLsbD_or]
      exact Bool.or_true _
    · exact toNat_or_lt hperm (by decide)
  · change wp (PageTable.mapPages A s.root va pa PGSIZE perm) _ _ _
    unfold PageTable.mapPages
    rw [if_neg (not_not.2 ha), if_neg (by decide), if_neg (by decide), if_pos (not_lt.1 hfit)]
    exact wp_throw.2 trivial

theorem PtInv.of_write (h : PtInv s lab) {a : PtAction} {va t : ℕ} {e : Pte} (hva : va < MAXVA)
    (ht : lab t = some (.leaf (px 2 va) (px 1 va)))
    (hn : ∀ b, a.names b = decide (b = va / PGSIZE * PGSIZE))
    (hok : EntryOk (s.vm.entry s.root va) (s.installed (va / PGSIZE * PGSIZE)) →
      EntryOk e (a.install (s.installed (va / PGSIZE * PGSIZE)))) :
    Called s a (.ok ⟨⟩) (s.vm.write t (px 0 va) e) := by
  have ha : va / PGSIZE * PGSIZE % PGSIZE = 0 := Nat.mul_mod_left _ _
  have hlt := page_lt_MAXVA hva
  refine @PtInv.of_edit _ _ h _ (va / PGSIZE * PGSIZE) _ _ lab ?_ hn (hok ?_)
  · rw [← px_page 0 va]
    rw [← px_page 2 va, ← px_page 1 va] at ht
    exact (TreeGrown.refl h.radix).edited.write ht ha hlt
  · rw [← Vm.entry_page]
    exact h.entries _ ha hlt

theorem PtInv.clear (h : PtInv s lab) (va : ℕ) :
    wp ((PtAction.clear va).call A s.root) (Called s (.clear va)) (fun _ => True) s.vm := by
  refine clear_wp h.radix (fun _ => h.of_grown (.refl h.radix)) (fun _ _ => h.of_grown (.refl h.radix))
    fun t hva ht => h.of_write hva ht (fun _ => rfl) fun he => ?_
  cases hm : s.installed (va / PGSIZE * PGSIZE) with
  | none =>
    rw [hm] at he
    exact (Pte.isV_and_not _ (by decide)).trans he
  | some m =>
    obtain ⟨pa, f⟩ := m
    rw [hm] at he
    obtain ⟨he, hv, hpa, hpa', hf⟩ := he
    refine ⟨?_, (Pte.isV_and_not f (by decide)).trans hv, hpa, hpa', toNat_and_lt hf _⟩
    rw [he, BitVec.and_or_distrib_right, paToPte_mask pa (by decide)]

theorem PtInv.markCow (h : PtInv s lab) (va : ℕ) :
    wp ((PtAction.markCow va).call A s.root) (Called s (.markCow va)) (fun _ => True) s.vm := by
  refine wp_bind.2 (walkRaw_find h.radix (fun _ => h.of_grown (.refl h.radix))
    (fun _ _ => h.of_grown (.refl h.radix)) fun t hva ht => ?_)
  refine wp_bind.2 (markCow_wp (wp_pure.2 ?_))
  rw [← h.radix.entry_of_leaf ht]
  refine h.of_write hva ht (fun _ => rfl) fun he => ?_
  cases hm : s.installed (va / PGSIZE * PGSIZE) with
  | none =>
    rw [hm] at he
    exact (Pte.isV_shared _).trans he
  | some m =>
    obtain ⟨pa, f⟩ := m
    rw [hm] at he
    obtain ⟨he, hv, hpa, hpa', hf⟩ := he
    refine ⟨?_, (Pte.isV_shared f).trans hv, hpa, hpa', toNat_shared_lt hf⟩
    rw [he, shared_install]

/-- What `Uvm::unmap` did while it went through the pages below `hi`. -/
structure Unmapped (s : PtSys) (lab : ℕ → Option Node) (lo hi : ℕ) (vm : Vm) : Prop where
  radix : Radix vm s.root lab
  inside : ∀ va, va % PGSIZE = 0 → va < MAXVA → lo ≤ va → va < hi → (vm.entry s.root va).isV = false
  outside : ∀ va, va % PGSIZE = 0 → va < MAXVA → ¬(lo ≤ va ∧ va < hi) →
    vm.entry s.root va = s.vm.entry s.root va

theorem Unmapped.skip {lo hi : ℕ} {vm : Vm} (h : Unmapped s lab lo hi vm) (ha : hi % PGSIZE = 0)
    (hskip : hi < MAXVA → (vm.entry s.root hi).isV = false) :
    Unmapped s lab lo (hi + PGSIZE) vm := by
  have hpg : PGSIZE = 4096 := rfl
  refine ⟨h.radix, fun va hva hmax hge hlt => ?_, fun va hva hmax hno => ?_⟩
  · rcases lt_or_ge va hi with hvi | hvi
    · exact h.inside va hva hmax hge hvi
    · have : va = hi := by
        rw [hpg] at ha hva hlt
        omega
      rw [this] at hmax ⊢
      exact hskip hmax
  · refine h.outside va hva hmax fun hin => hno ⟨hin.1, hin.2.trans_le (Nat.le_add_right _ _)⟩

theorem Unmapped.drop {lo hi t : ℕ} {vm vm' : Vm} (h : Unmapped s lab lo hi vm) (hlo : lo ≤ hi)
    (ha : hi % PGSIZE = 0) (hmax : hi < MAXVA) (hs : SameOn (fun a => lab a ≠ none) vm vm')
    (ht : lab t = some (.leaf (px 2 hi) (px 1 hi))) :
    Unmapped s lab lo (hi + PGSIZE) (vm'.write t (px 0 hi) 0) := by
  have hpg : PGSIZE = 4096 := rfl
  have hr := h.radix.congr hs
  have hentry : ∀ va, va % PGSIZE = 0 → va < MAXVA →
      (vm'.write t (px 0 hi) 0).entry s.root va = upd (vm.entry s.root) hi 0 va := by
    intro va hva hmax'
    rw [hr.entry_write ht ha hmax hva hmax', upd_apply, upd_apply, h.radix.entry_congr hs]
  refine ⟨hr.write ht, fun va hva hmax' hge hlt => ?_, fun va hva hmax' hno => ?_⟩
  · rw [hentry va hva hmax']
    rcases eq_or_ne va hi with rfl | hne
    · rw [upd_self]
      exact Pte.isV_zero
    · rw [upd_of_ne hne]
      refine h.inside va hva hmax' hge ?_
      rw [hpg] at ha hva hlt
      omega
  · have hne : va ≠ hi := by
      rintro rfl
      exact hno ⟨hlo, Nat.lt_add_of_pos_right (by decide)⟩
    rw [hentry va hva hmax', upd_of_ne hne]
    exact h.outside va hva hmax' fun hin => hno ⟨hin.1, hin.2.trans_le (Nat.le_add_right _ _)⟩

theorem PtInv.unmap (h : PtInv s lab) {va npages : ℕ} {free : Bool}
    (hok : (PtAction.unmap va npages free).Allowed s) :
    wp ((PtAction.unmap va npages free).call A s.root) (Called s (.unmap va npages free))
      (fun _ => True) s.vm := by
  refine wp_bind.2 ?_
  unfold Uvm.unmap
  refine wp_ite (fun _ => wp_throw.2 trivial) fun ha => wp_ite (fun _ => wp_throw.2 trivial) fun _ => ?_
  rw [not_not] at ha
  have hloop : wp ((List.range npages).forM fun k => Uvm.unmapPage A s.root (va + k * PGSIZE) free)
      (fun _ vm => Unmapped s lab va (va + npages * PGSIZE) vm) (fun _ => True) s.vm := by
    refine wp_forM_range (I := fun k vm => Unmapped s lab va (va + k * PGSIZE) vm) ?_ ?_
    · intro k hk vm hI
      have hak : (va + k * PGSIZE) % PGSIZE = 0 := by rw [Nat.add_mul_mod_self_right, ha]
      have hle : va ≤ va + k * PGSIZE := Nat.le_add_right _ _
      rw [Nat.succ_mul, ← add_assoc]
      refine unmapPage_wp hI.radix (fun hskip => hI.skip hak hskip) (fun _ _ _ => trivial)
        (fun _ _ _ _ => trivial) fun t hmax hv _ ht hpage => hI.drop hle hak hmax ?_ ht
      cases free with
      | false => exact .refl _ _
      | true =>
        -- the page that is given back is not a table
        have hsame := hI.outside _ hak hmax fun hin => absurd hin.2 (lt_irrefl _)
        have he := h.entries _ hak hmax
        rw [hsame] at hv hpage ⊢
        cases hm : s.installed (va + k * PGSIZE) with
        | none =>
          rw [hm] at he
          exact absurd (he.symm.trans hv) Bool.noConfusion
        | some m =>
          obtain ⟨pa, f⟩ := m
          rw [hm] at he
          obtain ⟨he, -, hpa, hpa', hf⟩ := he
          have hend : va + k * PGSIZE < va + npages * PGSIZE :=
            Nat.add_lt_add_left (Nat.mul_lt_mul_of_pos_right hk (by decide)) va
          have hno := hok rfl _ pa f hle hend hm
          rw [h.radix.isTable_iff_ne, not_not] at hno
          rw [he, asPa_paToPte hpa' hpa hf] at hpage ⊢
          refine (vm.release_same (hpage rfl)).mono fun a hne => ?_
          rintro rfl
          exact hne hno
    · rw [Nat.zero_mul, add_zero]
      exact ⟨h.radix, fun b _ _ hge hlt => absurd hge (not_le.2 hlt), fun _ _ _ _ => rfl⟩
  refine wp_mono hloop (fun _ vm hu => ?_) fun _ h => h
  have hnames : ∀ b, (PtAction.unmap va npages free).names b =
      decide (va ≤ b ∧ b < va + npages * PGSIZE) := fun _ => rfl
  refine ⟨⟨lab, hu.radix, fun b hb hb' => ?_⟩, fun b hb hb' hna => ?_⟩
  · change EntryOk (vm.entry s.root b) (if PtAction.names _ b then _ else _)
    rw [hnames]
    by_cases hin : va ≤ b ∧ b < va + npages * PGSIZE
    · rw [if_pos (decide_eq_true hin)]
      exact hu.inside b hb hb' hin.1 hin.2
    · rw [if_neg (by simpa using hin), hu.outside b hb hb' hin]
      exact h.entries b hb hb'
  · rw [hnames, decide_eq_false_iff_not] at hna
    exact hu.outside b hb hb' hna

theorem PtInv.call (h : PtInv s lab) {a : PtAction} (ha : a ≠ .other) (hok : a.Allowed s) :
    wp (a.call A s.root) (Called s a) (fun _ => True) s.vm := by
  cases a with
  | mapPage va pa perm => exact h.mapPage hok
  | unmap va npages free => exact h.unmap hok
  | clear va => exact h.clear va
  | markCow va => exact h.markCow va
  | other => exact absurd rfl ha

theorem PtInv.step (h : PtInv s lab) {a : PtAction} (hs : PtStep A s a s') :
    (∃ lab', PtInv s' lab') ∧ ∀ va, va % PGSIZE = 0 → va < MAXVA → a.names va = false →
    s'.vm.entry s'.root va = s.vm.entry s.root va := by
  by_cases ha : a = .other
  · subst ha
    obtain ⟨hroot, hinst, hsame⟩ := hs
    have hsame' : SameOn (fun p => lab p ≠ none) s.vm s'.vm := hsame.mono fun p hp => h.radix.isTable_iff_ne.2 hp
    rw [hroot]
    refine ⟨⟨lab, hroot ▸ h.radix.congr hsame', fun va hva hmax => ?_⟩, fun va _ _ _ => h.radix.entry_congr hsame' va⟩
    rw [hroot, hinst, h.radix.entry_congr hsame']
    exact h.entries va hva hmax
  · have hs' : a.Allowed s ∧ ∃ r vm, (a.call A s.root).run s.vm = .ok (r, vm) ∧
        s' = ⟨vm, s.root, a.record r s.installed⟩ := by
      cases a <;> first | exact hs | exact absurd rfl ha
    obtain ⟨hok, r, vm, hrun, rfl⟩ := hs'
    have hc := wp_ok (h.call ha hok) hrun
    exact ⟨hc.inv, hc.others⟩

theorem PtInit.inv (h : PtInit A s) : ∃ lab, PtInv s lab := by
  obtain ⟨⟨vm, hrun⟩, hinst⟩ := h
  have hnew : wp (PageTable.tryNew A) (fun r vm' => ∀ root, r = .ok root → ∃ lab,
      Radix vm' root lab ∧ ∀ va, vm'.entry root va = 0) (fun _ => True) vm := by
    refine tryNew_wp (fun root h => (by cases h)) fun page hpage hused root hr => ?_
    cases hr
    exact ⟨_, .new hpage, Radix.entry_new hpage⟩
  obtain ⟨lab, hr, he⟩ := wp_ok hnew hrun _ rfl
  refine ⟨lab, hr, fun va _ _ => ?_⟩
  rw [hinst, he]
  exact Pte.isV_zero

end Step

/-! ## Every state -/

theorem PtInv.of_reachable {A : Allocator} {s : PtSys} (h : Reachable (PtInit A) (PtStep A) s) :
    ∃ lab, PtInv s lab := by
  refine Reachable.invariant (I := fun s => ∃ lab, PtInv s lab) (fun s hs => hs.inv) ?_ h
  rintro s a s' ⟨lab, hI⟩ hs
  exact (hI.step hs).1

/-- The page table is a finite map: in every reachable state a walk of a page gives the physical
page and the flags that were installed for it, or an entry that is not valid if there are none; a
step changes the entries of the pages that it names and no other; two pages have two places; an
entry made of a physical page and flags has that page and those flags; and a walk refuses an address
exactly if it is not below `MAXVA`. -/
theorem pageTable_is_map {A : Allocator} {s : PtSys} (h : Reachable (PtInit A) (PtStep A) s) :
    (∀ va, va % PGSIZE = 0 → va < MAXVA →
      match s.installed va with
      | some (pa, f) => ∃ e, (PageTable.walk A s.root va).run s.vm = .ok (.ok e, s.vm) ∧
          e.isV = true ∧ e.asPa = pa ∧ e.flags = f
      | none => (PageTable.walk A s.root va).run s.vm = .ok (.error .invalidPage, s.vm) ∨
          ∃ e, (PageTable.walk A s.root va).run s.vm = .ok (.ok e, s.vm) ∧ e.isV = false) ∧
    (∀ a s', PtStep A s a s' → ∀ va, va % PGSIZE = 0 → va < MAXVA → a.names va = false →
      s'.vm.entry s'.root va = s.vm.entry s.root va) ∧
    (∀ va va' place, va % PGSIZE = 0 → va < MAXVA → va' % PGSIZE = 0 → va' < MAXVA →
      (PageTable.walkRaw A s.root va false).run s.vm = .ok (.ok place, s.vm) →
      (PageTable.walkRaw A s.root va' false).run s.vm = .ok (.ok place, s.vm) → va = va') ∧
    (∀ (pa : ℕ) (f : Pte), pa % PGSIZE = 0 → pa < 2 ^ 54 → f.toNat < 2 ^ 10 →
      Pte.asPa (paToPte pa ||| f) = pa ∧ Pte.flags (paToPte pa ||| f) = f) ∧
    ∀ va, ∃ r, (PageTable.walk A s.root va).run s.vm = .ok (r, s.vm) ∧
      (r = .error .invalidAddress ↔ MAXVA ≤ va) := by
  obtain ⟨lab, hI⟩ := PtInv.of_reachable h
  -- the whole behaviour of a walk
  have hwalk : ∀ va, ∃ r, (PageTable.walk A s.root va).run s.vm = .ok (r, s.vm) ∧
      (MAXVA ≤ va ∧ r = .error .invalidAddress ∨
        va < MAXVA ∧ (s.vm.entry s.root va = 0 ∧ r = .error .invalidPage ∨
          r = .ok (s.vm.entry s.root va))) := by
    intro va
    obtain ⟨r, vm, hrun, rfl, hr⟩ := wp_total (show wp (PageTable.walk A s.root va)
      (fun r vm => vm = s.vm ∧ (MAXVA ≤ va ∧ r = .error .invalidAddress ∨
        va < MAXVA ∧ (s.vm.entry s.root va = 0 ∧ r = .error .invalidPage ∨
          r = .ok (s.vm.entry s.root va)))) _ s.vm from walk_wp hI.radix
      (fun hva => ⟨rfl, .inl ⟨hva, rfl⟩⟩) (fun hva he => ⟨rfl, .inr ⟨hva, .inl ⟨he, rfl⟩⟩⟩)
      fun hva => ⟨rfl, .inr ⟨hva, .inr rfl⟩⟩)
    exact ⟨r, hrun, hr⟩
  refine ⟨fun va ha hva => ?_, fun a s' hs => (hI.step hs).2, fun va va' place ha hva ha' hva' h₁ h₂ => ?_,
    fun pa f ha hpa hf => ⟨asPa_paToPte hpa ha hf, flags_paToPte pa hf⟩, fun va => ?_⟩
  · have he := hI.entries va ha hva
    obtain ⟨r, hrun, hr⟩ := hwalk va
    rcases hr with ⟨hbig, -⟩ | ⟨-, hr⟩
    · exact absurd hva (not_lt.2 hbig)
    cases hm : s.installed va with
    | none =>
      rw [hm] at he
      rcases hr with ⟨-, rfl⟩ | rfl
      · exact .inl hrun
      · exact .inr ⟨_, hrun, he⟩
    | some m =>
      obtain ⟨pa, f⟩ := m
      rw [hm] at he
      obtain ⟨he, hv, hpa, hpa', hf⟩ := he
      have hev : (s.vm.entry s.root va).isV = true := by
        rw [he, Pte.isV_eq, getLsbD_install pa f (by decide), ← Pte.isV_eq, hv]
      rcases hr with ⟨hzero, -⟩ | rfl
      · rw [hzero] at hev
        cases hev
      · refine ⟨_, hrun, hev, ?_, ?_⟩
        · rw [he, asPa_paToPte hpa' hpa hf]
        · rw [he, flags_paToPte pa hf]
  · have hplace : ∀ va, va < MAXVA → (PageTable.walkRaw A s.root va false).run s.vm = .ok (.ok place, s.vm) →
        lab place.1 = some (.leaf (px 2 va) (px 1 va)) ∧ place.2 = px 0 va := by
      intro va hva hrun
      refine wp_ok (Q := fun r _ => ∀ p, r = .ok p → lab p.1 = some (.leaf (px 2 va) (px 1 va)) ∧
        p.2 = px 0 va) (E := fun _ => True) (walkRaw_find hI.radix (fun _ p hp => (by cases hp))
        (fun _ _ p hp => (by cases hp)) fun t _ ht p hp => ?_) hrun place rfl
      cases hp
      exact ⟨ht, rfl⟩
    obtain ⟨hl, h0⟩ := hplace va hva h₁
    obtain ⟨hl', h0'⟩ := hplace va' hva' h₂
    rw [hl, Option.some.injEq, Node.leaf.injEq] at hl'
    exact px_inj hva hva' ha ha' hl'.1 hl'.2 (h0.symm.trans h0')
  · obtain ⟨r, hrun, hr⟩ := hwalk va
    refine ⟨r, hrun, ?_⟩
    rcases hr with ⟨hbig, rfl⟩ | ⟨hva, ⟨-, rfl⟩ | rfl⟩
    · exact ⟨fun _ => hbig, fun _ => rfl⟩
    · exact ⟨fun h => (by cases h), fun h => absurd hva (not_lt.2 h)⟩
    · exact ⟨fun h => (by cases h), fun h => absurd hva (not_lt.2 h)⟩

/-- The state after a call, if it returns. -/
def PtSys.apply (A : Allocator) (s : PtSys) (a : PtAction) : Option PtSys :=
  match (a.call A s.root).run s.vm with
  | .ok (r, vm) => some ⟨vm, s.root, a.record r s.installed⟩
  | .error _ => none

theorem PtSys.apply_step {A : Allocator} {s s' : PtSys} {a : PtAction} (h : s.apply A a = some s')
    (ha : a ≠ .other) (hok : a.Allowed s) : PtStep A s a s' := by
  have hrun : a.Allowed s ∧ ∃ r vm, (a.call A s.root).run s.vm = .ok (r, vm) ∧
      s' = ⟨vm, s.root, a.record r s.installed⟩ := by
    unfold PtSys.apply at h
    rcases hm : (a.call A s.root).run s.vm with e | ⟨r, vm⟩ <;> rw [hm] at h
    · cases h
    · exact ⟨hok, r, vm, rfl, (Option.some.inj h).symm⟩
  cases a <;> first | exact hrun | exact absurd rfl ha

/-- A page is mapped and then shared with a child. -/
theorem pageTable_is_map_shared : ∃ s, Reachable (PtInit bump) (PtStep bump) s ∧
    ∃ e, (PageTable.walk bump s.root 4096).run s.vm = .ok (.ok e, s.vm) ∧ e.isV = true ∧
      e.asPa = 0x80100000 ∧ e.flags = PTE_V ||| PTE_R ||| PTE_U ||| PTE_COW := by
  have h0 : PtInit bump ⟨Vm.blank.give KERNBASE, KERNBASE, fun _ => none⟩ := ⟨⟨Vm.blank, rfl⟩, rfl⟩
  obtain ⟨s₁, hs₁, hi₁⟩ := Option.map_eq_some_iff.1
    (show (PtSys.apply bump ⟨Vm.blank.give KERNBASE, KERNBASE, fun _ => none⟩
      (.mapPage 4096 0x80100000 (PTE_R ||| PTE_W ||| PTE_U))).map (fun s =>
        ((s.apply bump (.markCow 4096)).map fun s => s.installed 4096)) =
      some (some (some (0x80100000, PTE_V ||| PTE_R ||| PTE_U ||| PTE_COW))) by decide +kernel)
  obtain ⟨s₂, hs₂, hi₂⟩ := Option.map_eq_some_iff.1 hi₁
  have hr : Reachable (PtInit bump) (PtStep bump) s₂ := by
    refine .step (l := .markCow 4096) (.step (l := .mapPage 4096 0x80100000 (PTE_R ||| PTE_W ||| PTE_U))
      (.init h0) (PtSys.apply_step hs₁ (by decide) ?_)) (PtSys.apply_step hs₂ (by decide) trivial)
    exact ⟨by decide, rfl, by decide, by decide, by decide⟩
  have hmap := (pageTable_is_map hr).1 4096 (by decide) (by decide)
  rw [hi₂] at hmap
  exact ⟨s₂, hr, hmap⟩

end Octopos
