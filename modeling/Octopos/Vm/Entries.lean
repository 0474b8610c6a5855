import Octopos.Vm.Radix

/-!
# What the functions of a page table do to its entries

One rule for each function that reads or changes an entry, in terms of the map `Vm.entry` that the
page table stands for. A changed entry is described by `Edited`: the table may have grown, and its
entries are given by a new map.
-/

namespace Octopos

theorem Vm.entry_page (vm : Vm) (root va : ℕ) :
    vm.entry root (va / PGSIZE * PGSIZE) = vm.entry root va := by
  unfold Vm.entry
  rw [px_page, px_page, px_page]

theorem page_lt_MAXVA {va : ℕ} (h : va < MAXVA) : va / PGSIZE * PGSIZE < MAXVA :=
  lt_of_le_of_lt (Nat.div_mul_le_self va PGSIZE) h

/-- A page table whose entries are now those of `m`. -/
structure Edited (s s' : Vm) (root : ℕ) (lab lab' : ℕ → Option Node) (m : ℕ → Pte) : Prop where
  radix : Radix s' root lab'
  ext : ∀ a n, lab a = some n → lab' a = some n
  fresh : ∀ a, lab a = none → lab' a ≠ none → s.used a = false
  entry : ∀ va, va % PGSIZE = 0 → va < MAXVA → s'.entry root va = m va

section Write

variable {s s' : Vm} {root t va : ℕ} {lab lab' : ℕ → Option Node} {m : ℕ → Pte} {e : Pte}

theorem TreeGrown.edited (h : TreeGrown s s' root lab lab') :
    Edited s s' root lab lab' (s.entry root) :=
  ⟨h.radix, h.ext, h.fresh, fun va _ _ => h.entry va⟩

theorem Radix.write {i j k : Fin 512} (h : Radix s root lab) (ht : lab t = some (.leaf i j)) :
    Radix (s.write t k e) root lab := by
  have hne : ∀ {d n l c}, lab d = some n → n.child l = some c → d ≠ t := by
    rintro d n l c hd hc rfl
    rw [ht, Option.some.injEq] at hd
    subst hd
    cases hc
  have htable : ∀ {d n l c}, lab d = some n → n.child l = some c →
      (s.write t k e).table d = s.table d := fun hd hc => upd_of_ne (hne hd hc)
  exact ⟨h.root, fun hd hc => htable hd hc ▸ h.child hd hc, h.parent,
    fun hd hc => htable hd hc ▸ h.inner hd hc, h.half, h.page, h.used, h.refs⟩

theorem Radix.entry_write (h : Radix s root lab) (ht : lab t = some (.leaf (px 2 va) (px 1 va)))
    (ha : va % PGSIZE = 0) (hva : va < MAXVA) {va' : ℕ} (ha' : va' % PGSIZE = 0)
    (hva' : va' < MAXVA) :
    (s.write t (px 0 va) e).entry root va' = upd (s.entry root) va e va' := by
  have h' : Radix (s.write t (px 0 va) e) root lab := h.write ht
  by_cases hleaf : ∃ t', lab t' = some (.leaf (px 2 va') (px 1 va'))
  · obtain ⟨t', ht'⟩ := hleaf
    rw [h'.entry_of_leaf ht']
    change upd s.table t (upd (s.table t) (px 0 va) e) t' (px 0 va') = _
    rcases eq_or_ne va' va with rfl | hne
    · rw [h.inj ht' ht, upd_self, upd_self, upd_self]
    · rw [upd_of_ne hne, h.entry_of_leaf ht']
      rcases eq_or_ne t' t with rfl | htt
      · rw [upd_self, upd_of_ne]
        intro h0
        rw [ht, Option.some.injEq, Node.leaf.injEq] at ht'
        exact hne (px_inj hva' hva ha' ha ht'.1.symm ht'.2.symm h0)
      · rw [upd_of_ne htt]
  · have hne : va' ≠ va := by
      rintro rfl
      exact hleaf ⟨t, ht⟩
    rw [h'.entry_of_none fun t' ht' => hleaf ⟨t', ht'⟩, upd_of_ne hne, h.entry_of_none fun t' ht' => hleaf ⟨t', ht'⟩]

theorem Edited.write (h : Edited s s' root lab lab' m)
    (ht : lab' t = some (.leaf (px 2 va) (px 1 va))) (ha : va % PGSIZE = 0) (hva : va < MAXVA) :
    Edited s (s'.write t (px 0 va) e) root lab lab' (upd m va e) := by
  refine ⟨h.radix.write ht, h.ext, h.fresh, fun va' ha' hva' => ?_⟩
  rw [h.radix.entry_write ht ha hva ha' hva', upd_apply, upd_apply, h.entry va' ha' hva']

end Write

section Rules

variable {A : Allocator} {s s' : Vm} {root va : ℕ} {lab lab' : ℕ → Option Node}
  {E : VmPanic → Prop}
variable {Q : Except VmError PUnit → Vm → Prop} {page pa : ℕ}

theorem tryNew_wp {Q : Except VmError ℕ → Vm → Prop}
    (hnone : Q (.error .alloc) { s with requests := s.requests + 1 })
    (hok : ∀ page, IsPage page → s.used page = false → Q (.ok page) (s.give page)) :
    wp (PageTable.tryNew A) Q E s :=
  wp_bind.2 (pageAlloc_wp (wp_pure.2 hnone) fun page hpage hused => hok page hpage hused)

theorem Radix.new (hpage : IsPage page) :
    Radix (s.give page) page (upd (fun _ => none) page (some .root)) := by
  have hlab : ∀ {a n}, upd (fun _ => none) page (some Node.root) a = some n → a = page ∧ n = .root := by
    intro a n ha
    rw [upd_apply] at ha
    split_ifs at ha with hap
    exact ⟨hap, (Option.some.inj ha).symm⟩
  have hblank : (s.give page).table page = fun _ => 0 := upd_self _ _ _
  refine ⟨fun a => ⟨fun ha => (hlab ha).1, fun ha => ?_⟩, fun {d n i c} hd hc a => ?_,
    fun {a c} ha hc => absurd (hlab ha).2 hc, fun {d n i c} hd hc => ?_,
    fun {a i} ha => absurd (hlab ha).2 Node.noConfusion, fun {a n} ha => ?_, fun {a n} ha => ?_,
    fun {a n} ha => ?_⟩
  · rw [ha, upd_self]
  · obtain ⟨rfl, rfl⟩ := hlab hd
    rw [hblank, Pte.isV_zero]
    exact ⟨fun ha => absurd (hlab ha).2 (Node.child_ne_root hc), fun ha => (by cases ha.1)⟩
  · rw [(hlab hd).1, hblank]
    exact Pte.isLeaf_zero
  · rw [(hlab ha).1]
    exact hpage
  · rw [(hlab ha).1]
    exact upd_self _ _ _
  · rw [(hlab ha).1]
    exact upd_self _ _ _

theorem Radix.entry_new (hpage : IsPage page) (va : ℕ) : (s.give page).entry page va = 0 := by
  refine (Radix.new hpage).entry_of_none fun t ht => ?_
  rw [upd_apply] at ht
  split_ifs at ht
  cases ht

theorem walk_wp {Q : Except VmError Pte → Vm → Prop} (h : Radix s root lab)
    (hbig : MAXVA ≤ va → Q (.error .invalidAddress) s)
    (hnone : va < MAXVA → s.entry root va = 0 → Q (.error .invalidPage) s)
    (hok : va < MAXVA → Q (.ok (s.entry root va)) s) : wp (PageTable.walk A root va) Q E s := by
  refine wp_bind.2 (walkRaw_find h (fun hva => hbig hva) (fun hva hno => ?_) fun t hva ht => ?_)
  · exact hnone hva (h.entry_of_none hno)
  · refine wp_bind.2 (wp_bind.2 (wp_get.2 (wp_pure.2 ?_)))
    rw [← h.entry_of_leaf ht]
    exact hok hva

theorem mapPages_wp {perm : Pte} (h : Radix s root lab) (ha : va % PGSIZE = 0)
    (hfit : va + PGSIZE < USIZE) (hremap : va < MAXVA → (s.entry root va).isV = true → E .remap)
    (hbig : MAXVA ≤ va → Q (.error .invalidAddress) s)
    (hnone : ∀ s' lab', va < MAXVA → TreeGrown s s' root lab lab' → Q (.error .alloc) s')
    (hok : ∀ s' lab', va < MAXVA → (s.entry root va).isV = false →
      Edited s s' root lab lab' (upd (s.entry root) va (paToPte pa ||| perm ||| PTE_V)) →
      SameOn (fun a => lab' a = none) s s' → Q (.ok ⟨⟩) s') :
    wp (PageTable.mapPages A root va pa PGSIZE perm) Q E s := by
  have hone : PGSIZE / PGSIZE - 1 = 0 := rfl
  unfold PageTable.mapPages
  rw [if_neg (not_not.2 ha), if_neg (by decide), if_neg (by decide), if_neg (not_le.2 hfit), hone, PageTable.mapLoop]
  refine wp_bind.2 (walkRaw_create h (fun hva => hbig hva) (fun s' lab' hva hg => hnone s' lab' hva hg)
    fun t s1 lab1 hva hg ht => ?_)
  refine wp_bind.2 (wp_bind.2 (wp_get.2 (wp_pure.2 ?_)))
  rw [← hg.radix.entry_of_leaf ht, hg.entry]
  refine wp_ite (fun hv => hremap hva hv) fun hv => ?_
  rw [Bool.not_eq_true] at hv
  refine wp_bind.2 (wp_modify.2 (hok _ lab1 hva hv (hg.edited.write ht ha hva) ?_))
  refine hg.frame.trans ((s1.write_same t _ _).mono fun a hnone => ?_)
  rintro rfl
  rw [ht] at hnone
  cases hnone

/-- The memory after one reference to a page is dropped. -/
def Vm.release (s : Vm) (pa : ℕ) : Vm :=
  { s with
    refs := upd s.refs (pageIndex pa) (s.refs (pageIndex pa) - 1)
    used := if s.refs (pageIndex pa) = 1 then upd s.used pa false else s.used }

theorem pageFree_wp {Q : PUnit → Vm → Prop} (ha : pa % PGSIZE = 0)
    (hout : ¬IsPage pa → E .pageRef) (hok : IsPage pa → Q ⟨⟩ (s.release pa)) :
    wp (pageFree pa) Q E s := by
  by_cases hpa : IsPage pa
  · exact wp_bind.2 (pageRef_wp hpa (wp_modify.2 (hok hpa)))
  · have hpg : PGSIZE = 4096 := rfl
    have hb : KERNBASE = 0x80000000 := rfl
    have ht : PHYSTOP = 0x88000000 := rfl
    refine wp_bind.2 ?_
    unfold pageRef
    rw [if_pos]
    · exact wp_throw.2 (hout hpa)
    · by_contra hno
      refine hpa ⟨ha, not_lt.1 (not_or.1 hno).1, ?_⟩
      rw [hpg, ht, hb] at hno
      rw [hpg] at ha
      rw [ht]
      omega

theorem Vm.release_same (s : Vm) (hpa : IsPage pa) :
    SameOn (fun a => a ≠ pa) s (s.release pa) where
  table _ _ _ := rfl
  data _ _ _ := rfl
  used _ _ hne := by
    change (if _ then upd s.used pa false else s.used) _ = _
    split_ifs
    · exact upd_of_ne hne
    · rfl
  refs _ ha hne := upd_of_ne fun h => hne (pageIndex_inj ha hpa h)

theorem asPa_aligned (e : Pte) : e.asPa % PGSIZE = 0 := by
  have hpg : PGSIZE = 4096 := rfl
  rw [hpg, Pte.asPa, BitVec.toNat_shiftLeft, Nat.shiftLeft_eq]
  omega

theorem unmapPage_wp {free : Bool} {Q : PUnit → Vm → Prop} (h : Radix s root lab)
    (hskip : (va < MAXVA → (s.entry root va).isV = false) → Q ⟨⟩ s)
    (hnot : va < MAXVA → (s.entry root va).isV = true → (s.entry root va).isLeaf = false →
      E .notLeaf)
    (hout : free = true → va < MAXVA → (s.entry root va).isV = true →
      ¬IsPage (s.entry root va).asPa → E .pageRef)
    (hok : ∀ t, va < MAXVA → (s.entry root va).isV = true → (s.entry root va).isLeaf = true →
      lab t = some (.leaf (px 2 va) (px 1 va)) → (free = true → IsPage (s.entry root va).asPa) →
      Q ⟨⟩ ((if free then s.release (s.entry root va).asPa else s).write t (px 0 va) 0)) :
    wp (Uvm.unmapPage A root va free) Q E s := by
  refine wp_bind.2 (walkRaw_find h (fun hva => ?_) (fun hva hno => ?_) fun t hva ht => ?_)
  · exact hskip fun hlt => absurd hva (not_le.2 hlt)
  · refine hskip fun _ => ?_
    rw [h.entry_of_none hno]
    exact Pte.isV_zero
  · refine wp_bind.2 (wp_bind.2 (wp_get.2 (wp_pure.2 ?_)))
    rw [← h.entry_of_leaf ht]
    refine wp_ite (fun hv => hskip fun _ => by simpa using hv) fun hv => ?_
    rw [Bool.not_eq_true, Bool.not_eq_false'] at hv
    refine wp_ite (fun hl => hnot hva hv (by simpa using hl)) fun hl => ?_
    rw [Bool.not_eq_true, Bool.not_eq_false'] at hl
    cases free with
    | false => exact hok t hva hv hl ht fun hf => (by cases hf)
    | true =>
      refine wp_bind.2 (pageFree_wp (asPa_aligned _) (hout rfl hva hv) fun hpa => ?_)
      exact wp_modify.2 (hok t hva hv hl ht fun _ => hpa)

theorem clear_wp (h : Radix s root lab) (hbig : MAXVA ≤ va → Q (.error .invalidAddress) s)
    (hnone : va < MAXVA → s.entry root va = 0 → Q (.error .invalidPage) s)
    (hok : ∀ t, va < MAXVA → lab t = some (.leaf (px 2 va) (px 1 va)) →
      Q (.ok ⟨⟩) (s.write t (px 0 va) (s.entry root va &&& ~~~PTE_U))) :
    wp (Uvm.clear A root va) Q E s := by
  refine wp_bind.2 (walkRaw_find h (fun hva => hbig hva) (fun hva hno => ?_) fun t hva ht => ?_)
  · exact hnone hva (h.entry_of_none hno)
  · refine wp_bind.2 (wp_bind.2 (wp_get.2 (wp_pure.2 ?_)))
    rw [← h.entry_of_leaf ht]
    exact wp_bind.2 (wp_modify.2 (wp_pure.2 (hok t hva ht)))

theorem markCow_wp {t : ℕ} {i : Fin 512} {Q : Pte → Vm → Prop}
    (hQ : Q (s.table t i).shared (s.write t i (s.table t i).shared)) :
    wp (Uvm.markCow t i) Q E s := by
  refine wp_bind.2 (wp_bind.2 (wp_get.2 (wp_pure.2 ?_)))
  refine wp_ite (fun hw => ?_) fun hw => ?_
  · rw [Pte.shared, if_pos hw] at hQ
    exact wp_bind.2 (wp_modify.2 (wp_pure.2 hQ))
  · rw [Pte.shared, if_neg hw] at hQ
    rw [Vm.write, upd_eq_self, upd_eq_self] at hQ
    exact hQ

end Rules

end Octopos
