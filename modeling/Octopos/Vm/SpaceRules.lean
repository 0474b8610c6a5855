import Octopos.Vm.FreeWalk

/-!
# Rules for the functions on user memory

One rule for each function of `Uvm` that makes, grows, shrinks or drops an address space, in terms
of the description of the memory (`MemOk`). None of these functions stops the kernel as long as the
address space ends below the trapframe.
-/

namespace Octopos

variable {ι : Type} [DecidableEq ι] [Fintype ι] {va lo size : ℕ}
variable {perm : Pte} {pte' : ι → ℕ → Pte} {n : ℕ}

/-- The owner is not a user page, nor a table of the address space `i`. -/
def Owner.Outside (i : ι) : Owner ι → Prop
  | .table j _ => j ≠ i
  | .user => False
  | .kernel => True
  | .static _ => True

/-- The pages of the kernel and the tables of the other address spaces are the same. -/
def SameOutside (i : ι) (own own' : ℕ → Option (Owner ι)) : Prop :=
  ∀ a o, o.Outside i → (own' a = some o ↔ own a = some o)

section SameOutside

variable {own own' own'' : ℕ → Option (Owner ι)} {i : ι} {lab : ℕ → Option Node} {a : ℕ}

section

omit [DecidableEq ι] [Fintype ι]

theorem SameOutside.refl (own : ℕ → Option (Owner ι)) : SameOutside i own own :=
  fun _ _ _ => Iff.rfl

section

variable (h : SameOutside i own own')
include h

theorem SameOutside.trans (h' : SameOutside i own' own'') : SameOutside i own own'' :=
  fun a o ho => (h' a o ho).trans (h a o ho)

theorem SameOutside.kernel (a : ℕ) :
    own' a = some .kernel ↔ own a = some .kernel := h a .kernel trivial

theorem SameOutside.static (a : ℕ) (n : UInt8) :
    own' a = some (.static n) ↔ own a = some (.static n) := h a (.static n) trivial

theorem SameOutside.upd {o : Option (Owner ι)} :
    SameOutside i (upd own a o) (Octopos.upd own' a o) := by
  intro b o' ho
  rw [upd_apply, upd_apply]
  split_ifs
  · rfl
  · exact h b o' ho

end

theorem SameOutside.new {o : Owner ι} (ha : own a = none) (ho : ¬o.Outside i) :
    SameOutside i own (Octopos.upd own a (some o)) := by
  intro b o' h
  rcases eq_or_ne b a with rfl | hne
  · rw [upd_self, ha]
    refine ⟨fun heq => ?_, fun heq => (by cases heq)⟩
    cases heq
    exact (ho h).elim
  · rw [upd_of_ne hne]

theorem SameOutside.user (ha : own a = none) : SameOutside i own (Octopos.upd own a (some .user)) :=
  .new ha fun h => h

theorem SameOutside.back (ha : own a = none)
    (h : SameOutside i (Octopos.upd own a (some .kernel)) own') :
    SameOutside i own (Octopos.upd own' a none) := by
  intro b o ho
  rcases eq_or_ne b a with rfl | hne
  · rw [upd_self, ha]
  · rw [upd_of_ne hne, h b o ho, upd_of_ne hne]

end

omit [Fintype ι] in
theorem Relabels.sameOutside (h : Relabels own i lab) : SameOutside i own (relabel own i lab) := by
  intro a o ho
  cases o with
  | table j n => rw [h.table_iff, if_neg ho]
  | user => exact ho.elim
  | kernel => exact h.keep fun _ _ hn => by cases hn
  | static _ => exact h.keep fun _ _ hn => by cases hn

omit [DecidableEq ι] [Fintype ι] in
theorem dropOwner_sameOutside {vm : Vm} (ha : own a = some .user) :
    SameOutside i own (dropOwner vm own a) := by
  intro b o ho
  unfold dropOwner
  split_ifs
  · rcases eq_or_ne b a with rfl | hne
    · rw [upd_self, ha]
      refine ⟨fun h => (by cases h), fun h => ?_⟩
      cases h
      exact ho.elim
    · rw [upd_of_ne hne]
  · rfl

omit [Fintype ι] in
theorem clearOwner_sameOutside (own : ℕ → Option (Owner ι)) (i : ι) :
    SameOutside i own (clearOwner own i) := by
  intro b o ho
  unfold clearOwner
  cases hl : labels own i b with
  | none => rfl
  | some n =>
    rw [labels_eq_some.1 hl]
    refine ⟨fun h => (by cases h), fun h => ?_⟩
    cases h
    exact absurd rfl ho

end SameOutside

section Rules

variable {A : Allocator} {vm : Vm} {roots : ι → Option ℕ} {own : ℕ → Option (Owner ι)}
  {pte : ι → ℕ → Pte} {mem : ι → Bytes} {i j : ι} {r a : ℕ} {k : Fin USERPAGES} {E : VmPanic → Prop}
variable {Q : PUnit → Vm → Prop}

theorem MemOk.alloc_wp {Q : Option ℕ → Vm → Prop} (h : MemOk vm roots own pte mem)
    (hnone : ∀ vm', MemOk vm' roots own pte mem → Q none vm')
    (hok : ∀ a vm', own a = none → IsPage a → MemOk vm' roots (upd own a (some .kernel)) pte mem →
      (vm'.data a = fun _ => 0) → Q (some a) vm') : wp (pageAlloc A) Q E vm :=
  pageAlloc_wp (hnone _ (h.request _)) fun a ha hused =>
    hok a _ (h.unowned ha hused) ha (h.give ha hused) (upd_self _ _ _)

theorem MemOk.free_wp (h : MemOk vm roots own pte mem) (ha : own a = some .kernel)
    (hok : ∀ vm', MemOk vm' roots (upd own a none) pte mem → Q ⟨⟩ vm') : wp (pageFree a) Q E vm :=
  pageFree_wp (h.pages.page ha).aligned (fun hno => absurd (h.pages.page ha) hno) fun _ =>
    hok _ (h.giveBack ha)

theorem target_install {f : Pte} (ha : IsPage a) (hf : f.toNat < 2 ^ 10) (hv : f.isV = true) :
    Pte.target (paToPte a ||| f) = some a := by
  rw [Pte.target_eq_some, isV_install]
  exact ⟨hv, asPa_paToPte (ha.top.trans (by decide)) ha.aligned hf⟩

theorem MemOk.map_wp {Q : Except VmError PUnit → Vm → Prop} (h : MemOk vm roots own pte mem)
    (hr : roots i = some r) (ha : own a = some .kernel) (hinv : (pte i (uva k)).isV = false)
    (hperm : perm.toNat < 2 ^ 10) (hread : perm.isR = true)
    (hnone : ∀ vm' own', MemOk vm' roots own' pte mem → SameOutside i own own' →
      Q (.error .alloc) vm')
    (hok : ∀ vm' own',
      MemOk vm' roots own' (setEntry pte i (uva k) (paToPte a ||| (perm ||| PTE_V)))
        (setBytes mem i (uva k) PGSIZE (vm.data a)) → SameOutside i (upd own a (some .user)) own' →
      Q (.ok ⟨⟩) vm') : wp (PageTable.mapPages A r (uva k) a PGSIZE perm) Q E vm := by
  have hva := uva_userVa k
  have hpage := h.pages.page ha
  refine mapPages_wp (h.trees.radix hr) hva.aligned hva.fits (fun _ hv => ?_)
    (fun hbig => absurd hva.lt_MAXVA (not_lt.2 hbig)) (fun vm' lab _ hg => ?_) fun vm' lab _ _ he hs => ?_
  · rw [h.trees.entry hr _ hva.aligned hva.lt_MAXVA, hinv] at hv
    cases hv
  · obtain ⟨hl, hok'⟩ := h.grow hr hg
    exact hnone vm' _ hok' hl.sameOutside
  · rw [BitVec.or_assoc] at he
    have hv : (perm ||| PTE_V).isV = true := by
      rw [Pte.isV_eq, BitVec.getLsbD_or]
      exact Bool.or_true _
    refine hok vm' _ (h.fill hr ha hinv he hs
      (target_install hpage (toNat_or_lt hperm (by decide)) hv) ?_) (he.relabels h.pages).sameOutside.upd
    rw [isR_install, isR_or, hread, Bool.true_or]

theorem MemOk.mapTaken_wp {Q : Except VmError PUnit → Vm → Prop} (h : MemOk vm roots own pte mem)
    (hr : roots i = some r) (ha : va % PGSIZE = 0) (hva : va < MAXVA) (hv : (pte i va).isV = true)
    (hremap : E .remap)
    (hnone : ∀ vm' own', MemOk vm' roots own' pte mem → SameOutside i own own' →
      Q (.error .alloc) vm') : wp (PageTable.mapPages A r va a PGSIZE perm) Q E vm := by
  have hfit : va + PGSIZE < USIZE := by
    have hpg : PGSIZE = 4096 := rfl
    have hmax : MAXVA = 2 ^ 38 := rfl
    have hu : USIZE = 2 ^ 64 := rfl
    omega
  refine mapPages_wp (h.trees.radix hr) ha hfit (fun _ _ => hremap) (fun hbig => absurd hva (not_lt.2 hbig))
    (fun vm' lab _ hg => ?_) fun vm' lab _ hinv _ _ => ?_
  · obtain ⟨hl, hok'⟩ := h.grow hr hg
    exact hnone vm' _ hok' hl.sameOutside
  · rw [h.trees.entry hr va ha hva, hv] at hinv
    cases hinv

theorem MemOk.unmapPage_wp (h : MemOk vm roots own pte mem) (hr : roots i = some r)
    (hskip : (pte i (uva k)).isV = false → Q ⟨⟩ vm)
    (hok : ∀ vm' own',
      MemOk vm' roots own' (setEntry pte i (uva k) 0) (setBytes mem i (uva k) PGSIZE fun _ => 0) →
      SameOutside i own own' → Q ⟨⟩ vm') : wp (Uvm.unmapPage A r (uva k) true) Q E vm := by
  have hva := uva_userVa k
  have hentry := h.trees.entry hr _ hva.aligned hva.lt_MAXVA
  refine Octopos.unmapPage_wp (h.trees.radix hr) (fun hinv => hskip ?_) (fun _ hv hl => ?_)
    (fun _ _ hv hno => ?_) fun t _ hv _ ht hpage => ?_
  · rw [← hentry]
    exact hinv hva.lt_MAXVA
  · rw [hentry] at hv hl
    rw [Pte.isLeaf_of_isR (h.users.leaf hv).1] at hl
    cases hl
  · rw [hentry] at hv hno
    exact absurd (h.userPage (h.users.leaf hv).2) hno
  · rw [hentry] at hv ⊢
    have hm : (pte i (uva k)).target = some (pte i (uva k)).asPa := Pte.target_eq_some.2 ⟨hv, rfl⟩
    exact hok _ _ (h.unmap hr (labels_eq_some.1 ht) hm) (dropOwner_sameOutside (h.users.owner hm))

/-! ### Ranges -/

/-- The entries of a range are gone, and the others stay. -/
structure Cleared (i : ι) (lo hi : ℕ) (pte pte' : ι → ℕ → Pte) : Prop where
  gone : ∀ va, va % PGSIZE = 0 → lo ≤ va → va < hi → (pte' i va).isV = false
  kept : ∀ j va, j ≠ i ∨ va < lo ∨ hi ≤ va ∨ va % PGSIZE ≠ 0 → pte' j va = pte j va

omit [DecidableEq ι] [Fintype ι] in
theorem Cleared.skip {hi : ℕ} (h : Cleared i lo hi pte pte') (ha : hi % PGSIZE = 0)
    (hinv : (pte' i hi).isV = false) : Cleared i lo (hi + PGSIZE) pte pte' := by
  have hpg : PGSIZE = 4096 := rfl
  refine ⟨fun va hva hge hlt => ?_, fun j va hout => h.kept j va (hout.imp_right fun h => ?_)⟩
  · rcases lt_or_ge va hi with hvi | hvi
    · exact h.gone va hva hge hvi
    · have heq : va = hi := by
        rw [hpg] at ha hva hlt
        omega
      rw [heq]
      exact hinv
  · omega

omit [Fintype ι] in
theorem Cleared.step {hi : ℕ} (h : Cleared i lo hi pte pte') (hlo : lo ≤ hi)
    (ha : hi % PGSIZE = 0) : Cleared i lo (hi + PGSIZE) pte (setEntry pte' i hi 0) := by
  have hpg : PGSIZE = 4096 := rfl
  refine ⟨fun va hva hge hlt => ?_, fun j va hout => ?_⟩
  · rcases eq_or_ne va hi with rfl | hne
    · rw [setEntry_self]
      exact Pte.isV_zero
    · rw [setEntry_of_ne (.inr hne)]
      refine h.gone va hva hge ?_
      rw [hpg] at ha hva hlt
      omega
  · have hne : j ≠ i ∨ va ≠ hi := by
      refine hout.imp_right fun hva => ?_
      rintro rfl
      omega
    rw [setEntry_of_ne hne]
    exact h.kept j va (hout.imp_right fun h => by omega)

theorem MemOk.unmapLoop_wp (h : MemOk vm roots own pte mem) (hr : roots i = some r)
    (hlo : lo % PGSIZE = 0) (htop : lo + n * PGSIZE ≤ TRAPFRAME) :
    wp ((List.range n).forM fun m => Uvm.unmapPage A r (lo + m * PGSIZE) true) (fun _ vm' =>
          ∃ own' pte', MemOk vm' roots own' pte' (setBytes mem i lo (n * PGSIZE) fun _ => 0) ∧
      SameOutside i own own' ∧ Cleared i lo (lo + n * PGSIZE) pte pte') E vm := by
  refine wp_forM_range (I := fun m vm' => ∃ own' pte', MemOk vm' roots own' pte'
    (setBytes mem i lo (m * PGSIZE) fun _ => 0) ∧ SameOutside i own own' ∧
    Cleared i lo (lo + m * PGSIZE) pte pte') ?_ ⟨own, pte, ?_, .refl own, ?_⟩
  · rintro m hm vm1 ⟨own1, pte1, h1, hk1, hc1⟩
    have ha : (lo + m * PGSIZE) % PGSIZE = 0 := by rw [Nat.add_mul_mod_self_right, hlo]
    have hlt : lo + m * PGSIZE < TRAPFRAME :=
      lt_of_lt_of_le (Nat.add_lt_add_left (Nat.mul_lt_mul_of_pos_right hm (by decide)) lo) htop
    obtain ⟨k, hk⟩ := (UserVa.mk ha hlt).exists_uva
    rw [Nat.succ_mul, ← add_assoc, ← setBytes_extend, ← hk]
    refine h1.unmapPage_wp hr (fun hinv => ⟨own1, pte1, ?_, hk1, ?_⟩)
      fun vm2 own2 h2 hk2 => ⟨own2, _, h2, hk1.trans hk2, ?_⟩
    · rw [setBytes_eq_self]
      · exact h1
      · intro off hoff
        rw [h1.views i k off hoff, hinv]
        rfl
    · rw [hk] at hinv ⊢
      exact hc1.skip ha hinv
    · rw [hk]
      exact hc1.step (Nat.le_add_right _ _) ha
  · rw [Nat.zero_mul, setBytes_none]
    exact h
  · refine ⟨fun va _ hge hlt => ?_, fun _ _ _ => rfl⟩
    omega

theorem MemOk.unmap_wp (h : MemOk vm roots own pte mem) (hr : roots i = some r)
    (hlo : lo % PGSIZE = 0) (htop : lo + n * PGSIZE ≤ TRAPFRAME)
    (hok : ∀ vm' own' pte', MemOk vm' roots own' pte' (setBytes mem i lo (n * PGSIZE) fun _ => 0) →
      SameOutside i own own' → Cleared i lo (lo + n * PGSIZE) pte pte' → Q ⟨⟩ vm') :
    wp (Uvm.unmap A r lo n true) Q E vm := by
  have hfit : ¬USIZE ≤ lo + n * PGSIZE := by
    have htf : TRAPFRAME = 2 ^ 38 - 8192 := rfl
    have hu : USIZE = 2 ^ 64 := rfl
    omega
  unfold Uvm.unmap
  rw [if_neg (not_not.2 hlo), if_neg hfit]
  refine wp_mono (h.unmapLoop_wp hr hlo htop) (fun _ vm' hI => ?_) fun _ h => h
  obtain ⟨own', pte', h', hk, hc⟩ := hI
  exact hok vm' own' pte' h' hk hc

/-- `Uvm::unmap` of `n` pages from the start, of which those from page `m` on are not there. -/
theorem MemOk.unmapPast_wp {m : ℕ} (h : MemOk vm roots own pte mem) (hr : roots i = some r)
    (hmn : m ≤ n) (htop : m * PGSIZE ≤ TRAPFRAME) (hfit : n * PGSIZE < USIZE)
    (hpast : ∀ va, va % PGSIZE = 0 → m * PGSIZE ≤ va → va < MAXVA → (pte i va).isV = false)
    (hok : ∀ vm' own' pte', MemOk vm' roots own' pte' (setBytes mem i 0 (m * PGSIZE) fun _ => 0) →
      SameOutside i own own' → Cleared i 0 (m * PGSIZE) pte pte' → Q ⟨⟩ vm') :
    wp (Uvm.unmap A r 0 n true) Q E vm := by
  have hrange : List.range n = List.range m ++ (List.range (n - m)).map (m + ·) := by
    rw [← List.range_add, Nat.add_sub_cancel' hmn]
  unfold Uvm.unmap
  rw [if_neg (by decide), if_neg (by omega), hrange, List.forM_eq_forM, List.forM_append, ← List.forM_eq_forM,
    wp_bind]
  refine wp_mono (h.unmapLoop_wp hr (by decide) (by rwa [zero_add])) (fun _ vm1 hI => ?_) fun _ h => h
  obtain ⟨own1, pte1, h1, hk1, hc1⟩ := hI
  rw [zero_add] at hc1
  -- the other pages are skipped
  refine wp_mono (wp_forM (I := fun _ vm' => vm' = vm1) ?_ rfl) (fun _ vm' he => ?_) fun _ h => h
  · rintro pre k post hl vm' rfl
    have hk : m ≤ k := by
      have hmem : k ∈ (List.range (n - m)).map (m + ·) := by
        rw [hl]
        exact List.mem_append_right _ List.mem_cons_self
      obtain ⟨l, -, rfl⟩ := List.mem_map.1 hmem
      exact Nat.le_add_right m l
    rw [zero_add]
    have ha : k * PGSIZE % PGSIZE = 0 := Nat.mul_mod_left _ _
    have hge : m * PGSIZE ≤ k * PGSIZE := Nat.mul_le_mul_right _ hk
    have hinv (hva : k * PGSIZE < MAXVA) : (vm'.entry r (k * PGSIZE)).isV = false := by
      rw [h1.trees.entry hr _ ha hva, hc1.kept i _ (.inr (.inr (.inl hge)))]
      exact hpast _ ha hge hva
    refine Octopos.unmapPage_wp (h1.trees.radix hr) (fun _ => rfl) (fun hva hv => ?_) (fun _ hva hv => ?_)
      fun t hva hv => ?_
    all_goals
      rw [hinv hva] at hv
      cases hv
  · rw [he]
    exact hok vm1 own1 pte1 h1 hk1 hc1

/-- `size` rounded up to whole pages. -/
def roundUp (size : ℕ) : ℕ := (size + PGSIZE - 1) / PGSIZE * PGSIZE

theorem roundUp_aligned (size : ℕ) : roundUp size % PGSIZE = 0 := Nat.mul_mod_left _ _

theorem le_roundUp (size : ℕ) : size ≤ roundUp size := by
  have hpg : PGSIZE = 4096 := rfl
  unfold roundUp
  rw [hpg]
  omega

theorem roundUp_le {b : ℕ} (h : size ≤ b) (hb : b % PGSIZE = 0) : roundUp size ≤ b := by
  have hpg : PGSIZE = 4096 := rfl
  unfold roundUp
  rw [hpg] at hb ⊢
  omega

theorem lt_roundUp (hva : va % PGSIZE = 0) : va < roundUp size ↔ va < size := by
  have hpg : PGSIZE = 4096 := rfl
  unfold roundUp
  rw [hpg] at hva ⊢
  omega

theorem usizeAdd_wp {x y : ℕ} {Q : ℕ → Vm → Prop} (h : x + y < USIZE) (hQ : Q (x + y) vm) :
    wp (usizeAdd x y) Q E vm := by
  unfold usizeAdd
  rw [if_neg (not_le.2 h)]
  exact hQ

theorem pgRoundUp_wp {Q : ℕ → Vm → Prop} (h : size + PGSIZE < USIZE) (hQ : Q (roundUp size) vm) :
    wp (pgRoundUp size) Q E vm := by
  refine wp_bind.2 (usizeAdd_wp (x := size) (y := PGSIZE) h (wp_pure.2 ?_))
  rwa [pgRoundDown_eq (lt_of_le_of_lt (Nat.sub_le _ _) h)]

theorem le_TRAPFRAME_fits (h : size ≤ TRAPFRAME) : size + PGSIZE < USIZE := by
  have hpg : PGSIZE = 4096 := rfl
  have htf : TRAPFRAME = 2 ^ 38 - 8192 := rfl
  have hu : USIZE = 2 ^ 64 := rfl
  omega

theorem roundUp_le_TRAPFRAME (h : size ≤ TRAPFRAME) : roundUp size ≤ TRAPFRAME :=
  roundUp_le h (by decide)

theorem MemOk.dealloc_wp {oldSize newSize : ℕ} {Q : ℕ → Vm → Prop}
    (h : MemOk vm roots own pte mem) (hr : roots i = some r) (htop : oldSize ≤ TRAPFRAME)
    (hsame : oldSize ≤ newSize → Q oldSize vm)
    (hok : ∀ vm' own' pte', newSize < oldSize →
      MemOk vm' roots own' pte'
        (setBytes mem i (roundUp newSize) (roundUp oldSize - roundUp newSize) fun _ => 0) →
      SameOutside i own own' → Cleared i (roundUp newSize) (roundUp oldSize) pte pte' →
      Q newSize vm') : wp (Uvm.dealloc A r oldSize newSize) Q E vm := by
  unfold Uvm.dealloc
  refine wp_ite (fun hle => wp_pure.2 (hsame hle)) fun hlt => ?_
  rw [not_le] at hlt
  have hfit := le_TRAPFRAME_fits htop
  have hfit' := le_TRAPFRAME_fits (hlt.le.trans htop)
  refine wp_bind.2 (pgRoundUp_wp hfit (wp_bind.2 (pgRoundUp_wp hfit' ?_)))
  have hmono : roundUp newSize ≤ roundUp oldSize :=
    roundUp_le (hlt.le.trans (le_roundUp oldSize)) (roundUp_aligned oldSize)
  have hpages : (roundUp oldSize - roundUp newSize) / PGSIZE * PGSIZE = roundUp oldSize - roundUp newSize := by
    refine Nat.div_mul_cancel (Nat.dvd_sub ?_ ?_)
    · exact Nat.dvd_of_mod_eq_zero (roundUp_aligned oldSize)
    · exact Nat.dvd_of_mod_eq_zero (roundUp_aligned newSize)
  refine wp_ite (fun hlt' => ?_) fun hge => ?_
  · refine wp_bind.2 (h.unmap_wp hr (roundUp_aligned newSize) ?_ fun vm' own' pte' h' hk hc => wp_pure.2 ?_)
    · rw [hpages, Nat.add_sub_cancel' hmono]
      exact roundUp_le_TRAPFRAME htop
    · rw [hpages] at h' hc
      rw [Nat.add_sub_cancel' hmono] at hc
      exact hok vm' own' pte' hlt h' hk hc
  · have heq := le_antisymm hmono (not_lt.1 hge)
    refine wp_pure.2 (hok vm own pte hlt ?_ (.refl own) ⟨fun va _ h1 h2 => ?_, fun _ _ _ => rfl⟩)
    · rw [heq, Nat.sub_self, setBytes_none]
      exact h
    · omega

/-- `Uvm::unmap` of a page above user memory, which keeps its physical page. -/
theorem MemOk.unmapHigh_wp (h : MemOk vm roots own pte mem) (hr : roots i = some r)
    (ha : va % PGSIZE = 0) (hva : va < MAXVA) (hhigh : ¬UserVa va)
    (hleaf : (pte i va).isV = true → (pte i va).isLeaf = true)
    (hok : ∀ vm' pte', MemOk vm' roots own pte' mem → (pte' i va).isV = false →
      (∀ j va', j ≠ i ∨ va' ≠ va → pte' j va' = pte j va') → Q ⟨⟩ vm') :
    wp (Uvm.unmap A r va 1 false) Q E vm := by
  have hfit : ¬USIZE ≤ va + 1 * PGSIZE := by
    have hpg : PGSIZE = 4096 := rfl
    have hmax : MAXVA = 2 ^ 38 := rfl
    have hu : USIZE = 2 ^ 64 := rfl
    omega
  have hentry := h.trees.entry hr va ha hva
  unfold Uvm.unmap
  rw [if_neg (not_not.2 ha), if_neg hfit]
  change wp (Uvm.unmapPage A r (va + 0 * PGSIZE) false >>= fun _ => pure ⟨⟩) Q E vm
  rw [Nat.zero_mul, add_zero]
  refine wp_bind.2 (Octopos.unmapPage_wp (h.trees.radix hr) (fun hinv => wp_pure.2 ?_) (fun _ hv hl => ?_)
    (fun hf => (by cases hf)) fun t _ _ _ ht _ => wp_pure.2 ?_)
  · refine hok vm pte h ?_ fun _ _ _ => rfl
    rw [← hentry]
    exact hinv hva
  · rw [hentry] at hv hl
    rw [hleaf hv] at hl
    cases hl
  · refine hok _ _ (h.writeHigh hr (labels_eq_some.1 ht) ha hva hhigh) ?_ fun j va' hne => setEntry_of_ne hne
    rw [setEntry_self]
    exact Pte.isV_zero

/-! ### Dropping an address space -/

/-- Giving up an address space changes no other one. -/
structure Dropped (i : ι) (mem mem' : ι → Bytes) (own own' : ℕ → Option (Owner ι)) : Prop where
  others : ∀ j, j ≠ i → mem' j = mem j
  kernel : SameOutside i own own'

theorem roundUp_fits (h : size + PGSIZE < USIZE) : roundUp size < USIZE := by
  refine lt_of_le_of_lt (Nat.div_mul_le_self _ _) (lt_of_le_of_lt ?_ h)
  exact Nat.sub_le _ _

theorem MemOk.freeSpace_wp (h : MemOk vm roots own pte mem) (hr : roots i = some r)
    (hsize : size + PGSIZE < USIZE) (hbelow : ∀ k, (pte i (uva k)).isV = true → uva k < size)
    (hhigh : ∀ va, va % PGSIZE = 0 → TRAPFRAME ≤ va → va < MAXVA → (pte i va).isV = false)
    (hok : ∀ vm' own' mem', MemOk vm' (upd roots i none) own' (upd pte i fun _ => 0) mem' →
      Dropped i mem mem' own own' → Q ⟨⟩ vm') : wp (Uvm.free A r size) Q E vm := by
  -- the page table once its user pages are gone
  have hwalk : ∀ vm1 own1 pte1 mem1, MemOk vm1 roots own1 pte1 mem1 → SameOutside i own own1 →
      (∀ j, j ≠ i → mem1 j = mem j ∧ pte1 j = pte j) →
      (∀ va, va % PGSIZE = 0 → va < MAXVA → (pte1 i va).isV = false) →
      wp (PageTable.freeWalk 3 r) Q E vm1 := by
    intro vm1 own1 pte1 mem1 h1 hk1 hj hempty
    refine freeWalk_space h1 hr hempty fun vm' h' => hok vm' _ mem1 ?_ ⟨fun j hne => (hj j hne).1,
      hk1.trans (clearOwner_sameOutside own1 i)⟩
    have hpte : upd pte1 i (fun _ => 0) = upd pte i fun _ => 0 := by
      funext j
      rcases eq_or_ne j i with rfl | hne
      · rw [upd_self, upd_self]
      · rw [upd_of_ne hne, upd_of_ne hne, (hj j hne).2]
    rwa [hpte] at h'
  -- there is nothing from the size on
  have hpast : ∀ va, va % PGSIZE = 0 → size ≤ va ∨ TRAPFRAME ≤ va → va < MAXVA → (pte i va).isV = false := by
    intro va ha hge hva
    rcases lt_or_ge va TRAPFRAME with hu | hu
    · obtain ⟨k, rfl⟩ := (UserVa.mk ha hu).exists_uva
      by_contra hv
      rw [Bool.not_eq_false] at hv
      exact absurd (hbelow k hv) (not_lt.2 (hge.resolve_right (not_le.2 hu)))
    · exact hhigh va ha hu hva
  unfold Uvm.free
  refine wp_ite (fun hpos => ?_) fun hzero => ?_
  · have hround : roundUp size / PGSIZE * PGSIZE = roundUp size :=
      Nat.div_mul_cancel (Nat.dvd_of_mod_eq_zero (roundUp_aligned size))
    have htop : TRAPFRAME / PGSIZE * PGSIZE = TRAPFRAME := by decide
    have hedge : min (roundUp size / PGSIZE) (TRAPFRAME / PGSIZE) * PGSIZE = min (roundUp size) TRAPFRAME := by
      rw [← hround, ← htop, Nat.mul_div_cancel _ (by decide), Nat.mul_div_cancel _ (by decide), Nat.mul_min_mul_right]
    refine wp_bind.2 (pgRoundUp_wp hsize (wp_bind.2 (h.unmapPast_wp hr
      (min_le_left _ (TRAPFRAME / PGSIZE)) ?_ ?_ (fun va ha hge hva => hpast va ha ?_ hva)
      fun vm1 own1 pte1 h1 hk1 hc1 => hwalk vm1 own1 pte1 _ h1 hk1 (fun j hne => ⟨?_, ?_⟩)
        fun va ha hva => ?_)))
    · rw [hedge]
      exact min_le_right _ _
    · rw [hround]
      exact roundUp_fits hsize
    · rw [hedge] at hge
      exact (min_le_iff.1 hge).imp_left (le_roundUp size).trans
    · exact setBytes_of_ne hne _ _ _
    · funext va
      exact hc1.kept j va (.inl hne)
    · rw [hedge] at hc1
      rcases lt_or_ge va (min (roundUp size) TRAPFRAME) with hlt | hge
      · exact hc1.gone va ha (Nat.zero_le _) hlt
      · rw [hc1.kept i va (.inr (.inr (.inl hge)))]
        exact hpast va ha ((min_le_iff.1 hge).imp_left (le_roundUp size).trans) hva
  · exact hwalk vm own pte mem h (.refl own) (fun _ _ => ⟨rfl, rfl⟩) fun va ha hva =>
      hpast va ha (Or.inl (by omega)) hva

/-- The address space of a process: its pages lie below its size, and the trampoline and the
trapframe are mapped above. -/
structure SpaceOk (pte : ι → ℕ → Pte) (i : ι) (tr tf sz : ℕ) : Prop where
  size : sz ≤ TRAPFRAME
  below : ∀ k, (pte i (uva k)).isV = true → uva k < sz
  trampoline : pte i TRAMPOLINE = paToPte tr ||| (PTE_R ||| PTE_X ||| PTE_V)
  trapframe : pte i TRAPFRAME = paToPte tf ||| (PTE_R ||| PTE_W ||| PTE_V)

omit [DecidableEq ι] [Fintype ι] in
theorem SpaceOk.congr {κ : Type} {tr tf sz : ℕ} {pte' : κ → ℕ → Pte} {x : κ}
    (h : SpaceOk pte i tr tf sz) (hx : pte' x = pte i) : SpaceOk pte' x tr tf sz := by
  obtain ⟨hsize, hbelow, htr, htf⟩ := h
  rw [← hx] at hbelow htr htf
  exact ⟨hsize, hbelow, htr, htf⟩

theorem high_cases (ha : va % PGSIZE = 0) (hge : TRAPFRAME ≤ va) (hlt : va < MAXVA) :
    va = TRAPFRAME ∨ va = TRAMPOLINE := by
  have hpg : PGSIZE = 4096 := rfl
  have htf : TRAPFRAME = 2 ^ 38 - 8192 := rfl
  have htr : TRAMPOLINE = 2 ^ 38 - 4096 := rfl
  have hmax : MAXVA = 2 ^ 38 := rfl
  rw [htf] at hge ⊢
  rw [hmax] at hlt
  rw [hpg] at ha
  rw [htr]
  omega

theorem MemOk.procFree_wp {trampoline frame sz : ℕ} (h : MemOk vm roots own pte mem)
    (hr : roots i = some r) (hs : SpaceOk pte i trampoline frame sz)
    (hsize : size + PGSIZE < USIZE) (hbelow : ∀ k, (pte i (uva k)).isV = true → uva k < size)
    (hok : ∀ vm' own' mem', MemOk vm' (upd roots i none) own' (upd pte i fun _ => 0) mem' →
      Dropped i mem mem' own own' → Q ⟨⟩ vm') : wp (Uvm.procFree A r size) Q E vm := by
  have hne : TRAPFRAME ≠ TRAMPOLINE := by decide
  have hpte : ∀ {pte' : ι → ℕ → Pte}, (∀ j, j ≠ i → pte' j = pte j) →
      upd pte' i (fun _ => 0) = upd pte i fun _ => 0 := by
    intro pte' hj
    funext j
    rcases eq_or_ne j i with rfl | hji
    · rw [upd_self, upd_self]
    · rw [upd_of_ne hji, upd_of_ne hji, hj j hji]
  refine wp_bind.2 (h.unmapHigh_wp hr (by decide) (by decide) (fun hu => absurd hu.top (by decide))
    (fun _ => ?_) fun vm1 pte1 h1 hinv1 hkeep1 => ?_)
  · rw [hs.trampoline, isLeaf_install]
    decide
  refine wp_bind.2 (h1.unmapHigh_wp hr (by decide) (by decide) (fun hu => absurd hu.top (by decide))
    (fun _ => ?_) fun vm2 pte2 h2 hinv2 hkeep2 => ?_)
  · rw [hkeep1 i TRAPFRAME (.inr hne), hs.trapframe, isLeaf_install]
    decide
  have hlow : ∀ k, pte2 i (uva k) = pte i (uva k) := by
    intro k
    have htop := (uva_userVa k).top
    rw [hkeep2 i _ (.inr htop.ne), hkeep1 i _ (.inr (htop.trans (by decide)).ne)]
  refine h2.freeSpace_wp hr hsize (fun k hv => hbelow k (hlow k ▸ hv)) (fun va ha hge hlt => ?_)
    fun vm' own' mem' h' hd => hok vm' own' mem' ?_ hd
  · rcases high_cases ha hge hlt with rfl | rfl
    · exact hinv2
    · rw [hkeep2 i _ (.inr hne.symm)]
      exact hinv1
  · rwa [hpte fun j hji => funext fun va => by rw [hkeep2 j va (.inl hji), hkeep1 j va (.inl hji)]] at h'

end Rules

end Octopos
