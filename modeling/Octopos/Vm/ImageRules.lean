import Octopos.Vm.CopyRules
import Octopos.Vm.Process

/-!
# Rules for new address spaces

`Proc::create_pagetable` makes an address space without user pages, `Uvm::alloc` adds pages to it,
and `exec` fills them with the program and its arguments. All pages below the size of such an image
are there (`NewImageOk`), so its size is bounded by the physical memory and stays far below the
trapframe.
-/

namespace Octopos

variable {ι : Type} [DecidableEq ι] [Fintype ι] {A : Allocator} {vm : Vm} {roots : ι → Option ℕ}
  {own : ℕ → Option (Owner ι)} {pte : ι → ℕ → Pte} {mem : ι → Bytes} {i j : ι} {r a va : ℕ}
  {E : VmPanic → Prop} {k : Fin USERPAGES} {old new : ℕ}
variable {mem' : ι → Bytes} {Q : Except VmError ℕ → Vm → Prop} {P : (ι → ℕ → Pte) → Prop}

/-! ## New page tables -/

theorem MemOk.congr_mem (h : MemOk vm roots own pte mem')
    (hm : ∀ j k off, off < PGSIZE → mem j (uva k + off) = mem' j (uva k + off)) :
    MemOk vm roots own pte mem :=
  ⟨h.trees, h.pages, h.users, fun j k off hoff => (hm j k off hoff).trans (h.views j k off hoff)⟩

theorem MemOk.mapHigh_wp {perm : Pte} {Q : Except VmError PUnit → Vm → Prop}
    (h : MemOk vm roots own pte mem) (hr : roots i = some r) (ha : va % PGSIZE = 0)
    (hva : va < MAXVA) (hhigh : ¬UserVa va) (hinv : (pte i va).isV = false)
    (hnone : ∀ vm' own', MemOk vm' roots own' pte mem → SameOutside i own own' →
      Q (.error .alloc) vm')
    (hok : ∀ vm' own',
      MemOk vm' roots own' (setEntry pte i va (paToPte a ||| (perm ||| PTE_V))) mem →
      SameOutside i own own' → Q (.ok ⟨⟩) vm') :
    wp (PageTable.mapPages A r va a PGSIZE perm) Q E vm := by
  have hfit : va + PGSIZE < USIZE := by
    have hpg : PGSIZE = 4096 := rfl
    have hmax : MAXVA = 2 ^ 38 := rfl
    have hu : USIZE = 2 ^ 64 := rfl
    omega
  refine mapPages_wp (h.trees.radix hr) ha hfit (fun _ hv => ?_) (fun hbig => absurd hva (not_lt.2 hbig))
    (fun vm' lab _ hg => ?_) fun vm' lab _ _ he hs => ?_
  · rw [h.trees.entry hr va ha hva, hinv] at hv
    cases hv
  · obtain ⟨hl, hok'⟩ := h.grow hr hg
    exact hnone vm' _ hok' hl.sameOutside
  · rw [BitVec.or_assoc] at he
    exact hok vm' _ (h.high hr he hs hhigh) (he.relabels h.pages).sameOutside

def Others (i : ι) (pte pte' : ι → ℕ → Pte) : Prop := ∀ j, j ≠ i → pte' j = pte j

omit [Fintype ι] in
theorem Others.set (i : ι) (pte : ι → ℕ → Pte) (va : ℕ) (e : Pte) :
    Others i pte (setEntry pte i va e) :=
  fun _ hj => upd_of_ne hj

omit [DecidableEq ι] [Fintype ι] in
theorem Others.trans {pte' pte'' : ι → ℕ → Pte} (h : Others i pte pte') (h' : Others i pte' pte'') :
    Others i pte pte'' := fun j hj => (h' j hj).trans (h j hj)

omit [Fintype ι] in
theorem Others.clear {pte' : ι → ℕ → Pte} (h : Others i pte pte') (hblank : ∀ va, pte i va = 0) :
    upd pte' i (fun _ => 0) = pte := by
  funext j
  rcases eq_or_ne j i with rfl | hj
  · rw [upd_self]
    exact funext fun va => (hblank va).symm
  · rw [upd_of_ne hj, h j hj]

theorem MemOk.abandoned {vm' : Vm} {own' : ℕ → Option (Owner ι)} {pte' : ι → ℕ → Pte}
    (h : MemOk vm roots own pte mem) (hi : roots i = none)
    (h' : MemOk vm' (upd (upd roots i (some r)) i none) own' (upd pte' i fun _ => 0) mem')
    (hother : Others i pte pte') (hmem : ∀ j, j ≠ i → mem' j = mem j) :
    MemOk vm' roots own' pte mem := by
  rw [upd_idem, ← hi, upd_eq_self, hother.clear (h.trees.blank hi)] at h'
  refine h'.congr_mem fun j k off hoff => ?_
  rcases eq_or_ne j i with rfl | hj
  · rw [h.views j k off hoff, h'.views j k off hoff, h.trees.blank hi]
    rfl
  · rw [hmem j hj]

theorem MemOk.createPagetable_wp {tr tf : ℕ} (h : MemOk vm roots own pte mem)
    (hi : roots i = none)
    (herr : ∀ e vm' own', MemOk vm' roots own' pte mem → SameOutside i own own' →
      Q (.error e) vm')
    (hok : ∀ r vm' own' pte', MemOk vm' (upd roots i (some r)) own' pte' mem →
      SameOutside i own own' → Others i pte pte' → SpaceOk pte' i tr tf 0 → Q (.ok r) vm') :
    wp (Proc.createPagetable A tr tf) Q E vm := by
  have hne : TRAPFRAME ≠ TRAMPOLINE := by decide
  have hblank := h.trees.blank hi
  refine wp_bind.2 (tryNew_wp (wp_pure.2 (herr _ _ own (h.request _) (.refl own))) fun r ha hused => ?_)
  have h0 := h.newSpace hi ha hused
  have hk0 : SameOutside i own (upd own r (some (.table i .root))) :=
    .new (h.unowned ha hused) fun hne => hne rfl
  have hr : upd roots i (some r) i = some r := upd_self _ _ _
  -- an address space in which nothing is mapped any more
  have hfree : ∀ {e vm1 own1 pte1}, MemOk vm1 (upd roots i (some r)) own1 pte1 mem → SameOutside i own own1 →
      Others i pte pte1 → (∀ va, (pte1 i va).isV = false) →
      wp (Uvm.free A r 0) (fun _ vm' => wp (pure (.error e) : VmM (Except VmError ℕ)) Q E vm') E vm1 := by
    intro e vm1 own1 pte1 h1 hk1 ho1 hinv1
    refine h1.freeSpace_wp hr (by decide) (fun k hv => ?_) (fun va _ _ _ => hinv1 va)
      fun vm' own' mem' h' hd => wp_pure.2 (herr e vm' own' (h.abandoned hi h' ho1 hd.others)
        (hk1.trans hd.kernel))
    rw [hinv1] at hv
    cases hv
  refine wp_bind.2 (h0.mapHigh_wp hr (by decide) (by decide) (fun hu => absurd hu.top (by decide))
    (by rw [hblank]; rfl) (fun vm1 own1 h1 hk1 => wp_bind.2 (hfree h1 (hk0.trans hk1) (fun _ _ => rfl)
      fun va => by rw [hblank]; rfl)) fun vm1 own1 h1 hk1 => ?_)
  have hframe : setEntry pte i TRAMPOLINE (paToPte tr ||| (PTE_R ||| PTE_X ||| PTE_V)) i TRAPFRAME = 0 := by
    rw [setEntry_of_ne (.inr hne), hblank]
  refine wp_bind.2 (h1.mapHigh_wp hr (by decide) (by decide) (fun hu => absurd hu.top (by decide))
    (by rw [hframe]; rfl) (fun vm2 own2 h2 hk2 => ?_) fun vm2 own2 h2 hk2 => wp_pure.2 ?_)
  · refine wp_bind.2 (h2.unmapHigh_wp hr (by decide) (by decide) (fun hu => absurd hu.top (by decide))
      (fun _ => ?_) fun vm3 pte3 h3 hinv3 hkeep3 => wp_bind.2 (hfree h3 ((hk0.trans hk1).trans hk2) ?_
        fun va => ?_))
    · rw [setEntry_self, isLeaf_install]
      decide
    · exact (Others.set i pte _ _).trans fun j hj => funext fun va => hkeep3 j va (.inl hj)
    · rcases eq_or_ne va TRAMPOLINE with rfl | hva
      · exact hinv3
      · rw [hkeep3 i va (.inr hva), setEntry_of_ne (.inr hva), hblank]
        rfl
  · refine hok r vm2 own2 _ h2 ((hk0.trans hk1).trans hk2) ((Others.set i pte _ _).trans (Others.set i _ _ _))
      ⟨Nat.zero_le _, fun k hv => ?_, ?_, setEntry_self _ _ _ _⟩
    · have htop := (uva_userVa k).top
      rw [setEntry_of_ne (.inr htop.ne), setEntry_of_ne (.inr (htop.trans (by decide)).ne), hblank] at hv
      cases hv
    · rw [setEntry_of_ne (.inr hne.symm), setEntry_self]

/-- An address space that is being built: all of its pages are there, and only there. -/
structure NewImageOk (pte : ι → ℕ → Pte) (i : ι) (tr tf sz : ℕ) : Prop where
  space : SpaceOk pte i tr tf sz
  dense : ∀ k, uva k < sz → (pte i (uva k)).isV = true
  alone : Alone pte i

theorem MemOk.dense_le {n : ℕ} (h : MemOk vm roots own pte mem) (hn : n ≤ USERPAGES)
    (hd : ∀ k : Fin USERPAGES, k.val < n → (pte i (uva k)).isV = true) : n ≤ 32768 := by
  have hpage : ∀ k : Fin USERPAGES, k.val < n → IsPage (pte i (uva k)).asPa := fun k hk =>
    h.userPage (h.users.leaf (hd k hk)).2
  have hlt : ∀ k : Fin USERPAGES, k.val < n → pageIndex (pte i (uva k)).asPa < 32768 := by
    intro k hk
    obtain ⟨-, hbase, htop⟩ := hpage k hk
    have hpg : PGSIZE = 4096 := rfl
    have hb : KERNBASE = 0x80000000 := rfl
    have ht : PHYSTOP = 0x88000000 := rfl
    unfold pageIndex
    rw [hb] at hbase ⊢
    rw [ht] at htop
    rw [hpg]
    omega
  let f : Fin n → Fin 32768 := fun k =>
    ⟨pageIndex (pte i (uva ⟨k, k.isLt.trans_le hn⟩)).asPa, hlt _ k.isLt⟩
  have hf : Function.Injective f := by
    intro k l heq
    have hk := hd ⟨k, k.isLt.trans_le hn⟩ k.isLt
    have hl := hd ⟨l, l.isLt.trans_le hn⟩ l.isLt
    have hpa := pageIndex_inj (hpage _ k.isLt) (hpage _ l.isLt) (Fin.mk.inj heq)
    have hkl := h.users.inj (mapping_eq_some.2 ⟨hk, hpa⟩) (mapping_eq_some.2 ⟨hl, rfl⟩)
    exact Fin.ext (Fin.mk.inj hkl)
  simpa using Fintype.card_le_of_injective f hf

def IMAGEMAX : ℕ := 32768 * PGSIZE

theorem MemOk.dense_size_le {sz : ℕ} (h : MemOk vm roots own pte mem) (ha : sz % PGSIZE = 0)
    (htop : sz ≤ TRAPFRAME) (hd : ∀ k, uva k < sz → (pte i (uva k)).isV = true) :
    sz ≤ IMAGEMAX := by
  have hsz : sz / PGSIZE * PGSIZE = sz := Nat.div_mul_cancel (Nat.dvd_of_mod_eq_zero ha)
  have hle := h.dense_le (i := i) (n := sz / PGSIZE) (Nat.div_le_div_right htop) fun k hk => hd k ?_
  · rw [← hsz]
    exact Nat.mul_le_mul_right PGSIZE hle
  · rw [← hsz]
    exact Nat.mul_lt_mul_of_pos_right hk (by decide)

/-- The pages of a range are new, with the permissions `perm`, and the others stay. -/
structure Alloced (i : ι) (lo hi : ℕ) (perm : Pte) (pte pte' : ι → ℕ → Pte) : Prop where
  fresh : ∀ k, lo ≤ uva k → uva k < hi →
    ∃ a, IsPage a ∧ pte' i (uva k) = paToPte a ||| (PTE_R ||| PTE_U ||| perm ||| PTE_V)
  kept : ∀ j va, j ≠ i ∨ va < lo ∨ hi ≤ va ∨ ¬UserVa va → pte' j va = pte j va

omit [DecidableEq ι] [Fintype ι] in
theorem Alloced.none (i : ι) (lo : ℕ) (perm : Pte) (pte : ι → ℕ → Pte) :
    Alloced i lo lo perm pte pte :=
  ⟨fun _ hge hlt => absurd hge (not_le.2 hlt), fun _ _ _ => rfl⟩

omit [Fintype ι] in
theorem Alloced.step {lo : ℕ} {perm : Pte} {pte' : ι → ℕ → Pte} (ha : IsPage a) (hlo : lo ≤ uva k)
    (h : Alloced i lo (uva k) perm pte pte') :
    Alloced i lo (uva k + PGSIZE) perm pte
      (setEntry pte' i (uva k) (paToPte a ||| (PTE_R ||| PTE_U ||| perm ||| PTE_V))) := by
  refine ⟨fun l hge hlt => ?_, fun j va hout => ?_⟩
  · rcases uva_cases hlt with hlt' | rfl
    · obtain ⟨b, hb, heq⟩ := h.fresh l hge hlt'
      refine ⟨b, hb, ?_⟩
      rw [setEntry_of_ne (.inr hlt'.ne), heq]
    · exact ⟨a, ha, setEntry_self _ _ _ _⟩
  · have hne : j ≠ i ∨ va ≠ uva k := by
      refine hout.imp_right fun hva => ?_
      rintro rfl
      have hpos : 0 < PGSIZE := by decide
      have hu := uva_userVa k
      rcases hva with hva | hva | hva
      · omega
      · omega
      · exact hva hu
    rw [setEntry_of_ne hne]
    exact h.kept j va (hout.imp_right fun hva => hva.imp_right fun hva =>
      hva.imp_left fun hle => (Nat.le_add_right _ _).trans hle)

theorem MemOk.alone_fill {e : Pte} (h : MemOk vm roots own pte mem) (hal : Alone pte i)
    (ha : own a = some .kernel) (hinv : (pte i (uva k)).isV = false) (ht : e.target = some a) :
    Alone (setEntry pte i (uva k) e) i := by
  have hnot : own a ≠ some .user := by
    rw [ha]
    exact fun h => by cases h
  have huses : ∀ b, uses (mapping (setEntry pte i (uva k) e)) b =
      uses (mapping pte) b + if b = a then 1 else 0 := fun b => by
    rw [mapping_setEntry, ht]
    exact uses_fill (Pte.target_none hinv)
  intro l hv
  rw [huses]
  rcases setEntry_cases pte i k e i l with ⟨-, rfl⟩ | ⟨-, heq⟩
  · rw [setEntry_self, (Pte.target_eq_some.1 ht).2, h.users.uses_zero hnot, if_pos rfl]
  · rw [heq] at hv ⊢
    rw [hal l hv, if_neg]
    rintro rfl
    exact hnot (h.users.leaf hv).2

theorem MemOk.mem_zero (h : MemOk vm roots own pte mem) (hva : va < TRAPFRAME)
    (hinv : ∀ k, uva k = va / PGSIZE * PGSIZE → (pte i (uva k)).isV = false) : mem i va = 0 := by
  have hlow : va / PGSIZE * PGSIZE < TRAPFRAME := lt_of_le_of_lt (Nat.div_mul_le_self va PGSIZE) hva
  obtain ⟨k, hk⟩ := (UserVa.mk (Nat.mul_mod_left _ _) hlow).exists_uva
  have hview := h.views i k (va % PGSIZE) (Nat.mod_lt _ (by decide))
  rwa [hinv k hk, if_neg Bool.false_ne_true, hk, Nat.div_add_mod'] at hview

section Alloced

variable {pte' : ι → ℕ → Pte} {lo hi sz : ℕ} {perm : Pte}
omit [DecidableEq ι] [Fintype ι]

section

variable (h : Alloced i lo hi perm pte pte')
include h

theorem Alloced.isV_new (hge : lo ≤ uva k) (hlt : uva k < hi) : (pte' i (uva k)).isV = true := by
  obtain ⟨a, _, heq⟩ := h.fresh k hge hlt
  rw [heq, isV_install, Pte.isV_eq, BitVec.getLsbD_or]
  exact Bool.or_true _

theorem Alloced.dense (hd : ∀ k, uva k < lo → (pte i (uva k)).isV = true) :
    ∀ k, uva k < hi → (pte' i (uva k)).isV = true := by
  intro k hlt
  rcases lt_or_ge (uva k) lo with hlo | hge
  · rw [h.kept i _ (.inr (.inl hlo))]
    exact hd k hlo
  · exact h.isV_new hge hlt

theorem Alloced.below (hle : lo ≤ hi) (hb : ∀ k, (pte i (uva k)).isV = true → uva k < lo) :
    ∀ k, (pte' i (uva k)).isV = true → uva k < hi := by
  intro k hv
  by_contra hge
  rw [not_lt] at hge
  rw [h.kept i _ (.inr (.inr (.inl hge)))] at hv
  exact absurd (hb k hv) (not_lt.2 (hle.trans hge))

theorem Alloced.others : Others i pte pte' := fun j hj =>
  funext fun va => h.kept j va (.inl hj)

theorem Alloced.high (hva : TRAPFRAME ≤ va) : pte' i va = pte i va :=
  h.kept i va (.inr (.inr (.inr fun hu => absurd hu.top (not_lt.2 hva))))

end

end Alloced

theorem roundUp_of_aligned {size : ℕ} (h : size % PGSIZE = 0) : roundUp size = size :=
  le_antisymm (roundUp_le le_rfl h) (le_roundUp size)

/-- The loop of `Uvm::alloc`, where `P` is a property of the entries that a new page keeps. The loop
ends below the trapframe, or it stops there. -/
theorem MemOk.allocLoop_wp {n : ℕ} {perm : Pte} {own0 : ℕ → Option (Owner ι)} {pte0 : ι → ℕ → Pte}
    (hr : roots i = some r) (hold : old % PGSIZE = 0) (hperm : perm.toNat < 2 ^ 10)
    (hb : ∀ k, (pte0 i (uva k)).isV = true → uva k < old)
    (hzero : ∀ v, old ≤ v → v < TRAPFRAME → mem i v = 0)
    (hfill : ∀ {vm own pte k a e}, MemOk vm roots own pte mem → P pte → own a = some .kernel →
      (pte i (uva k)).isV = false → e.target = some a → P (setEntry pte i (uva k) e))
    (hbound : ∀ {vm own pte}, MemOk vm roots own pte mem → Alloced i old TRAPFRAME perm pte0 pte →
      (pte i TRAPFRAME).isV = true ∧ E .remap)
    (herr : ∀ e vm' own' pte', MemOk vm' roots own' pte' mem → SameOutside i own0 own' →
      Others i pte0 pte' → (∀ k, (pte' i (uva k)).isV = true → uva k < old) →
      (∀ va, TRAPFRAME ≤ va → pte' i va = pte0 i va) → Q (.error e) vm')
    (hok : ∀ hi vm' own' pte', hi = old + n * PGSIZE → hi ≤ TRAPFRAME →
      MemOk vm' roots own' pte' mem → SameOutside i own0 own' → Alloced i old hi perm pte0 pte' →
      P pte' → Q (.ok new) vm') :
    ∀ m cur vm own pte, cur + m * PGSIZE = old + n * PGSIZE → old ≤ cur → cur % PGSIZE = 0 →
    cur ≤ TRAPFRAME → MemOk vm roots own pte mem → SameOutside i own0 own →
    Alloced i old cur perm pte0 pte → P pte → wp (Uvm.allocLoop A r old new perm m cur) Q E vm := by
  intro m
  induction m with
  | zero =>
    intro cur vm own pte hn hle ha htop h hk hal hone
    rw [Nat.zero_mul, add_zero] at hn
    exact wp_pure.2 (hok cur vm own pte hn htop h hk hal hone)
  | succ m ih =>
    intro cur vm own pte hn hle ha htop h hk hal hone
    -- on failure the pages that were added go away again
    have hundo : ∀ {e vm1 own1}, MemOk vm1 roots own1 pte mem → SameOutside i own0 own1 →
        wp (Uvm.dealloc A r cur old) (fun _ vm' =>
          wp (pure (.error e) : VmM (Except VmError ℕ)) Q E vm') E vm1 := by
      intro e vm1 own1 h1 hk1
      refine h1.dealloc_wp hr htop (fun hge => wp_pure.2 ?_) fun vm' own' pte' hlt' h' hk' hc => wp_pure.2 ?_
      · refine herr e vm1 own1 pte h1 hk1 hal.others (fun l hv => ?_) fun va hva => hal.high hva
        exact (hal.below hle hb l hv).trans_le hge
      · rw [roundUp_of_aligned hold, roundUp_of_aligned ha] at h' hc
        rw [setBytes_eq_self fun off hoff => ?_] at h'
        · refine herr e vm' own' pte' h' (hk1.trans hk') (hal.others.trans fun j hj => funext fun va =>
            hc.kept j va (.inl hj)) (fun l hv => ?_) fun va hva => ?_
          · by_contra hge
            rw [not_lt] at hge
            rcases lt_or_ge (uva l) cur with hl | hl
            · rw [hc.gone _ (uva_userVa l).aligned hge hl] at hv
              cases hv
            · rw [hc.kept i _ (.inr (.inr (.inl hl)))] at hv
              exact absurd (hal.below hle hb l hv) (not_lt.2 hl)
          · rw [hc.kept i va (.inr (.inr (.inl (htop.trans hva))))]
            exact hal.high hva
        · exact (hzero _ (Nat.le_add_right _ _) (by omega)).symm
    rw [Uvm.allocLoop]
    refine wp_bind.2 (h.alloc_wp (fun vm1 h1 => wp_bind.2 (hundo h1 hk)) fun a vm1 hfree hpage h1 hdata => ?_)
    have hback : ∀ {e vm2 own2}, MemOk vm2 roots own2 pte mem → SameOutside i (upd own a (some .kernel)) own2 →
        wp (pageFree a) (fun _ vm' => wp (Uvm.dealloc A r cur old >>= fun _ => pure (.error e)) Q E vm')
          E vm2 := by
      intro e vm2 own2 h2 hk2
      have hka : own2 a = some .kernel := (hk2.kernel a).2 (upd_self _ _ _)
      exact h2.free_wp hka fun vm3 h3 => wp_bind.2 (hundo h3 (hk.trans (.back hfree hk2)))
    rcases lt_or_eq_of_le htop with hlt | rfl
    swap
    · -- the trapframe is in the way
      obtain ⟨hv, hremap⟩ := hbound h hal
      exact wp_bind.2 (h1.mapTaken_wp hr (by decide) (by decide) hv hremap fun vm2 own2 h2 hk2 =>
        wp_bind.2 (hback h2 hk2))
    obtain ⟨k, rfl⟩ := (UserVa.mk ha hlt).exists_uva
    have hinv : (pte i (uva k)).isV = false := by
      by_contra hv
      rw [Bool.not_eq_false] at hv
      exact absurd (hal.below hle hb k hv) (lt_irrefl _)
    have hperm' : (PTE_R ||| PTE_U ||| perm).toNat < 2 ^ 10 := toNat_or_lt (by decide) hperm
    have hread : (PTE_R ||| PTE_U ||| perm).isR = true := by
      rw [isR_or, isR_or]
      rfl
    refine wp_bind.2 (h1.map_wp hr (upd_self _ _ _) hinv hperm' hread (fun vm2 own2 h2 hk2 =>
      wp_bind.2 (hback h2 hk2)) fun vm2 own2 h2 hk2 => ?_)
    have htarget := target_install hpage (toNat_or_lt hperm' (by decide : PTE_V.toNat < 2 ^ 10))
      (by rw [Pte.isV_eq, BitVec.getLsbD_or]; exact Bool.or_true _)
    have hnext : uva k + PGSIZE ≤ TRAPFRAME := by
      have hpg : PGSIZE = 4096 := rfl
      have htf : TRAPFRAME = 2 ^ 38 - 8192 := rfl
      rw [hpg] at ha
      omega
    rw [upd_idem] at hk2
    rw [hdata, setBytes_eq_self fun off hoff => ?_] at h2
    · exact ih (uva k + PGSIZE) vm2 own2 _ (by rw [← hn, Nat.succ_mul]; omega)
        (hle.trans (Nat.le_add_right _ _)) (by rw [Nat.add_mod_right]; exact ha) hnext h2
        (hk.trans ((SameOutside.user hfree).trans hk2)) (hal.step hpage hle)
        (hfill h1 hone (upd_self _ _ _) hinv htarget)
    · exact (hzero _ (hle.trans (Nat.le_add_right _ _)) (by omega)).symm

theorem roundUp_add_stepCount (h : old ≤ new) :
    roundUp old + stepCount (roundUp old) new * PGSIZE = roundUp new := by
  have hpg : PGSIZE = 4096 := rfl
  unfold stepCount roundUp
  rw [hpg]
  omega

theorem MemOk.zero_above {tr tf sz v : ℕ} (h : MemOk vm roots own pte mem)
    (hs : SpaceOk pte i tr tf sz) (hge : roundUp sz ≤ v) (hlt : v < TRAPFRAME) : mem i v = 0 := by
  refine h.mem_zero hlt fun k hk => ?_
  by_contra hv
  rw [Bool.not_eq_false] at hv
  have hlow := (lt_roundUp (uva_userVa k).aligned).2 (hs.below k hv)
  have hal := roundUp_aligned sz
  have ha := (uva_userVa k).aligned
  have hpg : PGSIZE = 4096 := rfl
  rw [hpg] at hk hal ha
  omega

/-- `Uvm::alloc`, where `P` is a property of the entries that a new page keeps. -/
theorem MemOk.allocRange_wp {tr tf : ℕ} {perm : Pte} (h : MemOk vm roots own pte mem)
    (hr : roots i = some r) (hs : SpaceOk pte i tr tf old) (hperm : perm.toNat < 2 ^ 10)
    (hP : P pte)
    (hfill : ∀ {vm own pte k a e}, MemOk vm roots own pte mem → P pte → own a = some .kernel →
      (pte i (uva k)).isV = false → e.target = some a → P (setEntry pte i (uva k) e))
    (hbound : ∀ {vm own pte'}, MemOk vm roots own pte' mem →
      Alloced i (roundUp old) TRAPFRAME perm pte pte' → (pte' i TRAPFRAME).isV = true ∧ E .remap)
    (hsame : new < old → Q (.ok old) vm)
    (herr : ∀ e vm' own' pte', MemOk vm' roots own' pte' mem → SameOutside i own own' →
      Others i pte pte' → SpaceOk pte' i tr tf old → Q (.error e) vm')
    (hok : ∀ vm' own' pte', old ≤ new → MemOk vm' roots own' pte' mem → SameOutside i own own' →
      SpaceOk pte' i tr tf new → Alloced i (roundUp old) (roundUp new) perm pte pte' → P pte' →
      Q (.ok new) vm') : wp (Uvm.alloc A r old new perm) Q E vm := by
  unfold Uvm.alloc
  refine wp_ite (fun hlt => wp_pure.2 (hsame hlt)) fun hge => ?_
  rw [not_lt] at hge
  have hb : ∀ k, (pte i (uva k)).isV = true → uva k < roundUp old := fun k hv =>
    (hs.below k hv).trans_le (le_roundUp old)
  refine wp_bind.2 (pgRoundUp_wp (le_TRAPFRAME_fits hs.size) ?_)
  refine MemOk.allocLoop_wp hr (roundUp_aligned old) hperm hb (fun v hv hlt => h.zero_above hs hv hlt)
    hfill hbound (fun e vm' own' pte' h' hk' ho hb' hh => ?_)
    (fun hi vm' own' pte' hhi htop h' hk' hal hP' => ?_)
    _ _ vm own pte rfl le_rfl (roundUp_aligned old) (roundUp_le_TRAPFRAME hs.size) h (.refl own)
    (.none ..) hP
  · refine herr e vm' own' pte' h' hk' ho ⟨hs.size, fun k hv => ?_, ?_, ?_⟩
    · exact (lt_roundUp (uva_userVa k).aligned).1 (hb' k hv)
    · rw [hh _ (by decide)]
      exact hs.trampoline
    · rw [hh _ le_rfl]
      exact hs.trapframe
  · rw [roundUp_add_stepCount hge] at hhi
    subst hhi
    have hround := le_roundUp new
    refine hok vm' own' pte' hge h' hk' ⟨hround.trans htop, fun k hv => ?_, ?_, ?_⟩ hal hP'
    · refine (lt_roundUp (uva_userVa k).aligned).1 (hal.below ?_ hb k hv)
      exact roundUp_le (hge.trans hround) (roundUp_aligned new)
    · rw [hal.high (by decide)]
      exact hs.trampoline
    · rw [hal.high le_rfl]
      exact hs.trapframe

theorem MemOk.allocSpace_wp {tr tf : ℕ} {perm : Pte} (h : MemOk vm roots own pte mem)
    (hr : roots i = some r) (him : NewImageOk pte i tr tf old) (hperm : perm.toNat < 2 ^ 10)
    (hsame : new < old → Q (.ok old) vm)
    (herr : ∀ e vm' own' pte', MemOk vm' roots own' pte' mem → SameOutside i own own' →
      Others i pte pte' → SpaceOk pte' i tr tf old → Q (.error e) vm')
    (hok : ∀ vm' own' pte', old ≤ new → MemOk vm' roots own' pte' mem → SameOutside i own own' →
      NewImageOk pte' i tr tf new → Alloced i (roundUp old) (roundUp new) perm pte pte' →
      Q (.ok new) vm') : wp (Uvm.alloc A r old new perm) Q E vm := by
  have hd : ∀ k, uva k < roundUp old → (pte i (uva k)).isV = true := fun k hk =>
    him.dense k ((lt_roundUp (uva_userVa k).aligned).1 hk)
  refine h.allocRange_wp (P := fun pte => Alone pte i) hr him.space hperm him.alone
    (fun h' hone ha hinv ht => h'.alone_fill hone ha hinv ht) (fun h' hal => ?_) hsame herr
    fun vm' own' pte' hge h' hk' hs' hal hone => hok vm' own' pte' hge h' hk' ⟨hs', fun k hlt => ?_, hone⟩ hal
  · have hmax := h'.dense_size_le (by decide) le_rfl (hal.dense hd)
    exact absurd hmax (by decide)
  · exact hal.dense hd k (hlt.trans_le (le_roundUp new))

/-! ## Sharing with a new address space -/

section Copied

variable {pt' : ι → ℕ → Pte} {m tr tf sz : ℕ}
omit [DecidableEq ι] [Fintype ι]

theorem Copied.isV_parent (h : Copied pte pt' i j m) (k : Fin USERPAGES) :
    (pt' i (uva k)).isV = (pte i (uva k)).isV := by
  rcases h.parent k with heq | heq
  · rw [heq]
  · rw [heq, Pte.isV_shared]

theorem Copied.space_parent (h : Copied pte pt' i j m) (hs : SpaceOk pte i tr tf sz) :
    SpaceOk pt' i tr tf sz := by
  refine ⟨hs.size, fun k hv => hs.below k (h.isV_parent k ▸ hv), ?_, ?_⟩
  · rw [h.rest i _ (.inr fun hu => absurd hu.top (by decide))]
    exact hs.trampoline
  · rw [h.rest i _ (.inr fun hu => absurd hu.top (by decide))]
    exact hs.trapframe

theorem Copied.isV_child (h : Copied pte pt' i j m) (hv : (pt' j (uva k)).isV = true) :
    uva k < m ∧ (pte i (uva k)).isV = true := by
  rcases lt_or_ge (uva k) m with hlt | hge
  · have ht := h.done k hlt
    rw [Pte.target_eq_some.2 ⟨hv, rfl⟩] at ht
    exact ⟨hlt, (Pte.target_eq_some.1 ht.symm).1⟩
  · rw [h.todo k hge] at hv
    cases hv

theorem Copied.space_child {sz' : ℕ} (h : Copied pte pt' i j m) (hj : SpaceOk pte j tr tf sz')
    (hs : sz ≤ TRAPFRAME) (hb : ∀ k, (pt' j (uva k)).isV = true → uva k < sz) :
    SpaceOk pt' j tr tf sz := by
  refine ⟨hs, hb, ?_, ?_⟩
  · rw [h.rest j _ (.inr fun hu => absurd hu.top (by decide))]
    exact hj.trampoline
  · rw [h.rest j _ (.inr fun hu => absurd hu.top (by decide))]
    exact hj.trapframe

end Copied

theorem stepCount_mul (sz : ℕ) : stepCount 0 sz * PGSIZE = roundUp sz := by
  unfold stepCount roundUp
  rw [Nat.sub_zero]

theorem MemOk.copy_wp {ri rj tr tfi tfj sz : ℕ} {Q : Except VmError PUnit → Vm → Prop}
    (h : MemOk vm roots own pte mem) (hcard : Fintype.card ι < 256) (hri : roots i = some ri)
    (hrj : roots j = some rj) (hij : i ≠ j) (hsi : SpaceOk pte i tr tfi sz)
    (hsj : SpaceOk pte j tr tfj 0)
    (herr : ∀ e vm' own' pte', MemOk vm' roots own' pte' mem → SameOutside j own own' →
      Copied pte pte' i j 0 → Q (.error e) vm')
    (hok : ∀ vm' own' pte', MemOk vm' roots own' pte' (setBytes mem j 0 (roundUp sz) (mem i)) →
      SameOutside j own own' → Copied pte pte' i j (roundUp sz) → Q (.ok ⟨⟩) vm') :
    wp (Uvm.copy A ri rj sz) Q E vm := by
  have hround : roundUp 0 = 0 := by decide
  have hstart : Copied pte pte i j (0 * PGSIZE) := by
    refine ⟨fun _ => .inl rfl, fun k hk => ?_, fun k _ => ?_, fun _ _ _ => rfl⟩
    · rw [Nat.zero_mul] at hk
      exact absurd hk (Nat.not_lt_zero _)
    · by_contra hv
      rw [Bool.not_eq_false] at hv
      exact absurd (hsj.below k hv) (Nat.not_lt_zero _)
  have hloop : Uvm.copy A ri rj sz = Uvm.copyLoop A ri rj (stepCount 0 sz) (0 * PGSIZE) := by
    rw [Nat.zero_mul]
    rfl
  rw [hloop]
  refine MemOk.copyLoop_wp hcard hri hrj hij (fun v hv => h.zero_above hsj (hround ▸ Nat.zero_le v) hv)
    herr (fun vm2 own2 pte2 m hm h2 hk2 hc => ?_) (stepCount 0 sz) 0 vm own pte (Nat.zero_add _) ?_ ?_
    (.refl own) hstart
  · rw [stepCount_mul] at hm
    subst hm
    exact hok vm2 own2 pte2 h2 hk2 hc
  · rw [stepCount_mul]
    exact roundUp_le_TRAPFRAME hsi.size
  · rw [Nat.zero_mul, setBytes_none]
    exact h

end Octopos
