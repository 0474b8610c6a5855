import Octopos.Vm.SpaceRules

/-!
# Rules for page faults, `fork` and new page tables

`Uvm::vmfault` maps a new page or a copy of a shared one and changes no byte of any address space;
`Uvm::copy` makes the child's pages those of its parent; `Proc::create_pagetable` makes an address
space without user pages.
-/

namespace Octopos

variable {ι : Type} [DecidableEq ι] [Fintype ι] {A : Allocator} {vm : Vm} {roots : ι → Option ℕ}
  {own : ℕ → Option (Owner ι)} {pte : ι → ℕ → Pte} {mem : ι → Bytes} {i j : ι} {r a : ℕ}
  {k : Fin USERPAGES} {E : VmPanic → Prop} {e : Pte} {pte' : ι → ℕ → Pte}
variable {Q : Except VmError ℕ → Vm → Prop} {m : ℕ}

/-! ## Page faults -/

/-- The entry of a page that was copied from a shared one. -/
def Pte.unshared (e : Pte) (a : ℕ) : Pte := paToPte a ||| ((e.flags &&& ~~~PTE_COW) ||| PTE_W)

/-- The entry of a page that was allocated lazily. -/
def lazyPte (a : ℕ) : Pte := paToPte a ||| (PTE_W ||| PTE_U ||| PTE_R ||| PTE_V)

theorem target_unshared (ha : IsPage a) (hv : e.isV = true) : (e.unshared a).target = some a := by
  refine target_install ha (toNat_or_lt (toNat_and_lt (toNat_flags e) _) (by decide)) ?_
  rw [Pte.isV_eq, BitVec.getLsbD_or, ← Pte.isV_eq, Pte.isV_and_not _ (by decide), Pte.isV_eq,
    getLsbD_flags e (by decide), ← Pte.isV_eq, hv, Bool.true_or]

theorem isR_unshared (hr : e.isR = true) (a : ℕ) : (e.unshared a).isR = true := by
  rw [Pte.unshared, isR_install, isR_or, Pte.isR_and_not _ (by decide), Pte.isR_eq,
    getLsbD_flags e (by decide), ← Pte.isR_eq, hr, Bool.true_or]

theorem target_lazy (ha : IsPage a) : (lazyPte a).target = some a :=
  target_install ha (by decide) (by decide)

theorem MemOk.lazyPage_wp (h : MemOk vm roots own pte mem) (hr : roots i = some r)
    (hinv : (pte i (uva k)).isV = false)
    (hnone : ∀ vm' own', MemOk vm' roots own' pte mem → SameOutside i own own' →
      Q (.error .alloc) vm')
    (hok : ∀ a vm' own', IsPage a → MemOk vm' roots own' (setEntry pte i (uva k) (lazyPte a)) mem →
      SameOutside i own own' → Q (.ok a) vm') : wp (Uvm.lazyPage A r (uva k)) Q E vm := by
  refine wp_bind.2 (h.alloc_wp (fun vm' h' => hnone vm' own h' (.refl own)) fun a vm1 hfree ha h1 hzero => ?_)
  refine wp_bind.2 (h1.map_wp hr (upd_self _ _ _) hinv (by decide) (by decide)
    (fun vm2 own2 h2 hk2 => ?_) fun vm2 own2 h2 hk2 => hok a vm2 own2 ha ?_ ?_)
  · have hka : own2 a = some .kernel := (hk2.kernel a).2 (upd_self _ _ _)
    exact wp_bind.2 (h2.free_wp hka fun vm3 h3 => hnone vm3 _ h3 (.back hfree hk2))
  · rw [hzero, setBytes_eq_self] at h2
    · exact h2
    · intro off hoff
      rw [h.views i k off hoff, hinv]
      rfl
  · rw [upd_idem] at hk2
    exact (SameOutside.user hfree).trans hk2

theorem MemOk.copyPage_wp {t : ℕ} (h : MemOk vm roots own pte mem) (hr : roots i = some r)
    (ht : own t = some (.table i (.leaf (px 2 (uva k)) (px 1 (uva k)))))
    (hv : (pte i (uva k)).isV = true)
    (hnone : ∀ vm', MemOk vm' roots own pte mem → Q (.error .alloc) vm')
    (hok : ∀ a vm' own', IsPage a →
      MemOk vm' roots own' (setEntry pte i (uva k) ((pte i (uva k)).unshared a)) mem →
      SameOutside i own own' → Q (.ok a) vm') :
    wp (Uvm.copyPage A t (px 0 (uva k)) (pte i (uva k))) Q E vm := by
  have hm : (pte i (uva k)).target = some (pte i (uva k)).asPa := Pte.target_eq_some.2 ⟨hv, rfl⟩
  have huser := h.users.owner hm
  refine wp_bind.2 (h.alloc_wp hnone fun a vm1 hfree ha h1 _ => ?_)
  have hne : t ≠ a := by
    rintro rfl
    rw [hfree] at ht
    cases ht
  have hold : (pte i (uva k)).asPa ≠ a := by
    rintro rfl
    rw [hfree] at huser
    cases huser
  have h2 : MemOk (vm1.poke a 0 PGSIZE (vm1.data (pte i (uva k)).asPa)) roots _ pte mem :=
    h1.pokeKernel (upd_self _ _ _)
  have hrep := h2.replace hr ((upd_of_ne hne).trans ht) hm (upd_self _ _ _) (target_unshared ha hv)
    (isR_unshared (h.users.leaf hv).1 _)
  have hbytes : ∀ off < PGSIZE, (vm1.poke a 0 PGSIZE (vm1.data (pte i (uva k)).asPa)).data a off =
      mem i (uva k + off) := by
    intro off hoff
    change upd vm1.data a (blit (vm1.data a) 0 PGSIZE _) a off = _
    have hblit := blit_start (b := vm1.data a) (s := vm1.data (pte i (uva k)).asPa) hoff
    rw [upd_self, hblit, h1.views i k off hoff, if_pos hv]
  rw [setBytes_eq_self hbytes] at hrep
  refine wp_bind.2 (wp_modify.2 (wp_bind.2 (wp_modify.2 (wp_bind.2 (pageFree_wp (asPa_aligned _)
    (fun hno => absurd (h.userPage huser) hno) fun _ => wp_pure.2 (hok a _ _ ha hrep ?_))))))
  have hdrop : SameOutside i _ (dropOwner (vm1.poke a 0 PGSIZE (vm1.data (pte i (uva k)).asPa))
      (upd own a (some .kernel)) _) := dropOwner_sameOutside ((upd_of_ne hold).trans huser)
  have hupd := hdrop.upd (a := a) (o := some .user)
  rw [upd_idem] at hupd
  exact (SameOutside.user hfree).trans hupd

theorem UserVa.roundDown {va : ℕ} (h : va < TRAPFRAME) : ∃ k, uva k = pgRoundDown va := by
  have hpg : PGSIZE = 4096 := rfl
  have htf : TRAPFRAME = 2 ^ 38 - 8192 := rfl
  rw [pgRoundDown_eq (h.trans (by decide))]
  refine UserVa.exists_uva ⟨Nat.mul_mod_left _ _, ?_⟩
  exact lt_of_le_of_lt (Nat.div_mul_le_self va PGSIZE) h

theorem MemOk.vmfault_wp {size va : ℕ} (h : MemOk vm roots own pte mem) (hr : roots i = some r)
    (hsize : size ≤ TRAPFRAME) (hout : size ≤ va → Q (.error .invalidAddress) vm)
    (hro : ∀ k, va < size → uva k = pgRoundDown va → (pte i (uva k)).isV = true →
      (pte i (uva k)).isCow = false → Q (.error .invalidAddress) vm)
    (hnone : ∀ k vm' own', va < size → uva k = pgRoundDown va →
      ((pte i (uva k)).isV = true → (pte i (uva k)).isCow = true) → MemOk vm' roots own' pte mem →
      SameOutside i own own' → Q (.error .alloc) vm')
    (hlazy : ∀ k a vm' own', va < size → uva k = pgRoundDown va → (pte i (uva k)).isV = false →
      IsPage a → MemOk vm' roots own' (setEntry pte i (uva k) (lazyPte a)) mem →
      SameOutside i own own' → Q (.ok a) vm')
    (hcow : ∀ k a vm' own', va < size → uva k = pgRoundDown va → (pte i (uva k)).isV = true →
      (pte i (uva k)).isCow = true → IsPage a →
      MemOk vm' roots own' (setEntry pte i (uva k) ((pte i (uva k)).unshared a)) mem →
      SameOutside i own own' → Q (.ok a) vm') : wp (Uvm.vmfault A r size va) Q E vm := by
  unfold Uvm.vmfault
  refine wp_ite (fun hge => wp_pure.2 (hout hge)) fun hlt => ?_
  rw [not_le] at hlt
  obtain ⟨k, hk⟩ := UserVa.roundDown (hlt.trans_le hsize)
  dsimp only
  rw [← hk]
  have hva := uva_userVa k
  have hrad := h.trees.radix hr
  have hlazy' : (pte i (uva k)).isV = false → wp (Uvm.lazyPage A r (uva k)) Q E vm := fun hinv =>
    h.lazyPage_wp hr hinv (fun vm' own' h' hk' => hnone k vm' own' hlt hk (fun hv => by
      rw [hinv] at hv; cases hv) h' hk') fun a vm' own' ha h' hk' => hlazy k a vm' own' hlt hk hinv ha h' hk'
  refine wp_bind.2 (walkRaw_find hrad (fun hbig => absurd hva.lt_MAXVA (not_lt.2 hbig)) (fun _ hno => ?_)
    fun t _ ht => ?_)
  · refine hlazy' ?_
    rw [← h.trees.entry hr _ hva.aligned hva.lt_MAXVA, hrad.entry_of_none hno]
    exact Pte.isV_zero
  · refine wp_bind.2 (wp_bind.2 (wp_get.2 (wp_pure.2 ?_)))
    rw [← hrad.entry_of_leaf ht, h.trees.entry hr _ hva.aligned hva.lt_MAXVA]
    refine wp_ite (fun hv => hlazy' (by simpa using hv)) fun hv => ?_
    rw [Bool.not_eq_true, Bool.not_eq_false'] at hv
    refine wp_ite (fun hc => wp_pure.2 (hro k hlt hk hv (by simpa using hc))) fun hc => ?_
    rw [Bool.not_eq_true, Bool.not_eq_false'] at hc
    exact h.copyPage_wp hr (labels_eq_some.1 ht) hv
      (fun vm' h' => hnone k vm' own hlt hk (fun _ => hc) h' (.refl own))
      fun a vm' own' ha h' hk' => hcow k a vm' own' hlt hk hv hc ha h' hk'

/-! ## Sharing with a child -/

/-- What `Uvm::copy` did while it went through the pages of the parent `i` below `m`. -/
structure Copied (pte pte' : ι → ℕ → Pte) (i j : ι) (m : ℕ) : Prop where
  parent : ∀ k, pte' i (uva k) = pte i (uva k) ∨ pte' i (uva k) = (pte i (uva k)).shared
  done : ∀ k, uva k < m → (pte' j (uva k)).target = (pte i (uva k)).target
  todo : ∀ k, m ≤ uva k → (pte' j (uva k)).isV = false
  rest : ∀ l va, (l ≠ i ∧ l ≠ j) ∨ ¬UserVa va → pte' l va = pte l va

theorem target_shared (e : Pte) : e.shared.target = e.target := by
  unfold Pte.target
  rw [Pte.isV_shared, Pte.asPa_shared]

omit [DecidableEq ι] [Fintype ι] in
theorem Copied.target (h : Copied pte pte' i j m) (k : Fin USERPAGES) :
    (pte' i (uva k)).target = (pte i (uva k)).target := by
  rcases h.parent k with heq | heq
  · rw [heq]
  · rw [heq, target_shared]

theorem uva_cases {l k : Fin USERPAGES} (h : uva l < uva k + PGSIZE) : uva l < uva k ∨ l = k := by
  have hnum : ∀ x y : ℕ, x * 4096 < y * 4096 + 4096 → x * 4096 < y * 4096 ∨ x = y := fun x y h => by omega
  exact (hnum l k h).imp_right Fin.ext

omit [DecidableEq ι] [Fintype ι] in
theorem Copied.skip (h : Copied pte pte' i j (uva k)) (hinv : (pte' i (uva k)).isV = false) :
    Copied pte pte' i j (uva k + PGSIZE) := by
  refine ⟨h.parent, fun l hl => ?_, fun l hl => h.todo l ((Nat.le_add_right _ _).trans hl), h.rest⟩
  rcases uva_cases hl with hlt | rfl
  · exact h.done l hlt
  · rw [Pte.target_none (h.todo l le_rfl), ← h.target l, Pte.target_none hinv]

omit [Fintype ι] in
theorem Copied.mark (h : Copied pte pte' i j m) (hij : i ≠ j) (k : Fin USERPAGES) :
    Copied pte (setEntry pte' i (uva k) (pte' i (uva k)).shared) i j m := by
  have hchild : ∀ l, setEntry pte' i (uva k) (pte' i (uva k)).shared j (uva l) = pte' j (uva l) := fun l =>
    setEntry_of_ne (.inl hij.symm)
  refine ⟨fun l => ?_, fun l hl => ?_, fun l hl => ?_, fun l va hout => ?_⟩
  · rcases eq_or_ne l k with rfl | hne
    · rw [setEntry_self]
      refine .inr ?_
      rcases h.parent l with heq | heq
      · rw [heq]
      · have hw : ¬(pte i (uva l)).shared.isW = true := by
          rw [Pte.isW_shared]
          exact Bool.false_ne_true
        rw [heq, Pte.shared, if_neg hw]
    · rw [setEntry_of_ne (.inr fun heq => hne (uva_inj heq))]
      exact h.parent l
  · rw [hchild]
    exact h.done l hl
  · rw [hchild]
    exact h.todo l hl
  · rw [setEntry_of_ne]
    · exact h.rest l va hout
    · refine hout.imp (fun hl => hl.1) fun hva => ?_
      rintro rfl
      exact hva (uva_userVa k)

omit [Fintype ι] in
theorem Copied.step (h : Copied pte pte' i j (uva k)) (hij : i ≠ j)
    (he : e.target = (pte' i (uva k)).target) :
    Copied pte (setEntry pte' j (uva k) e) i j (uva k + PGSIZE) := by
  refine ⟨fun l => ?_, fun l hl => ?_, fun l hl => ?_, fun l va hout => ?_⟩
  · rw [setEntry_of_ne (.inl hij)]
    exact h.parent l
  · rcases uva_cases hl with hlt | rfl
    · rw [setEntry_of_ne (.inr hlt.ne)]
      exact h.done l hlt
    · rw [setEntry_self, he, h.target]
  · have hne : uva l ≠ uva k := by
      have hpos : 0 < PGSIZE := by decide
      omega
    rw [setEntry_of_ne (.inr hne)]
    exact h.todo l ((Nat.le_add_right _ _).trans hl)
  · rw [setEntry_of_ne]
    · exact h.rest l va hout
    · refine hout.imp (fun hl => hl.2) fun hva => ?_
      rintro rfl
      exact hva (uva_userVa k)

omit [DecidableEq ι] [Fintype ι] in
theorem Copied.undo {pte'' : ι → ℕ → Pte} (h : Copied pte pte' i j m) (hij : i ≠ j)
    (hc : Cleared j 0 m pte' pte'') (hm : m ≤ TRAPFRAME) : Copied pte pte'' i j 0 := by
  refine ⟨fun l => ?_, fun l hl => absurd hl (Nat.not_lt_zero _), fun l _ => ?_, fun l va hout => ?_⟩
  · rw [hc.kept i _ (.inl hij)]
    exact h.parent l
  · rcases lt_or_ge (uva l) m with hlt | hge
    · exact hc.gone _ (uva_userVa l).aligned (Nat.zero_le _) hlt
    · rw [hc.kept j _ (.inr (.inr (.inl hge)))]
      exact h.todo l hge
  · rw [hc.kept l va]
    · exact h.rest l va hout
    · refine hout.imp (fun hl => hl.2) fun hva => ?_
      by_contra hno
      rw [not_or, not_or, not_not] at hno
      exact hva ⟨hno.2.2, (not_le.1 hno.2.1).trans_le hm⟩

/-- The entry of a child for a page that it shares. -/
def Pte.childs (e : Pte) : Pte := paToPte e.asPa ||| (e.flags ||| PTE_V)

theorem target_childs (ha : IsPage e.asPa) : e.childs.target = some e.asPa := by
  refine target_install ha (toNat_or_lt (toNat_flags e) (by decide)) ?_
  rw [Pte.isV_eq, BitVec.getLsbD_or]
  exact Bool.or_true _

theorem isR_childs (e : Pte) : e.childs.isR = e.isR := by
  rw [Pte.childs, isR_install, isR_or, Pte.isR_eq, getLsbD_flags e (by decide), ← Pte.isR_eq]
  exact Bool.or_false _

theorem isW_childs (e : Pte) : e.childs.isW = e.isW := by
  rw [Pte.childs, isW_install, Pte.isW_eq, BitVec.getLsbD_or, getLsbD_flags e (by decide), ← Pte.isW_eq]
  exact Bool.or_false _

/-- The memory after the count of a page is increased. -/
def Vm.retain (s : Vm) (a : ℕ) : Vm :=
  { s with refs := upd s.refs (pageIndex a) (s.refs (pageIndex a) + 1) }

/-- `PageTable::map_pages` for a page that the child shares; its count is increased next. -/
theorem MemOk.mapShared_wp {rj : ℕ} {Q : Except VmError PUnit → Vm → Prop}
    (h : MemOk vm roots own pte mem) (hcard : Fintype.card ι < 256) (hrj : roots j = some rj)
    (hv : (pte i (uva k)).isV = true) (hro : (pte i (uva k)).isW = false)
    (hcopy : ∀ l b, mapping pte (j, l) = some b → mapping pte (i, l) = some b)
    (hinv : (pte j (uva k)).isV = false)
    (hnone : ∀ vm' own', MemOk vm' roots own' pte mem → SameOutside j own own' →
      Q (.error .alloc) vm')
    (hok : ∀ vm' own',
      MemOk (vm'.retain (pte i (uva k)).asPa) roots own'
        (setEntry pte j (uva k) (pte i (uva k)).childs) (setBytes mem j (uva k) PGSIZE fun off =>
            mem i (uva k + off)) → SameOutside j own own' → Q (.ok ⟨⟩) vm') :
    wp (PageTable.mapPages A rj (uva k) (pte i (uva k)).asPa PGSIZE (pte i (uva k)).flags) Q E
      vm := by
  have hva := uva_userVa k
  have hm : (pte i (uva k)).target = some (pte i (uva k)).asPa := Pte.target_eq_some.2 ⟨hv, rfl⟩
  refine mapPages_wp (h.trees.radix hrj) hva.aligned hva.fits (fun _ hv => ?_)
    (fun hbig => absurd hva.lt_MAXVA (not_lt.2 hbig)) (fun vm' lab _ hg => ?_) fun vm' lab _ _ he hs => ?_
  · rw [h.trees.entry hrj _ hva.aligned hva.lt_MAXVA, hinv] at hv
    cases hv
  · obtain ⟨hl, hok'⟩ := h.grow hrj hg
    exact hnone vm' _ hok' hl.sameOutside
  · rw [BitVec.or_assoc] at he
    refine hok vm' _ (h.share hcard hrj hm hro hcopy hinv he hs (target_childs (h.userPage (h.users.owner hm)))
      ?_ ?_) (he.relabels h.pages).sameOutside
    · exact (isR_childs _).trans (h.users.leaf hv).1
    · exact (isW_childs _).trans hro

theorem MemOk.copyLoop_wp {ri rj n : ℕ} {Q : Except VmError PUnit → Vm → Prop}
    {own0 : ℕ → Option (Owner ι)} {pte0 : ι → ℕ → Pte} {mem0 : ι → Bytes}
    (hcard : Fintype.card ι < 256) (hri : roots i = some ri) (hrj : roots j = some rj)
    (hij : i ≠ j) (hzero : ∀ v, v < TRAPFRAME → mem0 j v = 0)
    (herr : ∀ e vm' own' pte', MemOk vm' roots own' pte' mem0 → SameOutside j own0 own' →
      Copied pte0 pte' i j 0 → Q (.error e) vm')
    (hok : ∀ vm' own' pte' m, m = n * PGSIZE →
      MemOk vm' roots own' pte' (setBytes mem0 j 0 m (mem0 i)) → SameOutside j own0 own' →
      Copied pte0 pte' i j m → Q (.ok ⟨⟩) vm') :
    ∀ n' m vm own pte, m + n' = n → n * PGSIZE ≤ TRAPFRAME →
    MemOk vm roots own pte (setBytes mem0 j 0 (m * PGSIZE) (mem0 i)) → SameOutside j own0 own →
    Copied pte0 pte i j (m * PGSIZE) → wp (Uvm.copyLoop A ri rj n' (m * PGSIZE)) Q E vm := by
  intro n'
  induction n' with
  | zero =>
    rintro m vm own pte rfl htop h hk hc
    exact wp_pure.2 (hok vm own pte _ rfl h hk hc)
  | succ n' ih =>
    rintro m vm own pte hn htop h hk hc
    have hlt : m * PGSIZE < TRAPFRAME :=
      lt_of_lt_of_le (Nat.mul_lt_mul_of_pos_right (show m < n by omega) (by decide)) htop
    obtain ⟨k, hmk⟩ := (UserVa.mk (Nat.mul_mod_left m PGSIZE) hlt).exists_uva
    have hnext : m * PGSIZE + PGSIZE = (m + 1) * PGSIZE := (Nat.succ_mul m PGSIZE).symm
    have hva := uva_userVa k
    have hrad := h.trees.radix hri
    have hentry := h.trees.entry hri _ hva.aligned hva.lt_MAXVA
    have hskip : (pte i (uva k)).isV = false → wp (Uvm.copyLoop A ri rj n' (m * PGSIZE + PGSIZE)) Q E vm := by
      intro hinv
      rw [hnext]
      refine ih (m + 1) vm own pte (by omega) htop ?_ hk ?_
      · rw [← hnext, ← setBytes_extend, zero_add, setBytes_eq_self]
        · exact h
        · intro off hoff
          have hi := h.views i k off hoff
          rw [setBytes_of_ne hij, hinv, if_neg Bool.false_ne_true, hmk] at hi
          have hj := h.views j k off hoff
          rw [hc.todo k hmk.ge, if_neg Bool.false_ne_true, hmk] at hj
          exact hi.trans hj.symm
      · rw [← hnext, ← hmk]
        rw [← hmk] at hc
        exact hc.skip hinv
    rw [Uvm.copyLoop]
    refine wp_bind.2 (walkRaw_find hrad (fun hbig => absurd (hmk ▸ hva.lt_MAXVA) (not_lt.2 hbig))
      (fun _ hno => hskip ?_) fun t _ ht => ?_)
    · rw [← hentry, hmk, hrad.entry_of_none hno]
      exact Pte.isV_zero
    rw [← hmk] at ht hskip ⊢
    refine wp_bind.2 (wp_bind.2 (wp_get.2 (wp_pure.2 ?_)))
    rw [← hrad.entry_of_leaf ht, hentry]
    refine wp_ite (fun hv => hskip (by simpa using hv)) fun hv => ?_
    rw [Bool.not_eq_true, Bool.not_eq_false'] at hv
    refine wp_bind.2 (markCow_wp ?_)
    rw [← hrad.entry_of_leaf ht, hentry]
    -- the parent's page becomes read-only
    have h1 := h.reflag hri (labels_eq_some.1 ht) (target_shared _) (fun hr => (Pte.isR_shared _).trans hr)
      fun hw => absurd hw (by rw [Pte.isW_shared]; exact Bool.false_ne_true)
    have hc1 := hc.mark hij k
    have hself := setEntry_self pte i (uva k) (pte i (uva k)).shared
    generalize vm.write t (px 0 (uva k)) (pte i (uva k)).shared = vm1 at h1 ⊢
    generalize hpte1 : setEntry pte i (uva k) (pte i (uva k)).shared = pte1 at h1 hc1 hself
    have hv1 : (pte1 i (uva k)).isV = true := by rw [hself, Pte.isV_shared, hv]
    have hro1 : (pte1 i (uva k)).isW = false := by rw [hself, Pte.isW_shared]
    have hcopy : ∀ l b, mapping pte1 (j, l) = some b → mapping pte1 (i, l) = some b := by
      intro l b hb
      unfold mapping at hb ⊢
      rcases lt_or_ge (uva l) (m * PGSIZE) with hlt' | hge
      · rw [hc1.target, ← hc1.done l hlt']
        exact hb
      · rw [Pte.target_none (hc1.todo l hge)] at hb
        cases hb
    rw [← hself]
    refine wp_bind.2 (h1.mapShared_wp hcard hrj hv1 hro1 hcopy (hc1.todo k hmk.ge)
      (fun vm' own' h' hk' => ?_) fun vm' own' h' hk' => ?_)
    · have hm : uva k / PGSIZE = m := by rw [hmk, Nat.mul_div_cancel m (by decide)]
      rw [hm]
      refine wp_bind.2 (h'.unmap_wp hrj (by decide) ?_ fun vm'' own'' pte'' h'' hk'' hc'' => wp_pure.2 ?_)
      · rw [zero_add]
        exact hlt.le
      · rw [setBytes_idem, setBytes_eq_self fun off hoff => ?_] at h''
        · rw [zero_add] at hc''
          exact herr _ vm'' own'' pte'' h'' ((hk.trans hk').trans hk'') (hc1.undo hij hc'' hlt.le)
        · rw [zero_add]
          exact (hzero off (hoff.trans hlt)).symm
    · refine wp_bind.2 (wp_bind.2 (pageRef_wp (h1.userPage (h1.users.leaf hv1).2) (wp_modify.2 ?_)))
      rw [hmk, hnext]
      refine ih (m + 1) _ own' (setEntry pte1 j (uva k) (pte1 i (uva k)).childs) (by omega) htop ?_ (hk.trans hk') ?_
      · rw [← hnext, ← setBytes_extend, zero_add, ← hmk]
        rw [setBytes_of_ne hij, ← hmk] at h'
        exact h'
      · rw [← hnext]
        rw [← hmk] at hc1 ⊢
        refine hc1.step hij ?_
        rw [target_childs (h1.userPage (h1.users.leaf hv1).2)]
        exact (Pte.target_eq_some.2 ⟨hv1, rfl⟩).symm

end Octopos
