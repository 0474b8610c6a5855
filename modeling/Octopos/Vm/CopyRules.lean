import Octopos.Vm.FaultRules

/-!
# Rules for accesses to user memory

User programs and the kernel reach user memory page by page, and `Uvm::vmfault` resolves what is not
there. `Resolved` says what may become of the entry of a page on the way, and `Copies` describes a
whole run of `Uvm::copy_to` or `Uvm::copy_from` by the entries it went through.
-/

namespace Octopos

/-! ## What a page fault makes of an entry -/

/-- What `vmfault` makes of an entry. -/
inductive Fixed (e : Pte) : Pte → Prop
  | lazy {a : ℕ} (ha : IsPage a) (hv : e.isV = false) : Fixed e (lazyPte a)
  | copied {a : ℕ} (ha : IsPage a) (hv : e.isV = true) (hc : e.isCow = true) : Fixed e (e.unshared a)

theorem getLsbD_unshared (e : Pte) (a : ℕ) {n : ℕ} (hn : n < 10) :
    (e.unshared a).getLsbD n = (e.getLsbD n && !PTE_COW.getLsbD n || PTE_W.getLsbD n) := by
  rw [Pte.unshared, getLsbD_install _ _ hn, BitVec.getLsbD_or, BitVec.getLsbD_and, getLsbD_flags e hn,
    BitVec.getLsbD_not]
  simp [show n < 64 by omega]

theorem isW_unshared (e : Pte) (a : ℕ) : (e.unshared a).isW = true := by
  rw [Pte.isW_eq, getLsbD_unshared e a (by decide)]
  exact Bool.or_true _

theorem isU_unshared (e : Pte) (a : ℕ) : (e.unshared a).isU = e.isU := by
  rw [Pte.isU_eq, getLsbD_unshared e a (by decide), Pte.isU_eq]
  rw [show PTE_COW.getLsbD 4 = false by decide, show PTE_W.getLsbD 4 = false by decide, Bool.not_false,
    Bool.and_true, Bool.or_false]

theorem isCow_unshared (e : Pte) (a : ℕ) : (e.unshared a).isCow = false := by
  rw [Pte.isCow_eq, getLsbD_unshared e a (by decide)]
  rw [show PTE_COW.getLsbD 8 = true by decide, show PTE_W.getLsbD 8 = false by decide, Bool.not_true,
    Bool.and_false, Bool.or_false]

theorem isW_lazy (a : ℕ) : (lazyPte a).isW = true := by
  rw [lazyPte, isW_install]
  decide

theorem isU_lazy (a : ℕ) : (lazyPte a).isU = true := by
  rw [lazyPte, isU_install]
  decide

theorem isCow_lazy (a : ℕ) : (lazyPte a).isCow = false := by
  rw [lazyPte, isCow_install]
  decide

namespace Fixed

variable {e e' : Pte} (h : Fixed e e')
include h

theorem target : ∃ a, e'.target = some a := by
  cases h with
  | lazy ha _ => exact ⟨_, target_lazy ha⟩
  | copied ha hv _ => exact ⟨_, target_unshared ha hv⟩

theorem isV : e'.isV = true := (Pte.target_eq_some.1 h.target.choose_spec).1

theorem isW : e'.isW = true := by
  cases h with
  | lazy _ _ => exact isW_lazy _
  | copied _ _ _ => exact isW_unshared e _

theorem isCow : e'.isCow = false := by
  cases h with
  | lazy _ _ => exact isCow_lazy _
  | copied _ _ _ => exact isCow_unshared e _

theorem isU (hu : e.isV = true → e.isU = true) : e'.isU = true := by
  cases h with
  | lazy _ _ => exact isU_lazy _
  | copied _ hv _ => exact (isU_unshared e _).trans (hu hv)

end Fixed

/-- The entry through which a page is reached: it is there for the user, or `vmfault` put it
there. -/
inductive Resolved (sz : ℕ) (k : Fin USERPAGES) (e : Pte) : Pte → Prop
  | direct (hv : e.isV = true) (hu : e.isU = true) : Resolved sz k e e
  | fixed {e' : Pte} (hlt : uva k < sz) (hno : (e.isV && e.isU) = false) (h : Fixed e e') : Resolved sz k e e'

/-- Why a copy between the kernel and user memory stops at an address. -/
inductive Stops (write : Bool) (pte : ℕ → Pte) (sz va : ℕ) : VmError → Prop
  | alloc (hno : ∀ k, uva k = va / PGSIZE * PGSIZE → ((pte (uva k)).isV && (pte (uva k)).isU) = false) :
      Stops write pte sz va .alloc
  | outside (h : TRAPFRAME ≤ va) : Stops write pte sz va .invalidAddress
  | beyond {k : Fin USERPAGES} (hk : uva k = va / PGSIZE * PGSIZE) (hsz : sz ≤ uva k)
      (hno : ((pte (uva k)).isV && (pte (uva k)).isU) = false) : Stops write pte sz va .invalidAddress
  | guarded {k : Fin USERPAGES} (hk : uva k = va / PGSIZE * PGSIZE) (hv : (pte (uva k)).isV = true)
      (hu : (pte (uva k)).isU = false) (hc : (pte (uva k)).isCow = false) :
      Stops write pte sz va .invalidAddress
  | readOnly {k : Fin USERPAGES} (hk : uva k = va / PGSIZE * PGSIZE) (hwrite : write = true)
      (hv : (pte (uva k)).isV = true) (hu : (pte (uva k)).isU = true)
      (hw : (pte (uva k)).isW = false) : Stops write pte sz va .invalidPte

theorem Stops.of_page {write : Bool} {pte : ℕ → Pte} {sz va : ℕ} {e : VmError}
    (h : Stops false pte sz (va / PGSIZE * PGSIZE) e) : Stops write pte sz va e := by
  have hbase : va / PGSIZE * PGSIZE / PGSIZE * PGSIZE = va / PGSIZE * PGSIZE := by
    rw [Nat.mul_div_cancel _ (by decide)]
  cases h with
  | alloc hno => exact .alloc fun k hk => hno k (hk.trans hbase.symm)
  | outside h => exact .outside (h.trans (Nat.div_mul_le_self va PGSIZE))
  | beyond hk hsz hno => exact .beyond (hk.trans hbase) hsz hno
  | guarded hk hv hu hc => exact .guarded (hk.trans hbase) hv hu hc
  | readOnly _ hwrite _ _ _ => cases hwrite

/-- The pages above user memory are not for the user. -/
def HighOk (pte : ℕ → Pte) : Prop :=
  ∀ va, va % PGSIZE = 0 → TRAPFRAME ≤ va → va < MAXVA → (pte va).isU = false

section Rules

variable {ι : Type} [DecidableEq ι] [Fintype ι] {A : Allocator} {vm : Vm} {roots : ι → Option ℕ}
  {own : ℕ → Option (Owner ι)} {pte : ι → ℕ → Pte} {mem : ι → Bytes} {i j : ι} {r sz va : ℕ}
  {E : VmPanic → Prop} {len n : ℕ} {k : Fin USERPAGES} {write : Bool} {pte' : ι → ℕ → Pte}
variable {Q : Except VmError ℕ → Vm → Prop} {res : Except VmError PUnit} {t : List Pte} {fuel : ℕ}

theorem MemOk.fault_wp (h : MemOk vm roots own pte mem) (hr : roots i = some r)
    (hsize : sz ≤ TRAPFRAME) (hva : va < 2 ^ 64) (hout : sz ≤ va → Q (.error .invalidAddress) vm)
    (hro : ∀ k, va < sz → uva k = va / PGSIZE * PGSIZE → (pte i (uva k)).isV = true →
      (pte i (uva k)).isCow = false → Q (.error .invalidAddress) vm)
    (hnone : ∀ vm' own', MemOk vm' roots own' pte mem → SameOutside i own own' →
      Q (.error .alloc) vm')
    (hok : ∀ k a e vm' own', va < sz → uva k = va / PGSIZE * PGSIZE → Fixed (pte i (uva k)) e →
      e.target = some a → MemOk vm' roots own' (setEntry pte i (uva k) e) mem →
      SameOutside i own own' → Q (.ok a) vm') : wp (Uvm.vmfault A r sz va) Q E vm := by
  have hround := pgRoundDown_eq hva
  refine h.vmfault_wp hr hsize hout (fun k hlt hk => hro k hlt (hk.trans hround))
    (fun _ vm' own' _ _ _ => hnone vm' own') (fun k a vm' own' hlt hk hv ha => ?_)
    fun k a vm' own' hlt hk hv hc ha => ?_
  · exact hok k a _ vm' own' hlt (hk.trans hround) (.lazy ha hv) (target_lazy ha)
  · exact hok k a _ vm' own' hlt (hk.trans hround) (.copied ha hv hc) (target_unshared ha hv)

theorem MemOk.walkAddr_wp (h : MemOk vm roots own pte mem) (hr : roots i = some r)
    (ha : va % PGSIZE = 0)
    (hno : ∀ e, (va < MAXVA → ((pte i va).isV && (pte i va).isU) = false) → Q (.error e) vm)
    (hok : va < MAXVA → (pte i va).isV = true → (pte i va).isU = true →
      Q (.ok (pte i va).asPa) vm) : wp (PageTable.walkAddr A r va) Q E vm := by
  have hentry := h.trees.entry hr va ha
  unfold PageTable.walkAddr
  refine wp_ite (fun hbig => wp_pure.2 (hno _ fun hlt => absurd hlt (not_lt.2 hbig.le))) fun _ => ?_
  refine wp_bind.2 (walk_wp (h.trees.radix hr) (fun hbig => wp_pure.2 (hno _ fun hlt => ?_))
    (fun hlt hz => wp_pure.2 (hno _ fun _ => ?_)) fun hlt => ?_)
  · exact absurd hlt (not_lt.2 hbig)
  · rw [← hentry hlt, hz]
    rfl
  · rw [hentry hlt]
    refine wp_ite (fun hn => wp_pure.2 (hno _ fun _ => ?_)) fun hy => wp_pure.2 (hok hlt ?_ ?_)
    · revert hn
      cases (pte i va).isV <;> cases (pte i va).isU <;> decide
    · revert hy
      cases (pte i va).isV <;> cases (pte i va).isU <;> decide
    · revert hy
      cases (pte i va).isV <;> cases (pte i va).isU <;> decide

omit [Fintype ι] in
theorem setEntry_eq_self (pte : ι → ℕ → Pte) (i : ι) (va : ℕ) :
    setEntry pte i va (pte i va) = pte := by
  unfold setEntry
  rw [upd_eq_self, upd_eq_self]

theorem MemOk.userPage_wp (h : MemOk vm roots own pte mem) (hr : roots i = some r)
    (hsize : sz ≤ TRAPFRAME) (hva : va < 2 ^ 64) (ha : va % PGSIZE = 0) (hhigh : HighOk (pte i))
    (hstop : ∀ e vm' own', MemOk vm' roots own' pte mem → SameOutside i own own' →
      Stops false (pte i) sz va e → Q (.error e) vm')
    (hok : ∀ k a e vm' own', uva k = va → Resolved sz k (pte i (uva k)) e → e.target = some a →
      MemOk vm' roots own' (setEntry pte i (uva k) e) mem → SameOutside i own own' →
      Q (.ok a) vm') : wp (Uvm.userPage A r sz va) Q E vm := by
  have hbase : va / PGSIZE * PGSIZE = va := Nat.div_mul_cancel (Nat.dvd_of_mod_eq_zero ha)
  refine wp_bind.2 (h.walkAddr_wp hr ha (fun e hno => ?_) fun hlt hv hu => wp_pure.2 ?_)
  · -- not there for the user
    have hno' : ∀ {k}, uva k = va → ((pte i (uva k)).isV && (pte i (uva k)).isU) = false := by
      rintro k rfl
      exact hno (uva_userVa k).lt_MAXVA
    refine h.fault_wp hr hsize hva (fun hge => ?_) (fun k hlt hk hv hc => ?_)
      (fun vm' own' h' hk' => hstop _ vm' own' h' hk' (.alloc fun k hk => hno' (hk.trans hbase)))
      fun k a e vm' own' hlt hk hf ht h' hk' => ?_
    · refine hstop _ vm own h (.refl own) ?_
      rcases lt_or_ge va TRAPFRAME with hu | hu
      · obtain ⟨k, hk⟩ := (UserVa.mk ha hu).exists_uva
        exact .beyond (hk.trans hbase.symm) (hk ▸ hge) (hno' hk)
      · exact .outside hu
    · refine hstop _ vm own h (.refl own) (.guarded hk hv ?_ hc)
      have := hno' (hk.trans hbase)
      rwa [hv, Bool.true_and] at this
    · have hk1 := hk.trans hbase
      exact hok k a e vm' own' hk1 (.fixed (hk1 ▸ hlt) (hno' hk1) hf) ht h' hk'
  · rcases lt_or_ge va TRAPFRAME with hlow | hge
    · obtain ⟨k, rfl⟩ := (UserVa.mk ha hlow).exists_uva
      refine hok k _ _ vm own rfl (.direct hv hu) (Pte.target_eq_some.2 ⟨hv, rfl⟩) ?_ (.refl own)
      rw [setEntry_eq_self]
      exact h
    · rw [hhigh va ha hge hlt] at hu
      cases hu

/-! ## Copies by the kernel -/

/-- The number of bytes that an iteration of a copy handles. -/
def pagePart (va len : ℕ) : ℕ := min (PGSIZE - (va - va / PGSIZE * PGSIZE)) len

/-- A run of `Uvm::copy_to` or `Uvm::copy_from` over `len` bytes at `va`: its result, how many bytes
it copied, the entries it copied them through, and the entries of the page tables after it. -/
inductive Copies (write : Bool) (i : ι) (sz : ℕ) :
    (ι → ℕ → Pte) → ℕ → ℕ → Except VmError PUnit → ℕ → List Pte → (ι → ℕ → Pte) → Prop
  | done {pte : ι → ℕ → Pte} {va : ℕ} : Copies write i sz pte va 0 (.ok ⟨⟩) 0 [] pte
  | stop {pte : ι → ℕ → Pte} {va len : ℕ} {e : VmError} (hlen : 0 < len) (h : Stops write (pte i) sz va e) :
      Copies write i sz pte va len (.error e) 0 [] pte
  | page {pte pte' : ι → ℕ → Pte} {va len n : ℕ} {k : Fin USERPAGES} {e : Pte}
      {res : Except VmError PUnit} {t : List Pte} (hlen : 0 < len) (hk : uva k = va / PGSIZE * PGSIZE)
      (he : Resolved sz k (pte i (uva k)) e) (hw : write = true → e.isW = true)
      (hrest : Copies write i sz (setEntry pte i (uva k) e) (uva k + PGSIZE) (len - pagePart va len) res n t
        pte') :
      Copies write i sz pte va len res (pagePart va len + n) (e :: t) pte'

theorem pagePart_pos (va : ℕ) (h : 0 < len) : 0 < pagePart va len := by
  have hpg : PGSIZE = 4096 := rfl
  unfold pagePart
  rw [hpg]
  omega

theorem pagePart_le (va len : ℕ) : pagePart va len ≤ len := Nat.min_le_right _ _

/-- Either the copy ends in this page, or the next iteration starts at the next one. -/
theorem pagePart_cases (va len : ℕ) :
    pagePart va len = len ∧ va + len ≤ va / PGSIZE * PGSIZE + PGSIZE ∨
    va + pagePart va len = va / PGSIZE * PGSIZE + PGSIZE := by
  have hpg : PGSIZE = 4096 := rfl
  unfold pagePart
  rw [hpg]
  omega

theorem pagePart_fits (va len : ℕ) : va % PGSIZE + pagePart va len ≤ PGSIZE := by
  have hpg : PGSIZE = 4096 := rfl
  unfold pagePart
  rw [hpg]
  omega

theorem sub_page (va : ℕ) : va - va / PGSIZE * PGSIZE = va % PGSIZE := by
  have hpg : PGSIZE = 4096 := rfl
  rw [hpg]
  omega

omit [Fintype ι] in
theorem HighOk.setEntry {e : Pte} (h : HighOk (pte i)) : HighOk (setEntry pte i (uva k) e i) := by
  intro va ha hge hlt
  rw [setEntry_of_ne (.inr ((uva_userVa k).top.trans_le hge).ne')]
  exact h va ha hge hlt

omit [Fintype ι] in
theorem Copies.of_zero (h : Copies write i sz pte va 0 res n t pte') : n = 0 := by
  cases h with
  | done => rfl
  | stop hlen _ => exact absurd hlen (lt_irrefl 0)
  | page hlen _ _ _ _ => exact absurd hlen (lt_irrefl 0)

omit [Fintype ι] in
/-- The bytes of the first page and of the rest, in either case of `pagePart_cases`. -/
theorem setBytes_page {src : Bytes} (hn : pagePart va len = len → n = 0) :
    setBytes (setBytes mem i va (pagePart va len) src) i (va / PGSIZE * PGSIZE + PGSIZE) n (fun x =>
          src (pagePart va len + x)) = setBytes mem i va (pagePart va len + n) src := by
  rcases pagePart_cases va len with ⟨hall, -⟩ | hnext
  · rw [hn hall, add_zero, setBytes_none]
  · rw [← hnext, setBytes_extend]

theorem MemOk.walk_wp {Q : Except VmError Pte → Vm → Prop} (h : MemOk vm roots own pte mem)
    (hr : roots i = some r) (hv : (pte i (uva k)).isV = true) (hok : Q (.ok (pte i (uva k))) vm) :
    wp (PageTable.walk A r (uva k)) Q E vm := by
  have hva := uva_userVa k
  have hentry := h.trees.entry hr _ hva.aligned hva.lt_MAXVA
  refine Octopos.walk_wp (h.trees.radix hr) (fun hbig => absurd hva.lt_MAXVA (not_lt.2 hbig))
    (fun _ hz => ?_) fun _ => ?_
  · rw [← hentry, hz, Pte.isV_zero] at hv
    cases hv
  · rw [hentry]
    exact hok

theorem Resolved.isV {e e' : Pte} (h : Resolved sz k e e') : e'.isV = true := by
  cases h with
  | direct hv _ => exact hv
  | fixed _ _ hf => exact hf.isV

theorem getD_drop (src : List UInt8) (m x : ℕ) : (src.drop m).getD x 0 = src.getD (m + x) 0 := by
  rw [List.getD_eq_getElem?_getD, List.getD_eq_getElem?_getD, List.getElem?_drop]

theorem MemOk.copyTo_wp {src : List UInt8} {Q : Except VmError PUnit × List Pte → Vm → Prop}
    (hr : roots i = some r) (hsize : sz ≤ TRAPFRAME) (hfuel : src.length ≤ fuel)
    (h : MemOk vm roots own pte mem) (hva : va < 2 ^ 64) (hhigh : HighOk (pte i))
    (hQ : ∀ res t n vm' own' pte',
      MemOk vm' roots own' pte' (setBytes mem i va n fun x => src.getD x 0) →
      SameOutside i own own' → Copies true i sz pte va src.length res n t pte' → Q (res, t) vm') :
    wp (Uvm.copyToLoop A r sz fuel src va) Q E vm := by
  induction fuel generalizing src va vm own pte mem Q with
  | zero =>
    obtain rfl := List.length_eq_zero_iff.1 (Nat.le_zero.1 hfuel)
    refine wp_pure.2 (hQ _ _ 0 vm own pte ?_ (.refl own) .done)
    rw [setBytes_none]
    exact h
  | succ fuel ih =>
    cases src with
    | nil =>
      refine wp_pure.2 (hQ _ _ 0 vm own pte ?_ (.refl own) .done)
      rw [setBytes_none]
      exact h
    | cons b src =>
      rw [Uvm.copyToLoop]
      · have hlen : 0 < (b :: src).length := Nat.succ_pos _
        generalize b :: src = src at *
        have hstop : ∀ {e vm' own'}, MemOk vm' roots own' pte mem → SameOutside i own own' →
            Stops true (pte i) sz va e → Q (.error e, []) vm' := by
          intro e vm' own' h' hk' hs
          refine hQ _ _ 0 vm' own' pte ?_ hk' (.stop hlen hs)
          rw [setBytes_none]
          exact h'
        dsimp only
        rw [pgRoundDown_eq hva]
        refine wp_ite (fun hbig => wp_pure.2 (hstop h (.refl own) (.outside ?_))) fun _ => ?_
        · have hmax : TRAPFRAME ≤ MAXVA := by decide
          exact (hmax.trans hbig.le).trans (Nat.div_mul_le_self va PGSIZE)
        refine wp_bind.2 (h.userPage_wp hr hsize (lt_of_le_of_lt (Nat.div_mul_le_self va PGSIZE) hva)
          (Nat.mul_mod_left _ _) hhigh (fun e vm' own' h' hk' hs => wp_pure.2 (hstop h' hk' hs.of_page))
          fun k a e vm1 own1 hk he ht h1 hk1 => ?_)
        have hself := setEntry_self pte i (uva k) e
        have hv1 : (setEntry pte i (uva k) e i (uva k)).isV = true := by rw [hself, he.isV]
        dsimp only
        rw [← hk]
        refine wp_bind.2 (h1.walk_wp hr hv1 ?_)
        rw [hself]
        refine wp_ite (fun hro => wp_pure.2 ?_) fun hw => ?_
        · rw [Bool.not_eq_true'] at hro
          cases he with
          | direct hv hu =>
            rw [setEntry_eq_self] at h1
            exact hstop h1 hk1 (.readOnly hk rfl hv hu hro)
          | fixed _ _ hf =>
            rw [hf.isW] at hro
            cases hro
        rw [Bool.not_eq_true', Bool.not_eq_false] at hw
        have hle : uva k ≤ va := hk ▸ Nat.div_mul_le_self va PGSIZE
        have hm : (setEntry pte i (uva k) e i (uva k)).target = some a := by rw [hself, ht]
        have hone := h1.users.excl hv1 (by rw [hself, hw])
        rw [(Pte.target_eq_some.1 hm).2] at hone
        have hfit : va - uva k + pagePart va src.length ≤ PGSIZE := by
          rw [hk, sub_page]
          exact pagePart_fits va src.length
        have h2 : MemOk (vm1.poke a (va - uva k) (pagePart va src.length) fun x => src.getD x 0) roots own1
            (setEntry pte i (uva k) e) _ := h1.poke hm hone hfit
        rw [Nat.add_sub_cancel' hle] at h2
        have hpart : min (PGSIZE - (va - uva k)) src.length = pagePart va src.length := by rw [hk, pagePart]
        rw [hpart]
        refine wp_bind.2 (wp_modify.2 (wp_bind.2 (usizeAdd_wp (uva_userVa k).fits (wp_bind.2 ?_))))
        have hdrop : (src.drop (pagePart va src.length)).length = src.length - pagePart va src.length :=
          List.length_drop
        have hpos := pagePart_pos va hlen
        refine ih (by omega) h2 (uva_userVa k).fits hhigh.setEntry fun res t n vm' own' pte' h' hk' hc =>
          wp_pure.2 (hQ res (e :: t) (pagePart va src.length + n) vm' own' pte' ?_ (hk1.trans hk') ?_)
        · rw [hdrop] at hc
          have hn : pagePart va src.length = src.length → n = 0 := by
            intro hall
            rw [hall, Nat.sub_self] at hc
            exact hc.of_zero
          rw [← setBytes_page hn, ← hk]
          simp only [getD_drop] at h'
          exact h'
        · rw [hdrop] at hc
          exact .page hlen hk he (fun _ => hw) hc
      · simp

theorem map_range_page {b : Bytes} (hn : pagePart va len = len → n = 0) :
    (List.range (pagePart va len)).map (fun x => b (va + x)) ++
      (List.range n).map (fun x => b (va / PGSIZE * PGSIZE + PGSIZE + x)) =
      (List.range (pagePart va len + n)).map fun x => b (va + x) := by
  rcases pagePart_cases va len with ⟨hall, -⟩ | hnext
  · rw [hn hall, add_zero, List.range_zero, List.map_nil, List.append_nil]
  · rw [← hnext, List.range_add, List.map_append, List.map_map]
    refine congrArg _ (List.map_congr_left fun x _ => ?_)
    rw [Function.comp_apply, add_assoc]

theorem MemOk.copyFrom_wp {Q : Uvm.CopyFrom → Vm → Prop} (hr : roots i = some r)
    (hsize : sz ≤ TRAPFRAME) (hfuel : len ≤ fuel) (h : MemOk vm roots own pte mem)
    (hva : va < 2 ^ 64) (hhigh : HighOk (pte i))
    (hQ : ∀ res t n vm' own' pte', MemOk vm' roots own' pte' mem → SameOutside i own own' →
      Copies false i sz pte va len res n t pte' →
      Q ⟨res, (List.range n).map fun x => mem i (va + x), t⟩ vm') :
    wp (Uvm.copyFromLoop A r sz fuel len va) Q E vm := by
  induction fuel generalizing len va vm own pte Q with
  | zero =>
    obtain rfl := Nat.le_zero.1 hfuel
    exact wp_pure.2 (hQ _ _ 0 vm own pte h (.refl own) .done)
  | succ fuel ih =>
    cases len with
    | zero => exact wp_pure.2 (hQ _ _ 0 vm own pte h (.refl own) .done)
    | succ len =>
      rw [Uvm.copyFromLoop]
      · have hlen : 0 < len + 1 := Nat.succ_pos _
        generalize len + 1 = len at *
        dsimp only
        rw [pgRoundDown_eq hva]
        refine wp_bind.2 (h.userPage_wp hr hsize (lt_of_le_of_lt (Nat.div_mul_le_self va PGSIZE) hva)
          (Nat.mul_mod_left _ _) hhigh (fun e vm' own' h' hk' hs => wp_pure.2 ?_)
          fun k a e vm1 own1 hk he ht h1 hk1 => ?_)
        · exact hQ _ _ 0 vm' own' pte h' hk' (.stop hlen hs.of_page)
        have hself := setEntry_self pte i (uva k) e
        have hbytes : ∀ x < pagePart va len, vm1.data a (va - va / PGSIZE * PGSIZE + x) = mem i (va + x) := by
          intro x hx
          have hfit := pagePart_fits va len
          rw [sub_page]
          have hview := h1.views i k (va % PGSIZE + x) (by omega)
          rw [hself, he.isV, if_pos rfl, (Pte.target_eq_some.1 ht).2] at hview
          rw [← hview, hk, ← add_assoc, Nat.div_add_mod']
        have hentry : vm1.entry r (uva k) = e :=
          (h1.trees.entry hr _ (uva_userVa k).aligned (uva_userVa k).lt_MAXVA).trans hself
        have hpos := pagePart_pos va hlen
        refine wp_bind.2 (wp_get.2 (wp_bind.2 ?_))
        rw [← hk] at hbytes ⊢
        refine usizeAdd_wp (uva_userVa k).fits (wp_bind.2 ?_)
        have hpart : min (PGSIZE - (va - uva k)) len = pagePart va len := by rw [hk, pagePart]
        rw [hpart, hentry, List.map_congr_left fun x hx => hbytes x (List.mem_range.1 hx)]
        refine ih (by omega) h1 (uva_userVa k).fits hhigh.setEntry fun res t n vm' own' pte' h' hk' hc => wp_pure.2 ?_
        have hn : pagePart va len = len → n = 0 := by
          intro hall
          rw [hall, Nat.sub_self] at hc
          exact hc.of_zero
        have hQ' := hQ res (e :: t) (pagePart va len + n) vm' own' pte' h' (hk1.trans hk')
          (.page hlen hk he (fun hf => by cases hf) hc)
        rw [← map_range_page hn, ← hk] at hQ'
        exact hQ'
      · simp

/-! ## Accesses by user programs -/

/-- The hardware lets a user program through. -/
def Pte.allows (e : Pte) (write : Bool) : Bool := e.isV && e.isU && (if write then e.isW else e.isR)

/-- A user program can access an address, at once or after a page fault, if there is memory. -/
def Accessible (write : Bool) (pte : ℕ → Pte) (sz va : ℕ) : Prop :=
  ∃ k, uva k = va / PGSIZE * PGSIZE ∧ ((pte (uva k)).allows write = true ∨
    va < sz ∧ ((pte (uva k)).isV = false ∨ (pte (uva k)).isU = true ∧ (pte (uva k)).isCow = true))

/-- Some entries of the address space `i` were resolved by `vmfault`. -/
def Faulted (i : ι) (sz : ℕ) (pte pte' : ι → ℕ → Pte) : Prop :=
  ∀ j va, pte' j va = pte j va ∨ j = i ∧ UserVa va ∧ va < sz ∧ Fixed (pte j va) (pte' j va)

omit [DecidableEq ι] [Fintype ι] in
theorem Faulted.refl (i : ι) (sz : ℕ) (pte : ι → ℕ → Pte) : Faulted i sz pte pte :=
  fun _ _ => .inl rfl

omit [DecidableEq ι] [Fintype ι] in
theorem Faulted.trans {pte'' : ι → ℕ → Pte} (h : Faulted i sz pte pte')
    (h' : Faulted i sz pte' pte'') : Faulted i sz pte pte'' := by
  intro j va
  rcases h' j va with heq | ⟨hj, hu, hlt, hf⟩
  · rw [heq]
    exact h j va
  · rcases h j va with heq1 | ⟨_, _, _, hf1⟩
    · rw [heq1] at hf
      exact .inr ⟨hj, hu, hlt, hf⟩
    · exfalso
      revert hf
      generalize pte'' j va = e''
      intro hf
      cases hf with
      | lazy _ hv =>
        rw [hf1.isV] at hv
        cases hv
      | copied _ _ hc =>
        rw [hf1.isCow] at hc
        cases hc

omit [Fintype ι] in
theorem Faulted.set {e : Pte} (hlt : uva k < sz) (h : Fixed (pte i (uva k)) e) :
    Faulted i sz pte (setEntry pte i (uva k) e) := by
  intro j va
  by_cases hne : j ≠ i ∨ va ≠ uva k
  · exact .inl (setEntry_of_ne hne)
  · rw [not_or, not_not, not_not] at hne
    obtain ⟨rfl, rfl⟩ := hne
    refine .inr ⟨rfl, uva_userVa k, hlt, ?_⟩
    rw [setEntry_self]
    exact h

omit [Fintype ι] in
theorem Resolved.faulted {e : Pte} (h : Resolved sz k (pte i (uva k)) e) :
    Faulted i sz pte (setEntry pte i (uva k) e) := by
  cases h with
  | direct _ _ =>
    rw [setEntry_eq_self]
    exact .refl i sz pte
  | fixed hlt _ hf => exact .set hlt hf

omit [Fintype ι] in
theorem Copies.faulted (h : Copies write i sz pte va len res n t pte') : Faulted i sz pte pte' := by
  induction h with
  | done => exact .refl i sz _
  | stop _ _ => exact .refl i sz _
  | page _ _ he _ _ ih => exact he.faulted.trans ih

omit [DecidableEq ι] [Fintype ι] in
theorem SpaceOk.highOk {tr tf : ℕ} (h : SpaceOk pte i tr tf sz) : HighOk (pte i) := by
  intro va ha hge hlt
  rcases high_cases ha hge hlt with rfl | rfl
  · rw [h.trapframe, isU_install]
    decide
  · rw [h.trampoline, isU_install]
    decide

omit [DecidableEq ι] [Fintype ι] in
theorem SpaceOk.faulted {tr tf s : ℕ} (h : SpaceOk pte j tr tf s) (hf : Faulted i sz pte pte')
    (hs : j = i → sz ≤ s) : SpaceOk pte' j tr tf s := by
  have hhigh : ∀ va, ¬UserVa va → pte' j va = pte j va := fun va hva => (hf j va).resolve_right fun hr => hva hr.2.1
  refine ⟨h.size, fun k hv => ?_, ?_, ?_⟩
  · rcases hf j (uva k) with heq | ⟨hj, _, hlt, _⟩
    · exact h.below k (heq ▸ hv)
    · exact hlt.trans_le (hs hj)
  · rw [hhigh _ fun hu => absurd hu.top (by decide)]
    exact h.trampoline
  · rw [hhigh _ fun hu => absurd hu.top (by decide)]
    exact h.trapframe

theorem MemOk.access_wp {Q : Option ℕ → Vm → Prop} (h : MemOk vm roots own pte mem)
    (hr : roots i = some r) (hhigh : HighOk (pte i))
    (hno : (∀ k, uva k = va / PGSIZE * PGSIZE → (pte i (uva k)).allows write = false) → Q none vm)
    (hok : ∀ k, uva k = va / PGSIZE * PGSIZE → (pte i (uva k)).allows write = true →
      Q (some (pte i (uva k)).asPa) vm) : wp (Uvm.access A r va write) Q E vm := by
  have hbase : va < MAXVA → vm.entry r va = pte i (va / PGSIZE * PGSIZE) := by
    intro hlt
    rw [← h.trees.entry hr _ (Nat.mul_mod_left _ _) (page_lt_MAXVA hlt), vm.entry_page]
  have hnot : (va < MAXVA → (pte i (va / PGSIZE * PGSIZE)).allows write = false) → Q none vm := by
    intro hno'
    refine hno fun k hk => ?_
    rw [hk]
    refine hno' ?_
    have htop := (uva_userVa k).top
    have hpg : PGSIZE = 4096 := rfl
    have htf : TRAPFRAME = 2 ^ 38 - 8192 := rfl
    have hmax : MAXVA = 2 ^ 38 := rfl
    rw [hpg] at hk
    rw [htf] at htop
    rw [hmax]
    omega
  refine wp_bind.2 (Octopos.walk_wp (h.trees.radix hr) (fun hbig => wp_pure.2 (hnot fun hlt => ?_))
    (fun hlt hz => wp_pure.2 (hnot fun _ => ?_)) fun hlt => ?_)
  · exact absurd hlt (not_lt.2 hbig)
  · rw [← hbase hlt, hz]
    rfl
  · rw [hbase hlt]
    refine wp_ite (fun hy => wp_pure.2 ?_) fun hn => wp_pure.2 (hnot fun _ => ?_)
    · rcases lt_or_ge (va / PGSIZE * PGSIZE) TRAPFRAME with hlow | hge
      · obtain ⟨k, hk⟩ := (UserVa.mk (Nat.mul_mod_left _ _) hlow).exists_uva
        rw [← hk] at hy ⊢
        exact hok k hk hy
      · rw [hhigh _ (Nat.mul_mod_left _ _) hge (page_lt_MAXVA hlt), Bool.and_false, Bool.false_and] at hy
        cases hy
    · exact Bool.not_eq_true _ ▸ hn

theorem uva_next_le (k : Fin USERPAGES) : uva k + PGSIZE ≤ TRAPFRAME := by
  obtain ⟨ha, ht⟩ := uva_userVa k
  have hpg : PGSIZE = 4096 := rfl
  have htf : TRAPFRAME = 2 ^ 38 - 8192 := rfl
  rw [hpg] at ha ⊢
  rw [htf] at ht ⊢
  omega

theorem lt_TRAPFRAME_of_page (hk : uva k = va / PGSIZE * PGSIZE) : va < TRAPFRAME := by
  have hnext := uva_next_le k
  have hlt := Nat.lt_div_mul_add (a := va) (show 0 < PGSIZE by decide)
  omega

theorem page_eq {l : Fin USERPAGES} (hk : uva k = va / PGSIZE * PGSIZE)
    (hl : uva l = va / PGSIZE * PGSIZE) : l = k := uva_inj (hl.trans hk.symm)

theorem allows_of_fixed {e e' : Pte} (h : Fixed e e') (hr : e'.isR = true) :
    e'.allows write = e'.isU := by
  unfold Pte.allows
  rw [h.isV, h.isW, hr, Bool.true_and, ite_self, Bool.and_true]

theorem MemOk.userAccess_wp (h : MemOk vm roots own pte mem) (hr : roots i = some r)
    (hsize : sz ≤ TRAPFRAME) (hva : va < 2 ^ 64) (hhigh : HighOk (pte i))
    (herr : ∀ e vm' own' pte', MemOk vm' roots own' pte' mem → SameOutside i own own' →
      Faulted i sz pte pte' → (e = .alloc ∨ ¬Accessible write (pte i) sz va) → Q (.error e) vm')
    (hok : ∀ k vm' own' pte', uva k = va / PGSIZE * PGSIZE → MemOk vm' roots own' pte' mem →
      SameOutside i own own' → Faulted i sz pte pte' → (pte' i (uva k)).allows write = true →
      Accessible write (pte i) sz va → Q (.ok (pte' i (uva k)).asPa) vm') :
    wp (Uvm.userAccess A r sz va write 3) Q E vm := by
  rw [Uvm.userAccess]
  refine wp_bind.2 (h.access_wp hr hhigh (fun hno => ?_) fun k hk hy => wp_pure.2 ?_)
  · refine wp_bind.2 (h.fault_wp hr hsize hva (fun hge => wp_pure.2 ?_) (fun k hlt hk hv hc => wp_pure.2 ?_)
      (fun vm' own' h' hk' => wp_pure.2 (herr _ vm' own' pte h' hk' (.refl i sz pte) (.inl rfl)))
      fun k a e vm1 own1 hlt hk hf ht h1 hk1 => ?_)
    · refine herr _ vm own pte h (.refl own) (.refl i sz pte) (.inr ?_)
      rintro ⟨k, hk, hy | ⟨hlt, _⟩⟩
      · rw [hno k hk] at hy
        cases hy
      · exact absurd hlt (not_lt.2 hge)
    · refine herr _ vm own pte h (.refl own) (.refl i sz pte) (.inr ?_)
      rintro ⟨l, hl, hy | ⟨_, hn | ⟨_, hn⟩⟩⟩
      · rw [hno l hl] at hy
        cases hy
      · rw [page_eq hk hl, hv] at hn
        cases hn
      · rw [page_eq hk hl, hc] at hn
        cases hn
    · have hself := setEntry_self pte i (uva k) e
      have hread := (h1.users.leaf (by rw [hself, hf.isV])).1
      rw [hself] at hread
      have hlt' : uva k < sz := lt_of_le_of_lt (hk ▸ Nat.div_mul_le_self va PGSIZE) hlt
      have hset := Faulted.set hlt' hf
      rw [Uvm.userAccess]
      refine wp_bind.2 (h1.access_wp hr hhigh.setEntry (fun hno1 => ?_) fun l hl hy => wp_pure.2 ?_)
      · -- a page that was shared and not for the user: it is no longer shared, so the next fault fails
        have hu := hno1 k hk
        rw [hself, allows_of_fixed hf hread] at hu
        have hnot : ¬Accessible write (pte i) sz va := by
          rintro ⟨l, hl, hy | ⟨_, hn⟩⟩
          · rw [hno l hl] at hy
            cases hy
          · rw [page_eq hk hl] at hn
            rw [hf.isU fun hv => ?_] at hu
            · cases hu
            · exact (hn.resolve_left fun hn => by rw [hv] at hn; cases hn).1
        refine wp_bind.2 (h1.fault_wp hr hsize hva (fun hge => absurd hlt (not_lt.2 hge))
          (fun _ _ _ _ _ => wp_pure.2 (herr _ vm1 own1 _ h1 hk1 hset (.inr hnot)))
          (fun vm' own' h' hk' => wp_pure.2 (herr _ vm' own' _ h' (hk1.trans hk') hset (.inl rfl)))
          fun l a' e' vm' own' _ hl hf' _ _ _ => ?_)
        rw [page_eq hk hl, hself] at hf'
        cases hf' with
        | lazy _ hv =>
          rw [hf.isV] at hv
          cases hv
        | copied _ _ hc =>
          rw [hf.isCow] at hc
          cases hc
      · refine hok l vm1 own1 _ hl h1 hk1 hset hy ⟨k, hk, .inr ⟨hlt, ?_⟩⟩
        rw [page_eq hk hl, hself, allows_of_fixed hf hread] at hy
        cases hf with
        | lazy _ hv => exact .inl hv
        | copied _ _ hc => exact .inr ⟨(isU_unshared _ _).symm.trans hy, hc⟩
  · exact hok k vm own pte hk h (.refl own) (.refl i sz pte) hy ⟨k, hk, .inl hy⟩

theorem Pte.isV_of_allows {e : Pte} (h : e.allows write = true) : e.isV = true := by
  unfold Pte.allows at h
  rw [Bool.and_eq_true, Bool.and_eq_true] at h
  exact h.1.1

theorem Pte.isW_of_allows {e : Pte} (h : e.allows true = true) : e.isW = true := by
  unfold Pte.allows at h
  rw [Bool.and_eq_true] at h
  exact h.2

theorem MemOk.load_wp {Q : Except VmError UInt8 → Vm → Prop} (h : MemOk vm roots own pte mem)
    (hr : roots i = some r) (hsize : sz ≤ TRAPFRAME) (hva : va < 2 ^ 64) (hhigh : HighOk (pte i))
    (hQ : ∀ res vm' own' pte', MemOk vm' roots own' pte' mem → SameOutside i own own' →
      Faulted i sz pte pte' → (∀ b, res = .ok b → va < TRAPFRAME ∧ b = mem i va) →
      (Accessible false (pte i) sz va → ∀ e, res = .error e → e = .alloc) → Q res vm') :
    wp (Uvm.load A r sz va) Q E vm := by
  refine wp_bind.2 (h.userAccess_wp hr hsize hva hhigh (fun e vm' own' pte' h' hk' hf he => wp_pure.2 ?_)
    fun k vm' own' pte' hk h' hk' hf hy _ => wp_bind.2 (wp_get.2 (wp_pure.2 ?_)))
  · refine hQ _ vm' own' pte' h' hk' hf (fun b hb => by cases hb) fun hacc e' he' => ?_
    cases he'
    exact he.resolve_right fun hn => hn hacc
  · refine hQ _ vm' own' pte' h' hk' hf (fun b hb => ?_) fun _ e' he' => by cases he'
    cases hb
    have hview := h'.views i k (va % PGSIZE) (Nat.mod_lt _ (by decide))
    rw [if_pos (Pte.isV_of_allows hy), hk, Nat.div_add_mod'] at hview
    refine ⟨lt_TRAPFRAME_of_page hk, ?_⟩
    rw [hview, hk]

theorem MemOk.store_wp {b : UInt8} {Q : Except VmError PUnit → Vm → Prop}
    (h : MemOk vm roots own pte mem) (hr : roots i = some r) (hsize : sz ≤ TRAPFRAME)
    (hva : va < 2 ^ 64) (hhigh : HighOk (pte i))
    (herr : ∀ e vm' own' pte', MemOk vm' roots own' pte' mem → SameOutside i own own' →
      Faulted i sz pte pte' → (e = .alloc ∨ ¬Accessible true (pte i) sz va) → Q (.error e) vm')
    (hok : ∀ vm' own' pte', MemOk vm' roots own' pte' (setBytes mem i va 1 fun _ => b) →
      SameOutside i own own' → Faulted i sz pte pte' → Accessible true (pte i) sz va →
      Q (.ok ⟨⟩) vm') : wp (Uvm.store A r sz va b) Q E vm := by
  refine wp_bind.2 (h.userAccess_wp hr hsize hva hhigh (fun e vm' own' pte' h' hk' hf he => wp_pure.2 ?_)
    fun k vm' own' pte' hk h' hk' hf hy hacc => wp_bind.2 (wp_modify.2 (wp_pure.2 ?_)))
  · exact herr e vm' own' pte' h' hk' hf he
  · have hv := Pte.isV_of_allows hy
    have hone := h'.users.excl hv (Pte.isW_of_allows hy)
    have hlt := Nat.mod_lt va (show PGSIZE > 0 by decide)
    have hpoke : MemOk (vm'.poke (pte' i (uva k)).asPa (va % PGSIZE) 1 fun _ => b) roots own' pte' _ :=
      h'.poke (Pte.target_eq_some.2 ⟨hv, rfl⟩) hone hlt
    have hplace : uva k + va % PGSIZE = va := by rw [hk, Nat.div_add_mod']
    rw [hplace] at hpoke
    exact hok _ own' pte' hpoke hk' hf hacc

end Rules

end Octopos
