import Octopos.Vm.Spaces

/-!
# Changes of address spaces

How the parts of the description of the memory change: the page tables (`Trees`), the pages in use
(`Pages`), the user pages with their counts (`Users`), and the bytes of the address spaces
(`Views`).
-/

namespace Octopos

variable {ι : Type} [DecidableEq ι]

section Trees

variable {vm vm' : Vm} {roots : ι → Option ℕ} {own own' : ℕ → Option (Owner ι)} {pte : ι → ℕ → Pte}
  {i : ι} {r : ℕ} {lab : ℕ → Option Node} {m : ℕ → Pte}

theorem Trees.congr (h : Trees vm roots own pte)
    (hs : SameOn (fun a => ∃ i n, own a = some (.table i n)) vm vm')
    (hl : ∀ a i n, own' a = some (.table i n) ↔ own a = some (.table i n)) :
    Trees vm' roots own' pte := by
  have hsame : ∀ i, SameOn (fun a => labels own i a ≠ none) vm vm' := fun i => hs.mono fun a ha => by
      obtain ⟨n, hn⟩ := Option.ne_none_iff_exists'.1 ha
      exact ⟨i, n, labels_eq_some.1 hn⟩
  refine ⟨fun {i r} hr => ?_, fun {i r} hr va ha hva => ?_, fun {i} hi a n => ?_, h.blank⟩
  · rw [labels_congr fun a n => hl a i n]
    exact (h.radix hr).congr (hsame i)
  · rw [(h.radix hr).entry_congr (hsame i)]
    exact h.entry hr va ha hva
  · rw [ne_eq, hl]
    exact h.dead hi a n

theorem Edited.congr {s s' : Vm} {root : ℕ} {lab lab' : ℕ → Option Node} {m : ℕ → Pte}
    (h : Edited s s' root lab lab' m) (m' : ℕ → Pte)
    (hm : ∀ va, va % PGSIZE = 0 → va < MAXVA → m va = m' va) : Edited s s' root lab lab' m' :=
  ⟨h.radix, h.ext, h.fresh, fun va ha hva => (h.entry va ha hva).trans (hm va ha hva)⟩

theorem Edited.relabels (h : Edited vm vm' r (labels own i) lab m) (hp : Pages vm own) :
    Relabels own i lab := by
  refine ⟨fun {a n} ha => h.ext a n (labels_eq_some.2 ha), fun {a n} ha => ?_⟩
  cases hl : labels own i a with
  | some n' =>
    have hn := h.ext a n' hl
    rw [ha, Option.some.injEq] at hn
    rw [hn]
    exact .inl (labels_eq_some.1 hl)
  | none =>
    have hused := h.fresh a hl (by rw [ha]; exact Option.some_ne_none n)
    have hiff := hp.used (h.radix.page ha)
    rw [hused] at hiff
    by_contra hno
    exact absurd (hiff.2 fun hn => hno (.inr hn)) Bool.noConfusion

theorem Trees.edit (h : Trees vm roots own pte) (hr : roots i = some r)
    (he : Edited vm vm' r (labels own i) lab m) (hl : Relabels own i lab)
    (hs : SameOn (fun a => lab a = none) vm vm') :
    Trees vm' roots (relabel own i lab) (upd pte i m) := by
  have hother : ∀ {j}, j ≠ i → SameOn (fun a => labels own j a ≠ none) vm vm' := fun {j} hj => hs.mono fun a ha => by
      obtain ⟨n, hn⟩ := Option.ne_none_iff_exists'.1 ha
      refine hl.lab_none (fun n' hn' => hj ?_) (labels_eq_some.1 hn)
      exact (Owner.table.inj hn').1
  refine ⟨fun {j r'} hj => ?_, fun {j r'} hj va ha hva => ?_, fun {j} hj a n => ?_, fun {j} hj va => ?_⟩
  · by_cases hji : j = i
    · subst hji
      rw [hr, Option.some.injEq] at hj
      subst hj
      rw [hl.labels_self]
      exact he.radix
    · rw [hl.labels_of_ne hji]
      exact (h.radix hj).congr (hother hji)
  · by_cases hji : j = i
    · subst hji
      rw [hr, Option.some.injEq] at hj
      subst hj
      rw [upd_self]
      exact he.entry va ha hva
    · rw [upd_of_ne hji, (h.radix hj).entry_congr (hother hji)]
      exact h.entry hj va ha hva
  · have hji : j ≠ i := by
      rintro rfl
      rw [hr] at hj
      cases hj
    rw [ne_eq, hl.table_iff, if_neg hji]
    exact h.dead hj a n
  · have hji : j ≠ i := by
      rintro rfl
      rw [hr] at hj
      cases hj
    rw [upd_of_ne hji]
    exact h.blank hj va

theorem relabel_labels (own : ℕ → Option (Owner ι)) (i : ι) :
    relabel own i (labels own i) = own := by
  funext a
  unfold relabel
  cases hl : labels own i a with
  | none => rfl
  | some n => exact (labels_eq_some.1 hl).symm

theorem Trees.write {t va : ℕ} {e : Pte} (h : Trees vm roots own pte) (hr : roots i = some r)
    (ht : own t = some (.table i (.leaf (px 2 va) (px 1 va)))) (ha : va % PGSIZE = 0)
    (hva : va < MAXVA) : Trees (vm.write t (px 0 va) e) roots own (setEntry pte i va e) := by
  have hrad := h.radix hr
  have he := ((TreeGrown.refl hrad).edited.write (e := e) (labels_eq_some.2 ht) ha hva).congr
    (upd (pte i) va e) fun va' ha' hva' => by
      rw [upd_apply, upd_apply, h.entry hr va' ha' hva']
  have hl : Relabels own i (labels own i) :=
    ⟨fun ho => labels_eq_some.2 ho, fun ho => .inl (labels_eq_some.1 ho)⟩
  have hs : SameOn (fun a => labels own i a = none) vm (vm.write t (px 0 va) e) :=
    (vm.write_same t _ _).mono fun a hnone => by
      rintro rfl
      rw [labels_eq_some.2 ht] at hnone
      cases hnone
  have hedit := h.edit hr he hl hs
  rwa [relabel_labels] at hedit

omit [DecidableEq ι] in
theorem Pages.kernel (h : Pages vm own) {a : ℕ} (ha : own a = some .kernel) :
    vm.refs (pageIndex a) = 1 :=
  h.count (h.page ha) (by rw [ha]; rfl)

theorem Pages.edit (h : Pages vm own) (he : Edited vm vm' r (labels own i) lab m)
    (hl : Relabels own i lab) (hs : SameOn (fun a => lab a = none) vm vm') :
    Pages vm' (relabel own i lab) := by
  refine ⟨fun {a o} ha => ?_, fun {a} ha => ?_, fun {a} ha {n} hn => ?_⟩
  · unfold relabel at ha
    cases hla : lab a with
    | some n => exact he.radix.page hla
    | none =>
      rw [hla] at ha
      exact h.page ha
  · cases hla : lab a with
    | some n =>
      have hown : relabel own i lab a = some (.table i n) := by rw [hl.table_iff, if_pos rfl, hla]
      rw [he.radix.used hla, hown]
      exact ⟨fun _ => Option.some_ne_none _, fun _ => rfl⟩
    | none =>
      have hown : relabel own i lab a = own a := by rw [relabel, hla]
      rw [hs.used a ha hla, hown]
      exact h.used ha
  · cases hla : lab a with
    | some m =>
      have hown : relabel own i lab a = some (.table i m) := by rw [hl.table_iff, if_pos rfl, hla]
      rw [hown] at hn
      cases hn
    | none =>
      have hown : relabel own i lab a = own a := by rw [relabel, hla]
      rw [hown] at hn
      rw [hs.refs a ha hla]
      exact h.count ha hn

end Trees

section Users

variable [Fintype ι] {refs refs' : ℕ → UInt8} {own own' : ℕ → Option (Owner ι)} {pte : ι → ℕ → Pte}
  {i j : ι} {k : Fin USERPAGES} {a : ℕ} {e : Pte}

section

omit [DecidableEq ι]

theorem Users.congr (h : Users refs own pte)
    (hown : ∀ a, own' a = some .user ↔ own a = some .user)
    (hrefs : ∀ a, own a = some .user → refs' (pageIndex a) = refs (pageIndex a)) :
    Users refs' own' pte := by
  refine ⟨fun {i k} hv => ?_, h.inj, fun {a} ha => ?_, h.excl⟩
  · rw [hown]
    exact h.leaf hv
  · rw [hown] at ha
    rw [hrefs a ha]
    exact h.count ha

theorem Users.owner (h : Users refs own pte) (hm : mapping pte (i, k) = some a) :
    own a = some .user := by
  obtain ⟨hv, rfl⟩ := mapping_eq_some.1 hm
  exact (h.leaf hv).2

theorem Users.uses_zero (h : Users refs own pte) (ha : own a ≠ some .user) :
    uses (mapping pte) a = 0 := by
  by_contra hne
  obtain ⟨⟨i, k⟩, hm⟩ := exists_of_uses_pos (Nat.pos_of_ne_zero hne)
  exact ha (h.owner hm)

end

theorem Users.reflag (h : Users refs own pte) (ht : e.target = (pte i (uva k)).target)
    (hl : (pte i (uva k)).isR = true → e.isR = true)
    (hw : e.isW = true → (pte i (uva k)).isW = true) :
    Users refs own (setEntry pte i (uva k) e) := by
  have hmap : mapping (setEntry pte i (uva k) e) = mapping pte := by
    rw [mapping_setEntry, ht]
    exact upd_eq_self _ _
  have hpa : e.isV = true → (pte i (uva k)).isV = true ∧ (pte i (uva k)).asPa = e.asPa := fun hv =>
    Pte.target_eq_some.1 (ht.symm.trans (Pte.target_eq_some.2 ⟨hv, rfl⟩))
  refine ⟨fun {j l} hv => ?_, ?_, ?_, fun {j l} hv hw' => ?_⟩
  · rcases setEntry_cases pte i k e j l with ⟨rfl, rfl⟩ | ⟨-, heq⟩
    · rw [setEntry_self] at hv ⊢
      obtain ⟨hv', ha⟩ := hpa hv
      rw [← ha]
      exact ⟨hl (h.leaf hv').1, (h.leaf hv').2⟩
    · rw [heq] at hv ⊢
      exact h.leaf hv
  · rw [hmap]
    exact h.inj
  · rw [hmap]
    exact h.count
  · rw [hmap]
    rcases setEntry_cases pte i k e j l with ⟨rfl, rfl⟩ | ⟨-, heq⟩
    · rw [setEntry_self] at hv hw' ⊢
      obtain ⟨hv', ha⟩ := hpa hv
      rw [← ha]
      exact h.excl hv' (hw hw')
    · rw [heq] at hv hw' ⊢
      exact h.excl hv hw'

theorem Users.fill (h : Users refs own pte) (hinv : (pte i (uva k)).isV = false)
    (ha : own a ≠ some .user) (href : refs (pageIndex a) = 1) (ht : e.target = some a)
    (hl : e.isR = true) : Users refs (upd own a (some .user)) (setEntry pte i (uva k) e) := by
  have hmap : mapping (setEntry pte i (uva k) e) = upd (mapping pte) (i, k) (some a) := by
    rw [mapping_setEntry, ht]
  have hnone : mapping pte (i, k) = none := Pte.target_none hinv
  have huses : ∀ b, uses (mapping (setEntry pte i (uva k) e)) b =
      uses (mapping pte) b + if b = a then 1 else 0 := fun b => by
    rw [hmap]
    exact uses_fill hnone
  have hold : ∀ {j l}, (pte j (uva l)).isV = true → (pte j (uva l)).asPa ≠ a := by
    rintro j l hv rfl
    exact ha (h.leaf hv).2
  have hea : e.asPa = a := (Pte.target_eq_some.1 ht).2
  refine ⟨fun {j l} hv => ?_, fun {j l m b} h1 h2 => ?_, fun {b} hb => ?_, fun {j l} hv hw => ?_⟩
  · rcases setEntry_cases pte i k e j l with ⟨rfl, rfl⟩ | ⟨-, heq⟩
    · rw [setEntry_self, hea, upd_self]
      exact ⟨hl, rfl⟩
    · rw [heq] at hv ⊢
      rw [upd_of_ne (hold hv)]
      exact h.leaf hv
  · rw [hmap, upd_apply] at h1 h2
    split_ifs at h1 h2 with hl1 hl2 hl2
    · rw [(Prod.mk.inj hl1).2, (Prod.mk.inj hl2).2]
    · cases h1
      exact absurd (h.owner h2) ha
    · cases h2
      exact absurd (h.owner h1) ha
    · exact h.inj h1 h2
  · rw [huses]
    by_cases hba : b = a
    · subst hba
      rw [href, h.uses_zero ha, if_pos rfl]
      exact ⟨rfl, Nat.zero_lt_one⟩
    · rw [upd_of_ne hba] at hb
      rw [if_neg hba, add_zero]
      exact h.count hb
  · rw [huses]
    rcases setEntry_cases pte i k e j l with ⟨rfl, rfl⟩ | ⟨-, heq⟩
    · rw [setEntry_self, hea, h.uses_zero ha, if_pos rfl]
    · rw [heq] at hv hw ⊢
      rw [if_neg (hold hv), add_zero]
      exact h.excl hv hw

theorem Users.clear (h : Users refs own pte) (hpage : ∀ {b}, own b = some .user → IsPage b)
    (hm : (pte i (uva k)).target = some a) (he : e.isV = false) :
    Users (upd refs (pageIndex a) (refs (pageIndex a) - 1))
      (if refs (pageIndex a) = 1 then upd own a none else own) (setEntry pte i (uva k) e) := by
  have hmap : mapping (setEntry pte i (uva k) e) = upd (mapping pte) (i, k) none := by
    rw [mapping_setEntry, Pte.target_none he]
  have ha : own a = some .user := h.owner hm
  have huses : ∀ b, uses (mapping pte) b =
      uses (mapping (setEntry pte i (uva k) e)) b + if b = a then 1 else 0 := fun b => by
    rw [hmap]
    exact uses_clear hm
  obtain ⟨hcount, hpos⟩ := h.count ha
  -- without the last reference no entry points to the page
  have hlast : ∀ {j l}, (j, l) ≠ (i, k) → refs (pageIndex a) = 1 → mapping pte (j, l) ≠ some a := by
    intro j l hne hone hjl
    rw [hone] at hcount
    exact hne (eq_of_uses_one hcount.symm hjl hm)
  have hkeep : ∀ b, b ≠ a → (if refs (pageIndex a) = 1 then upd own a none else own) b = own b := by
    intro b hb
    split_ifs
    · exact upd_of_ne hb
    · rfl
  refine ⟨fun {j l} hv => ?_, fun {j l m b} h1 h2 => ?_, fun {b} hb => ?_, fun {j l} hv hw => ?_⟩
  · rcases setEntry_cases pte i k e j l with ⟨rfl, rfl⟩ | ⟨hne, heq⟩
    · rw [setEntry_self, he] at hv
      cases hv
    · rw [heq] at hv ⊢
      refine ⟨(h.leaf hv).1, ?_⟩
      split_ifs with hone
      · rw [upd_of_ne fun hpa => hlast hne hone (mapping_eq_some.2 ⟨hv, hpa⟩)]
        exact (h.leaf hv).2
      · exact (h.leaf hv).2
  · rw [hmap, upd_apply] at h1 h2
    split_ifs at h1 h2
    exact h.inj h1 h2
  · by_cases hba : b = a
    · subst hba
      have hone : refs (pageIndex b) ≠ 1 := by
        intro hone
        rw [if_pos hone, upd_self] at hb
        cases hb
      have hsum := huses b
      rw [if_pos rfl] at hsum
      have hne : (refs (pageIndex b)).toNat ≠ 1 := fun hne => hone (UInt8.toNat_inj.1 hne)
      have hle : (1 : UInt8) ≤ refs (pageIndex b) := by
        rw [UInt8.le_iff_toNat_le]
        exact (Nat.succ_le_of_lt hpos).trans hcount.ge
      have hsub : (refs (pageIndex b) - 1).toNat = (refs (pageIndex b)).toNat - 1 :=
        UInt8.toNat_sub_of_le _ _ hle
      rw [upd_self, hsub]
      omega
    · rw [hkeep b hba] at hb
      have hsum := huses b
      rw [if_neg hba, add_zero] at hsum
      rw [upd_of_ne fun hidx => hba (pageIndex_inj (hpage hb) (hpage ha) hidx), ← hsum]
      exact h.count hb
  · rcases setEntry_cases pte i k e j l with ⟨rfl, rfl⟩ | ⟨hne, heq⟩
    · rw [setEntry_self, he] at hv
      cases hv
    · rw [heq] at hv hw ⊢
      have hsum := huses (pte j (uva l)).asPa
      by_cases hpa : (pte j (uva l)).asPa = a
      · -- a writable page has no second mapping
        have hone := h.excl hv hw
        have hm' : mapping pte (i, k) = some (pte j (uva l)).asPa := hpa ▸ hm
        exact absurd (eq_of_uses_one hone (mapping_eq_some.2 ⟨hv, rfl⟩) hm') hne
      · rw [if_neg hpa, add_zero] at hsum
        rw [← hsum]
        exact h.excl hv hw

theorem Users.share (h : Users refs own pte) (hcard : Fintype.card ι < 256)
    (hpage : ∀ {b}, own b = some .user → IsPage b) (hm : (pte i (uva k)).target = some a)
    (hro : (pte i (uva k)).isW = false)
    (hcopy : ∀ l b, mapping pte (j, l) = some b → mapping pte (i, l) = some b)
    (hinv : (pte j (uva k)).isV = false) (ht : e.target = some a) (hl : e.isR = true)
    (hw : e.isW = false) :
    Users (upd refs (pageIndex a) (refs (pageIndex a) + 1)) own (setEntry pte j (uva k) e) := by
  have hmap : mapping (setEntry pte j (uva k) e) = upd (mapping pte) (j, k) (some a) := by
    rw [mapping_setEntry, ht]
  have hnone : mapping pte (j, k) = none := Pte.target_none hinv
  have ha : own a = some .user := h.owner hm
  have huses : ∀ b, uses (mapping (setEntry pte j (uva k) e)) b =
      uses (mapping pte) b + if b = a then 1 else 0 := fun b => by
    rw [hmap]
    exact uses_fill hnone
  have hea : e.asPa = a := (Pte.target_eq_some.1 ht).2
  have hinj : ∀ {m l l' b}, mapping (setEntry pte j (uva k) e) (m, l) = some b →
      mapping (setEntry pte j (uva k) e) (m, l') = some b → l = l' := by
    intro m l l' b h1 h2
    rw [hmap, upd_apply] at h1 h2
    split_ifs at h1 h2 with hl1 hl2 hl2
    · rw [(Prod.mk.inj hl1).2, (Prod.mk.inj hl2).2]
    · cases h1
      obtain ⟨rfl, rfl⟩ := Prod.mk.inj hl1
      exact h.inj hm (hcopy l' _ h2)
    · cases h2
      obtain ⟨rfl, rfl⟩ := Prod.mk.inj hl2
      exact h.inj (hcopy l _ h1) hm
    · exact h.inj h1 h2
  refine ⟨fun {m l} hv => ?_, hinj, fun {b} hb => ?_, fun {m l} hv hw' => ?_⟩
  · rcases setEntry_cases pte j k e m l with ⟨rfl, rfl⟩ | ⟨-, heq⟩
    · rw [setEntry_self, hea]
      exact ⟨hl, ha⟩
    · rw [heq] at hv ⊢
      exact h.leaf hv
  · have hbound := uses_le_card (a := b) fun _ _ _ => hinj
    rw [huses] at hbound ⊢
    by_cases hba : b = a
    · subst hba
      obtain ⟨hcount, hpos⟩ := h.count ha
      rw [if_pos rfl] at hbound ⊢
      have hone : (1 : UInt8).toNat = 1 := rfl
      rw [upd_self, UInt8.toNat_add, hcount, hone, Nat.mod_eq_of_lt (by omega)]
      exact ⟨rfl, Nat.succ_pos _⟩
    · rw [if_neg hba, add_zero, upd_of_ne fun hidx => hba (pageIndex_inj (hpage hb) (hpage ha) hidx)]
      exact h.count hb
  · rw [huses]
    rcases setEntry_cases pte j k e m l with ⟨rfl, rfl⟩ | ⟨-, heq⟩
    · rw [setEntry_self, hw] at hw'
      cases hw'
    · rw [heq] at hv hw' ⊢
      by_cases hpa : (pte m (uva l)).asPa = a
      · -- the page is mapped at the first place, which is not writable
        have hone := h.excl hv hw'
        have hm' : mapping pte (i, k) = some (pte m (uva l)).asPa := hpa ▸ hm
        have hsame := eq_of_uses_one hone (mapping_eq_some.2 ⟨hv, rfl⟩) hm'
        obtain ⟨rfl, rfl⟩ := Prod.mk.inj hsame
        rw [hro] at hw'
        cases hw'
      · rw [if_neg hpa, add_zero]
        exact h.excl hv hw'

end Users

section Views

variable {data data' : ℕ → Bytes} {pte : ι → ℕ → Pte} {mem : ι → Bytes} {i : ι} {k : Fin USERPAGES}
  {e : Pte}

theorem uva_page {k l : Fin USERPAGES} {off : ℕ} (hne : l ≠ k) (hoff : off < PGSIZE) :
    uva l + off < uva k ∨ uva k + PGSIZE ≤ uva l + off := by
  have hpg : PGSIZE = 4096 := rfl
  have hval : l.val ≠ k.val := fun h => hne (Fin.ext h)
  unfold uva
  rw [hpg] at hoff ⊢
  omega

theorem setBytes_of_ne {j : ι} (h : j ≠ i) (va n : ℕ) (src : Bytes) :
    setBytes mem i va n src j = mem j :=
  upd_of_ne h

theorem setBytes_self (va n : ℕ) (src : Bytes) :
    setBytes mem i va n src i = blit (mem i) va n src :=
  upd_self _ _ _

theorem setBytes_eq_self {va n : ℕ} {src : Bytes} (h : ∀ off < n, src off = mem i (va + off)) :
    setBytes mem i va n src = mem := by
  have hblit : blit (mem i) va n src = mem i := by
    funext x
    unfold blit
    split_ifs with hx
    · rw [h _ (by omega), Nat.add_sub_cancel' hx.1]
    · rfl
  rw [setBytes, hblit, upd_eq_self]

theorem setBytes_none (mem : ι → Bytes) (i : ι) (va : ℕ) (src : Bytes) :
    setBytes mem i va 0 src = mem :=
  setBytes_eq_self fun off hoff => absurd hoff (Nat.not_lt_zero off)

theorem setBytes_idem (va n : ℕ) (src src' : Bytes) :
    setBytes (setBytes mem i va n src) i va n src' = setBytes mem i va n src' := by
  have hblit : blit (blit (mem i) va n src) va n src' = blit (mem i) va n src' := by
    funext x
    unfold blit
    split_ifs <;> rfl
  rw [setBytes, setBytes_self, setBytes, upd_idem, hblit, setBytes]

theorem setBytes_extend (mem : ι → Bytes) (i : ι) (va m n : ℕ) (src : Bytes) :
    setBytes (setBytes mem i va m src) i (va + m) n (fun off => src (m + off)) =
      setBytes mem i va (m + n) src := by
  have hblit := blit_blit (mem i) src va m n 0
  simp only [zero_add] at hblit
  rw [setBytes, setBytes_self, hblit, setBytes, upd_idem, setBytes]

omit [DecidableEq ι] in
theorem Views.congr (h : Views data pte mem)
    (hd : ∀ i k, (pte i (uva k)).isV = true →
      data' (pte i (uva k)).asPa = data (pte i (uva k)).asPa) : Views data' pte mem := by
  intro i k off hoff
  rw [h i k off hoff]
  split_ifs with hv
  · rw [hd i k hv]
  · rfl

theorem Views.set (h : Views data pte mem) {src : Bytes}
    (hsrc : ∀ off < PGSIZE, src off = if e.isV then data e.asPa off else 0) :
    Views data (setEntry pte i (uva k) e) (setBytes mem i (uva k) PGSIZE src) := by
  intro j l off hoff
  rcases setEntry_cases pte i k e j l with ⟨rfl, rfl⟩ | ⟨hne, heq⟩
  · rw [setEntry_self, setBytes_self, blit_inside hoff, hsrc off hoff]
  · rw [heq, ← h j l off hoff]
    by_cases hj : j = i
    · subst hj
      rw [setBytes_self, blit_outside (uva_page (fun hl => hne (by rw [hl])) hoff)]
    · rw [setBytes_of_ne hj]

theorem Views.high {va : ℕ} (h : Views data pte mem) (hva : ¬UserVa va) :
    Views data (setEntry pte i va e) mem := by
  intro j l off hoff
  have hne : uva l ≠ va := by
    rintro rfl
    exact hva (uva_userVa l)
  rw [setEntry_of_ne (.inr hne)]
  exact h j l off hoff

theorem Views.poke [Fintype ι] (h : Views data pte mem) {off n : ℕ} {src : Bytes}
    (hv : (pte i (uva k)).isV = true) (hone : uses (mapping pte) (pte i (uva k)).asPa = 1)
    (hn : off + n ≤ PGSIZE) :
    Views (upd data (pte i (uva k)).asPa (blit (data (pte i (uva k)).asPa) off n src)) pte
      (setBytes mem i (uva k + off) n src) := by
  intro j l o ho
  by_cases hjl : (j, l) = (i, k)
  · obtain ⟨rfl, rfl⟩ := Prod.mk.inj hjl
    rw [if_pos hv, upd_self, setBytes_self]
    have hold := h j l o ho
    rw [if_pos hv] at hold
    unfold blit
    by_cases hin : off ≤ o ∧ o < off + n
    · rw [if_pos (by omega), if_pos hin]
      exact congrArg src (by omega)
    · rw [if_neg (by omega), if_neg hin, hold]
  · have hval : setBytes mem i (uva k + off) n src j (uva l + o) = mem j (uva l + o) := by
      by_cases hj : j = i
      · subst hj
        have hout := uva_page (k := k) (l := l) (fun hl => hjl (by rw [hl])) ho
        rw [setBytes_self, blit_outside (by omega)]
      · rw [setBytes_of_ne hj]
    rw [hval, h j l o ho]
    split_ifs with hvl
    · rw [upd_of_ne]
      intro hpa
      exact hjl (eq_of_uses_one hone (mapping_eq_some.2 ⟨hvl, hpa⟩) (mapping_eq_some.2 ⟨hv, rfl⟩))
    · rfl

end Views

end Octopos
