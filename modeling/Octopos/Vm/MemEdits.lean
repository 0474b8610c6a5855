import Octopos.Vm.SpaceEdits

/-!
# Changes of the memory

How the description of the memory (`MemOk`) as a whole changes when a page table is made or grows, a
page is given out or given back, and an entry is filled, cleared, shared or gets other flags.
-/

namespace Octopos

variable {ι : Type} [DecidableEq ι]
variable {b : ℕ} {x : Option (Owner ι)} {o : Owner ι} {src : Bytes} {mem' : ι → Bytes}

section MemOk

variable [Fintype ι] {vm vm' : Vm} {roots : ι → Option ℕ} {own : ℕ → Option (Owner ι)}
  {pte : ι → ℕ → Pte} {mem : ι → Bytes} {i j : ι} {r a t : ℕ} {k : Fin USERPAGES}
  {lab : ℕ → Option Node} {e : Pte}

section

variable (h : MemOk vm roots own pte mem)
include h

theorem MemOk.userPage (hb : own b = some .user) : IsPage b :=
  h.pages.page hb

theorem MemOk.grow (hr : roots i = some r) (hg : TreeGrown vm vm' r (labels own i) lab) :
    Relabels own i lab ∧ MemOk vm' roots (relabel own i lab) pte mem := by
  have he := hg.edited.congr (pte i) fun va ha hva => h.trees.entry hr va ha hva
  have hl := he.relabels h.pages
  have huser : ∀ {b}, own b = some .user → lab b = none := hl.lab_none fun _ h => by cases h
  refine ⟨hl, ?_, h.pages.edit he hl hg.frame, h.users.congr (fun b => hl.keep fun _ _ h => by cases h)
    fun b hb => hg.frame.refs b (h.userPage hb) (huser hb), h.views.congr fun j l hv => ?_⟩
  · have htrees := h.trees.edit hr he hl hg.frame
    rwa [upd_eq_self] at htrees
  · have hb := (h.users.leaf hv).2
    exact hg.frame.data _ (h.userPage hb) (huser hb)

theorem MemOk.request (n : ℕ) : MemOk { vm with requests := n } roots own pte mem := by
  refine ⟨h.trees.congr ⟨fun _ _ _ => rfl, fun _ _ _ => rfl, fun _ _ _ => rfl, fun _ _ _ => rfl⟩
    fun _ _ _ => Iff.rfl, ⟨h.pages.page, h.pages.used, h.pages.count⟩, h.users, h.views⟩

theorem MemOk.unowned (ha : IsPage a) (hused : vm.used a = false) : own a = none := by
  by_contra hne
  rw [(h.pages.used ha).2 hne] at hused
  cases hused

end

omit [DecidableEq ι] [Fintype ι] in
theorem upd_owner_iff (hold : own a ≠ some o) (hnew : x ≠ some o) :
    upd own a x b = some o ↔ own b = some o := by
  rcases eq_or_ne b a with rfl | hne
  · rw [upd_self]
    exact iff_of_false hnew hold
  · rw [upd_of_ne hne]

omit [DecidableEq ι] [Fintype ι] in
theorem Pages.set (h : Pages vm own) (ha : IsPage a) (hs : SameOn (fun b => b ≠ a) vm vm')
    (hused : vm'.used a = true ↔ x ≠ none)
    (hcount : ∀ n, fixedCount x = some n → vm'.refs (pageIndex a) = n) :
    Pages vm' (upd own a x) := by
  refine ⟨fun {b o} hb => ?_, fun {b} hb => ?_, fun {b} hb {n} hn => ?_⟩ <;>
    rcases eq_or_ne b a with rfl | hne
  · exact ha
  · rw [upd_of_ne hne] at hb
    exact h.page hb
  · rwa [upd_self]
  · rw [upd_of_ne hne, hs.used b hb hne]
    exact h.used hb
  · rw [upd_self] at hn
    exact hcount n hn
  · rw [upd_of_ne hne] at hn
    rw [hs.refs b hb hne]
    exact h.count hb hn

theorem MemOk.give (h : MemOk vm roots own pte mem) (ha : IsPage a) (hused : vm.used a = false) :
    MemOk (vm.give a) roots (upd own a (some .kernel)) pte mem := by
  have hnone := h.unowned ha hused
  have hsame := vm.give_same ha
  have hold : ∀ {b o}, own b = some o → b ≠ a := by
    rintro b o hb rfl
    rw [hnone] at hb
    cases hb
  have hkeep {b o} (ho : o ≠ .kernel) : upd own a (some .kernel) b = some o ↔ own b = some o :=
    upd_owner_iff (by simp [hnone]) fun he => ho (Option.some.inj he).symm
  refine ⟨h.trees.congr (hsame.mono fun b ⟨i, n, hb⟩ => hold hb) (fun b i n => hkeep fun h => by cases h),
    h.pages.set ha hsame (iff_of_true (upd_self ..) (Option.some_ne_none _)) fun n hn => ?_,
    h.users.congr (fun b => hkeep fun h => by cases h)
      (fun b hb => hsame.refs b (h.userPage hb) (hold hb)),
    h.views.congr fun j l hv => ?_⟩
  · cases hn
    exact upd_self ..
  · have hb := (h.users.leaf hv).2
    exact hsame.data _ (h.userPage hb) (hold hb)

theorem Vm.release_refs (vm : Vm) (h : vm.refs (pageIndex a) = 1) :
    (vm.release a).refs (pageIndex a) = 0 := by
  change upd vm.refs (pageIndex a) (vm.refs (pageIndex a) - 1) (pageIndex a) = 0
  rw [upd_self, h]
  rfl

theorem Vm.release_used (vm : Vm) (h : vm.refs (pageIndex a) = 1) :
    (vm.release a).used a = false := by
  change (if vm.refs (pageIndex a) = 1 then upd vm.used a false else vm.used) a = false
  rw [if_pos h, upd_self]

section

variable (h : MemOk vm roots own pte mem)
include h

theorem MemOk.giveBack (ha : own a = some .kernel) :
    MemOk (vm.release a) roots (upd own a none) pte mem := by
  have hpage := h.pages.page ha
  have hsame := vm.release_same hpage
  have hone := h.pages.kernel ha
  have hother : ∀ {b o}, own b = some o → o ≠ .kernel → b ≠ a := by
    rintro b o hb ho rfl
    rw [ha] at hb
    exact ho (Option.some.inj hb).symm
  have hkeep {b o} (ho : o ≠ .kernel) : upd own a none b = some o ↔ own b = some o :=
    upd_owner_iff (fun he => hother he ho rfl) (by simp)
  refine ⟨h.trees.congr (hsame.mono fun b ⟨i, n, hb⟩ => hother hb fun h => by cases h)
      (fun b i n => hkeep fun h => by cases h),
    h.pages.set hpage hsame (by simp [vm.release_used hone]) fun n hn => ?_,
    h.users.congr (fun b => hkeep fun h => by cases h) (fun b hb => hsame.refs b (h.userPage hb)
      (hother hb fun h => by cases h)),
    h.views⟩
  cases hn
  exact vm.release_refs hone

theorem MemOk.fill (hr : roots i = some r) (ha : own a = some .kernel)
    (hinv : (pte i (uva k)).isV = false)
    (he : Edited vm vm' r (labels own i) lab (upd (vm.entry r) (uva k) e))
    (hs : SameOn (fun b => lab b = none) vm vm') (ht : e.target = some a) (hread : e.isR = true) :
    MemOk vm' roots (upd (relabel own i lab) a (some .user)) (setEntry pte i (uva k) e)
      (setBytes mem i (uva k) PGSIZE (vm.data a)) := by
  have he' := he.congr (upd (pte i) (uva k) e) fun va ha hva => by
    rw [upd_apply, upd_apply, h.trees.entry hr va ha hva]
  have hl := he.relabels h.pages
  have hlab : ∀ {b o}, own b = some o → (∀ n, o ≠ .table i n) → lab b = none := fun hb ho => hl.lab_none ho hb
  have hka : relabel own i lab a = some .kernel := (hl.keep fun _ _ h => by cases h).2 ha
  have hsame {b o} (hk : o ≠ .kernel) (hu : o ≠ .user) :
      upd (relabel own i lab) a (some .user) b = some o ↔ relabel own i lab b = some o :=
    upd_owner_iff (fun he => hk (Option.some.inj (hka.symm.trans he)).symm) fun he =>
      hu (Option.some.inj he).symm
  have hpages := h.pages.edit he hl hs
  have hpage := h.pages.page ha
  refine ⟨(h.trees.edit hr he' hl hs).congr (.refl _ _) fun b j n => hsame (fun h => by cases h)
      (fun h => by cases h), hpages.set hpage (.refl _ _) (iff_of_true ((hpages.used hpage).2 ?_)
      (Option.some_ne_none _)) fun n hn => (by cases hn), ?_, ?_⟩
  · rw [hka]
    exact Option.some_ne_none _
  · refine Users.fill (h.users.congr (fun b => hl.keep fun _ _ h => by cases h) fun b hb =>
      hs.refs b (h.userPage hb) (hlab hb fun _ h => by cases h)) hinv ?_ (hpages.kernel hka) ht hread
    rw [hka]
    exact fun h => (by cases h)
  · obtain ⟨hv, hpa⟩ := Pte.target_eq_some.1 ht
    have hdata : vm'.data a = vm.data a :=
      hs.data a (h.pages.page ha) (hlab ha fun _ h => by cases h)
    refine (h.views.congr fun j l hv => ?_).set fun off _ => ?_
    · have hb := (h.users.leaf hv).2
      exact hs.data _ (h.userPage hb) (hlab hb fun _ h => by cases h)
    · rw [if_pos hv, hpa, hdata]

theorem MemOk.reflag (hr : roots i = some r)
    (ht : own t = some (.table i (.leaf (px 2 (uva k)) (px 1 (uva k)))))
    (hte : e.target = (pte i (uva k)).target) (hl : (pte i (uva k)).isR = true → e.isR = true)
    (hw : e.isW = true → (pte i (uva k)).isW = true) :
    MemOk (vm.write t (px 0 (uva k)) e) roots own (setEntry pte i (uva k) e) mem := by
  have hva := uva_userVa k
  refine ⟨h.trees.write hr ht hva.aligned hva.lt_MAXVA, ⟨h.pages.page, h.pages.used, h.pages.count⟩,
    h.users.reflag hte hl hw, ?_⟩
  have hsrc : ∀ off < PGSIZE, mem i (uva k + off) = if e.isV then vm.data e.asPa off else 0 := ?_
  · have hview := h.views.set (i := i) (k := k) hsrc
    rwa [setBytes_eq_self fun _ _ => rfl] at hview
  intro off hoff
  rw [h.views i k off hoff]
  by_cases hv : e.isV = true
  · obtain ⟨hv', hpa⟩ := Pte.target_eq_some.1 (hte.symm.trans (Pte.target_eq_some.2 ⟨hv, rfl⟩))
    rw [if_pos hv, if_pos hv', hpa]
  · have hv' : ¬(pte i (uva k)).isV = true := fun hv' =>
      hv (Pte.target_eq_some.1 (hte.trans (Pte.target_eq_some.2 ⟨hv', rfl⟩))).1
    rw [if_neg hv, if_neg hv']

theorem MemOk.high {va : ℕ} (hr : roots i = some r)
    (he : Edited vm vm' r (labels own i) lab (upd (vm.entry r) va e))
    (hs : SameOn (fun b => lab b = none) vm vm') (hva : ¬UserVa va) :
    MemOk vm' roots (relabel own i lab) (setEntry pte i va e) mem := by
  have he' := he.congr (upd (pte i) va e) fun va' ha hva => by
    rw [upd_apply, upd_apply, h.trees.entry hr va' ha hva]
  have hl := he.relabels h.pages
  have huser : ∀ {b}, own b = some .user → lab b = none := hl.lab_none fun _ h => by cases h
  have hne : ∀ l, uva l ≠ va := by
    rintro l rfl
    exact hva (uva_userVa l)
  have hpte : ∀ j l, setEntry pte i va e j (uva l) = pte j (uva l) := fun j l => setEntry_of_ne (.inr (hne l))
  have hmap : mapping (setEntry pte i va e) = mapping pte := by
    funext ⟨j, l⟩
    unfold mapping
    rw [hpte]
  have husers : Users vm.refs own (setEntry pte i va e) := by
    refine ⟨fun {j l} hv => ?_, ?_, ?_, fun {j l} hv hw => ?_⟩
    · rw [hpte] at hv ⊢
      exact h.users.leaf hv
    · rw [hmap]
      exact h.users.inj
    · rw [hmap]
      exact h.users.count
    · rw [hpte] at hv hw ⊢
      rw [hmap]
      exact h.users.excl hv hw
  refine ⟨h.trees.edit hr he' hl hs, h.pages.edit he hl hs,
    husers.congr (fun b => hl.keep fun _ _ h => by cases h) fun b hb =>
      hs.refs b (h.userPage hb) (huser hb), (h.views.congr fun j l hv => ?_).high hva⟩
  have hb := (h.users.leaf hv).2
  exact hs.data _ (h.userPage hb) (huser hb)

theorem MemOk.writeHigh {va : ℕ} (hr : roots i = some r)
    (ht : own t = some (.table i (.leaf (px 2 va) (px 1 va)))) (ha : va % PGSIZE = 0)
    (hva : va < MAXVA) (hhigh : ¬UserVa va) :
    MemOk (vm.write t (px 0 va) e) roots own (setEntry pte i va e) mem := by
  have ht' := labels_eq_some.2 ht
  have hhigh' := h.high hr ((TreeGrown.refl (h.trees.radix hr)).edited.write (e := e) ht' ha hva)
    ((vm.write_same t _ _).mono fun b hnone => ?_) hhigh
  · rwa [relabel_labels] at hhigh'
  · rintro rfl
    rw [ht'] at hnone
    cases hnone

end

/-- The owner of a page after one reference to it is dropped. -/
def dropOwner (vm : Vm) (own : ℕ → Option (Owner ι)) (a : ℕ) : ℕ → Option (Owner ι) :=
  if vm.refs (pageIndex a) = 1 then upd own a none else own

omit [DecidableEq ι] [Fintype ι] in
theorem dropOwner_iff (ha : own a = some .user) (ho : o ≠ .user) :
    dropOwner vm own a b = some o ↔ own b = some o := by
  unfold dropOwner
  split_ifs
  · exact upd_owner_iff (fun he => ho (Option.some.inj (ha.symm.trans he)).symm) (by simp)
  · rfl

omit [DecidableEq ι] [Fintype ι] in
theorem Pages.drop (h : Pages vm own) (ha : own a = some .user) :
    Pages (vm.release a) (dropOwner vm own a) := by
  have hpage := h.page ha
  have hsame := vm.release_same hpage
  unfold dropOwner
  split_ifs with hone
  · refine h.set hpage hsame (by simp [vm.release_used hone]) fun n hn => ?_
    cases hn
    exact vm.release_refs hone
  · have hset := h.set (x := own a) hpage hsame ?_ fun n hn => ?_
    · rwa [upd_eq_self] at hset
    · change (if vm.refs (pageIndex a) = 1 then upd vm.used a false else vm.used) a = true ↔ _
      rw [if_neg hone]
      exact h.used hpage
    · rw [ha] at hn
      cases hn

theorem MemOk.unmap (h : MemOk vm roots own pte mem) (hr : roots i = some r)
    (ht : own t = some (.table i (.leaf (px 2 (uva k)) (px 1 (uva k)))))
    (hm : (pte i (uva k)).target = some a) :
    MemOk ((vm.release a).write t (px 0 (uva k)) 0) roots (dropOwner vm own a)
      (setEntry pte i (uva k) 0) (setBytes mem i (uva k) PGSIZE fun _ => 0) := by
  have hva := uva_userVa k
  have ha := h.users.owner hm
  have hsame := vm.release_same (h.userPage ha)
  have hpages := h.pages.drop ha
  have htrees : Trees _ roots (dropOwner vm own a) pte := h.trees.congr (hsame.mono fun b ⟨i, n, hb⟩ => by
      rintro rfl
      rw [ha] at hb
      cases hb) fun b i n => dropOwner_iff ha fun h => by cases h
  refine ⟨htrees.write hr ((dropOwner_iff ha fun h => by cases h).2 ht) hva.aligned hva.lt_MAXVA,
    ⟨hpages.page, hpages.used, hpages.count⟩, h.users.clear h.userPage hm Pte.isV_zero, ?_⟩
  refine h.views.set fun off _ => ?_
  rw [Pte.isV_zero]
  rfl

omit [Fintype ι] in
theorem setEntry_idem (pte : ι → ℕ → Pte) (i : ι) (va : ℕ) (e e' : Pte) :
    setEntry (setEntry pte i va e) i va e' = setEntry pte i va e' := by
  unfold setEntry
  rw [upd_self, upd_idem, upd_idem]

section

variable (h : MemOk vm roots own pte mem)
include h

theorem MemOk.replace (hr : roots i = some r)
    (ht : own t = some (.table i (.leaf (px 2 (uva k)) (px 1 (uva k)))))
    (hm : (pte i (uva k)).target = some a) (hb : own b = some .kernel) (hte : e.target = some b)
    (hread : e.isR = true) :
    MemOk ((vm.write t (px 0 (uva k)) e).release a) roots (upd (dropOwner vm own a) b (some .user))
      (setEntry pte i (uva k) e) (setBytes mem i (uva k) PGSIZE (vm.data b)) := by
  have hva := uva_userVa k
  have ha := h.users.owner hm
  have hu := h.unmap hr ht hm
  have hkeep {c o} (hc : own c = some o) (ho : o ≠ .user) : dropOwner vm own a c = some o :=
    (dropOwner_iff ha ho).2 hc
  have ht' := hkeep ht fun h => by cases h
  have hfill := hu.fill hr (hkeep hb fun h => by cases h) (by rw [setEntry_self]; exact Pte.isV_zero)
    ((TreeGrown.refl (hu.trees.radix hr)).edited.write (e := e) (labels_eq_some.2 ht') hva.aligned
      hva.lt_MAXVA) (((vm.release a).write t (px 0 (uva k)) 0).write_same t _ _ |>.mono fun c hnone => ?_)
    hte hread
  · rw [relabel_labels, setEntry_idem, setBytes_idem] at hfill
    have hvm : (((vm.release a).write t (px 0 (uva k)) 0).write t (px 0 (uva k)) e) =
        (vm.write t (px 0 (uva k)) e).release a := by
      unfold Vm.write
      dsimp only
      rw [upd_self, upd_idem, upd_idem]
      rfl
    rwa [hvm] at hfill
  · rintro rfl
    rw [labels_eq_some.2 ht'] at hnone
    cases hnone

theorem MemOk.share {rj : ℕ} (hcard : Fintype.card ι < 256) (hr : roots j = some rj)
    (hm : (pte i (uva k)).target = some a) (hro : (pte i (uva k)).isW = false)
    (hcopy : ∀ l b, mapping pte (j, l) = some b → mapping pte (i, l) = some b)
    (hinv : (pte j (uva k)).isV = false)
    (he : Edited vm vm' rj (labels own j) lab (upd (vm.entry rj) (uva k) e))
    (hs : SameOn (fun b => lab b = none) vm vm') (ht : e.target = some a) (hl : e.isR = true)
    (hw : e.isW = false) :
    MemOk { vm' with refs := upd vm'.refs (pageIndex a) (vm'.refs (pageIndex a) + 1) } roots
      (relabel own j lab) (setEntry pte j (uva k) e) (setBytes mem j (uva k) PGSIZE fun off =>
          mem i (uva k + off)) := by
  have he' := he.congr (upd (pte j) (uva k) e) fun va ha hva => by
    rw [upd_apply, upd_apply, h.trees.entry hr va ha hva]
  have hrel := he.relabels h.pages
  have hlab : ∀ {b o}, own b = some o → (∀ n, o ≠ .table j n) → lab b = none := fun hb ho => hrel.lab_none ho hb
  have ha := h.users.owner hm
  have hua : relabel own j lab a = some .user := (hrel.keep fun _ _ h => by cases h).2 ha
  have hpages := h.pages.edit he hrel hs
  have hne : ∀ {b o}, relabel own j lab b = some o → o ≠ .user → pageIndex b ≠ pageIndex a := by
    intro b o hb ho hidx
    obtain rfl := pageIndex_inj (hpages.page hb) (h.userPage ha) hidx
    rw [hua] at hb
    exact ho (Option.some.inj hb).symm
  have hcount : Users vm'.refs (relabel own j lab) pte := h.users.congr (fun b => hrel.keep fun _ _ h => by cases h)
    fun b hb => hs.refs b (h.userPage hb) (hlab hb fun _ h => by cases h)
  obtain ⟨hv, hpa⟩ := Pte.target_eq_some.1 hm
  obtain ⟨hv', hpa'⟩ := Pte.target_eq_some.1 ht
  refine ⟨(h.trees.edit hr he' hrel hs).congr ⟨fun _ _ _ => rfl, fun _ _ _ => rfl, fun _ _ _ => rfl,
      fun b _ hb => ?_⟩ fun _ _ _ => Iff.rfl, ⟨hpages.page, hpages.used, fun {b} hb {n} hn => ?_⟩,
    hcount.share hcard hpages.page hm hro hcopy hinv ht hl hw, (h.views.congr fun m l hvl => ?_).set
      fun off hoff => ?_⟩
  · obtain ⟨m, n, hb⟩ := hb
    exact upd_of_ne (hne hb fun h => by cases h)
  · refine (upd_of_ne fun hidx => ?_).trans (hpages.count hb hn)
    obtain rfl := pageIndex_inj hb (h.userPage ha) hidx
    rw [hua] at hn
    cases hn
  · have hb := (h.users.leaf hvl).2
    exact hs.data _ (h.userPage hb) (hlab hb fun _ h => by cases h)
  · rw [if_pos hv', hpa', h.views i k off hoff, if_pos hv, hpa]
    exact (congrFun (hs.data a (h.userPage ha) (hlab ha fun _ h => by cases h)) off).symm

theorem MemOk.poke_trees {off n : ℕ} (ha : ∀ i n, own a ≠ some (.table i n)) :
    Trees (vm.poke a off n src) roots own pte := by
  refine h.trees.congr ⟨fun _ _ _ => rfl, fun b _ hb => upd_of_ne ?_, fun _ _ _ => rfl,
    fun _ _ _ => rfl⟩ fun _ _ _ => Iff.rfl
  rintro rfl
  obtain ⟨i, n, hb⟩ := hb
  exact ha i n hb

theorem MemOk.poke {off n : ℕ} (hm : (pte i (uva k)).target = some a)
    (hone : uses (mapping pte) a = 1) (hn : off + n ≤ PGSIZE) :
    MemOk (vm.poke a off n src) roots own pte (setBytes mem i (uva k + off) n src) := by
  obtain ⟨hv, rfl⟩ := Pte.target_eq_some.1 hm
  refine ⟨h.poke_trees fun i n hb => ?_, ⟨h.pages.page, h.pages.used, h.pages.count⟩, h.users,
    h.views.poke hv hone hn⟩
  rw [h.users.owner hm] at hb
  cases hb

theorem MemOk.pokeKernel {off n : ℕ} (ha : own a = some .kernel) :
    MemOk (vm.poke a off n src) roots own pte mem := by
  refine ⟨h.poke_trees fun i n hb => ?_, ⟨h.pages.page, h.pages.used, h.pages.count⟩, h.users,
    h.views.congr fun j l hv => upd_of_ne fun hpa => ?_⟩
  · rw [ha] at hb
    cases hb
  · have hb := (h.users.leaf hv).2
    rw [hpa, ha] at hb
    cases hb

theorem MemOk.newSpace (hi : roots i = none) (ha : IsPage a) (hused : vm.used a = false) :
    MemOk (vm.give a) (upd roots i (some a)) (upd own a (some (.table i .root))) pte mem := by
  have hnone := h.unowned ha hused
  have hsame := vm.give_same ha
  have hold : ∀ {b o}, own b = some o → b ≠ a := by
    rintro b o hb rfl
    rw [hnone] at hb
    cases hb
  have hkeep {b o} (ho : ∀ n, o ≠ .table i n) : upd own a (some (.table i .root)) b = some o ↔ own b = some o :=
    upd_owner_iff (by simp [hnone]) fun he => ho _ (Option.some.inj he).symm
  have hlabels : labels (upd own a (some (.table i .root))) i = upd (fun _ => none) a (some .root) := by
    funext b
    refine Option.ext fun n => ?_
    rw [labels_eq_some]
    rcases eq_or_ne b a with rfl | hne
    · rw [upd_self, upd_self]
      simp
    · rw [upd_of_ne hne, upd_of_ne hne]
      exact ⟨fun hb => absurd hb (h.trees.dead hi b n), fun hb => (by cases hb)⟩
  have hother : Trees (vm.give a) roots own pte := h.trees.congr
    (hsame.mono fun b ⟨j, n, hb⟩ => hold hb) fun _ _ _ => Iff.rfl
  refine ⟨⟨fun {j r} hj => ?_, fun {j r} hj va hal hva => ?_, fun {j} hj b n => ?_, fun {j} hj => ?_⟩,
    h.pages.set ha hsame (iff_of_true (upd_self ..) (Option.some_ne_none _)) fun n hn => (by cases hn),
    h.users.congr (fun b => hkeep fun _ h => by cases h)
      fun b hb => hsame.refs b (h.userPage hb) (hold hb),
    h.views.congr fun j l hv => ?_⟩
  · rcases eq_or_ne j i with rfl | hne
    · rw [upd_self, Option.some.injEq] at hj
      subst hj
      rw [hlabels]
      exact .new ha
    · rw [upd_of_ne hne] at hj
      rw [labels_congr fun b n => hkeep fun m hm => hne (Owner.table.inj hm).1]
      exact hother.radix hj
  · rcases eq_or_ne j i with rfl | hne
    · rw [upd_self, Option.some.injEq] at hj
      subst hj
      rw [Radix.entry_new ha, h.trees.blank hi]
    · rw [upd_of_ne hne] at hj
      exact hother.entry hj va hal hva
  · rcases eq_or_ne j i with rfl | hne
    · rw [upd_self] at hj
      cases hj
    · rw [upd_of_ne hne] at hj
      rw [ne_eq, hkeep fun m hm => hne (Owner.table.inj hm).1]
      exact h.trees.dead hj b n
  · rcases eq_or_ne j i with rfl | hne
    · rw [upd_self] at hj
      cases hj
    · rw [upd_of_ne hne] at hj
      exact h.trees.blank hj
  · have hb := (h.users.leaf hv).2
    exact hsame.data _ (h.userPage hb) (hold hb)

end

/-- No other address space maps a page of `i`. -/
def Alone (pte : ι → ℕ → Pte) (i : ι) : Prop :=
  ∀ k, (pte i (uva k)).isV = true → uses (mapping pte) (pte i (uva k)).asPa = 1

/-- A page of the address space `i`: one of its tables or of its user pages. -/
def PageOf (own : ℕ → Option (Owner ι)) (pte : ι → ℕ → Pte) (i : ι) (b : ℕ) : Prop :=
  (∃ n, own b = some (.table i n)) ∨ ∃ l, mapping pte (i, l) = some b

/-- An address space that shares no page is given up, and all of its pages get new owners. -/
theorem MemOk.leave {own' : ℕ → Option (Owner ι)} (h : MemOk vm roots own pte mem)
    (hr : roots i = some r) (halone : Alone pte i)
    (hgone : ∀ {b}, PageOf own pte i b → own' b = some .kernel ∨ own' b = some (.static 1))
    (hkept : ∀ {b}, ¬PageOf own pte i b → own' b = own b) (hmem : ∀ {j}, j ≠ i → mem' j = mem j)
    (hzero : ∀ l off, off < PGSIZE → mem' i (uva l + off) = 0) :
    MemOk vm (upd roots i none) own' (upd pte i fun _ => 0) mem' := by
  have hrad := h.trees.radix hr
  have hold : ∀ {b o}, own' b = some o → o ≠ .kernel → o ≠ .static 1 → ¬PageOf own pte i b ∧ own b = some o := by
    intro b o hb hk hs
    by_cases hp : PageOf own pte i b
    · rcases hgone hp with hg | hg
      · rw [hg] at hb
        exact absurd (Option.some.inj hb).symm hk
      · rw [hg] at hb
        exact absurd (Option.some.inj hb).symm hs
    · exact ⟨hp, hkept hp ▸ hb⟩
  have htable : ∀ {b j n}, j ≠ i → own b = some (.table j n) → ¬PageOf own pte i b := by
    rintro b j n hne hb (⟨m, hm⟩ | ⟨l, hl⟩)
    · rw [hb] at hm
      exact hne (Owner.table.inj (Option.some.inj hm)).1
    · rw [h.users.owner hl] at hb
      cases hb
  have hlabels : ∀ {j}, j ≠ i → labels own' j = labels own j := fun {j} hne =>
    labels_congr fun b n => ⟨fun hb => (hold hb (fun h => by cases h) fun h => by cases h).2, fun hb => by
      rw [hkept (htable hne hb), hb]⟩
  have hvalid : ∀ {j l}, (upd pte i (fun _ => 0) j (uva l)).isV = true →
      j ≠ i ∧ upd pte i (fun _ => 0) j (uva l) = pte j (uva l) := by
    intro j l hv
    rcases eq_or_ne j i with rfl | hne
    · rw [upd_self] at hv
      cases hv
    · exact ⟨hne, by rw [upd_of_ne hne]⟩
  have hmap : ∀ {x b}, mapping (upd pte i fun _ => 0) x = some b ↔ x.1 ≠ i ∧ mapping pte x = some b := by
    rintro ⟨j, l⟩ b
    unfold mapping
    rcases eq_or_ne j i with rfl | hne
    · rw [upd_self, Pte.target_none Pte.isV_zero]
      exact ⟨fun h => (by cases h), fun h => absurd rfl h.1⟩
    · rw [upd_of_ne hne]
      exact ⟨fun h => ⟨hne, h⟩, And.right⟩
  -- a page that someone else maps is none of the pages of `i`
  have hother : ∀ {j l}, j ≠ i → (pte j (uva l)).isV = true → ¬PageOf own pte i (pte j (uva l)).asPa := by
    rintro j l hne hv (⟨n, hn⟩ | ⟨m, hm⟩)
    · rw [(h.users.leaf hv).2] at hn
      cases hn
    · obtain ⟨hvm, hpa⟩ := mapping_eq_some.1 hm
      have hone := halone m hvm
      have heq := eq_of_uses_one hone (mapping_eq_some.2 ⟨hv, hpa.symm⟩) (mapping_eq_some.2 ⟨hvm, rfl⟩)
      exact hne (Prod.mk.inj heq).1
  have huses : ∀ {b}, ¬PageOf own pte i b → uses (mapping (upd pte i fun _ => 0)) b = uses (mapping pte) b := by
    intro b hb
    refine uses_congr fun x => hmap.trans ⟨And.right, fun hx => ⟨?_, hx⟩⟩
    rintro rfl
    exact hb (.inr ⟨x.2, hx⟩)
  refine ⟨⟨fun {j r'} hj => ?_, fun {j r'} hj va hal hva => ?_, fun {j} hj b n hb => ?_, fun {j} hj va => ?_⟩,
    ⟨fun {b o} hb => ?_, fun {b} hb => ?_, fun {b} hb {n} hn => ?_⟩,
    ⟨fun {j l} hv => ?_, fun {j l m b} h1 h2 => ?_, fun {b} hb => ?_, fun {j l} hv hw => ?_⟩,
    fun j l off hoff => ?_⟩
  · rcases eq_or_ne j i with rfl | hne
    · rw [upd_self] at hj
      cases hj
    · rw [upd_of_ne hne] at hj
      rw [hlabels hne]
      exact h.trees.radix hj
  · rcases eq_or_ne j i with rfl | hne
    · rw [upd_self] at hj
      cases hj
    · rw [upd_of_ne hne] at hj ⊢
      exact h.trees.entry hj va hal hva
  · obtain ⟨hnot, hb⟩ := hold hb (fun h => by cases h) fun h => by cases h
    rcases eq_or_ne j i with rfl | hne
    · exact hnot (.inl ⟨n, hb⟩)
    · rw [upd_of_ne hne] at hj
      exact h.trees.dead hj b n hb
  · rcases eq_or_ne j i with rfl | hne
    · rw [upd_self]
    · rw [upd_of_ne hne] at hj ⊢
      exact h.trees.blank hj va
  · by_cases hp : PageOf own pte i b
    · rcases hp with ⟨n, hn⟩ | ⟨l, hl⟩
      · exact h.pages.page hn
      · exact h.userPage (h.users.owner hl)
    · rw [hkept hp] at hb
      exact h.pages.page hb
  · rw [h.pages.used hb]
    by_cases hp : PageOf own pte i b
    · have hsome : own' b ≠ none := by
        rcases hgone hp with hg | hg <;> rw [hg] <;> exact Option.some_ne_none _
      refine ⟨fun _ => hsome, fun _ => ?_⟩
      rcases hp with ⟨n, hn⟩ | ⟨l, hl⟩
      · rw [hn]
        exact Option.some_ne_none _
      · rw [h.users.owner hl]
        exact Option.some_ne_none _
    · rw [hkept hp]
  · by_cases hp : PageOf own pte i b
    · have hone : n = 1 := by
        rcases hgone hp with hg | hg <;> rw [hg] at hn <;> exact (Option.some.inj hn).symm
      subst hone
      rcases hp with ⟨m, hm⟩ | ⟨l, hl⟩
      · exact hrad.refs (labels_eq_some.2 hm)
      · obtain ⟨hv, rfl⟩ := mapping_eq_some.1 hl
        have hcount := (h.users.count (h.users.owner hl)).1
        rw [halone l hv] at hcount
        exact UInt8.toNat_inj.1 hcount
    · rw [hkept hp] at hn
      exact h.pages.count hb hn
  · obtain ⟨hne, heq⟩ := hvalid hv
    rw [heq] at hv ⊢
    rw [hkept (hother hne hv)]
    exact h.users.leaf hv
  · exact h.users.inj (hmap.1 h1).2 (hmap.1 h2).2
  · obtain ⟨hnot, hb⟩ := hold hb (fun h => by cases h) fun h => by cases h
    rw [huses hnot]
    exact h.users.count hb
  · obtain ⟨hne, heq⟩ := hvalid hv
    rw [heq] at hv hw ⊢
    rw [huses (hother hne hv)]
    exact h.users.excl hv hw
  · rcases eq_or_ne j i with rfl | hne
    · rw [upd_self, hzero l off hoff, Pte.isV_zero]
      rfl
    · rw [upd_of_ne hne, hmem hne]
      exact h.views j l off hoff

/-- The owners after the tables of an address space became pages of the kernel. -/
def detachOwner (own : ℕ → Option (Owner ι)) (i : ι) (b : ℕ) : Option (Owner ι) :=
  match labels own i b with
  | some _ => some .kernel
  | none => own b

/-- An address space without pages is given up; its tables are now pages of the kernel. -/
theorem MemOk.detach (h : MemOk vm roots own pte mem) (hr : roots i = some r)
    (hempty : ∀ l, (pte i (uva l)).isV = false) :
    MemOk vm (upd roots i none) (detachOwner own i) (upd pte i fun _ => 0) mem := by
  refine h.leave hr (fun k hv => ?_) (fun {b} hb => ?_) (fun {b} hb => ?_) (fun _ => rfl) fun l off hoff => ?_
  · rw [hempty] at hv
    cases hv
  · rcases hb with ⟨n, hn⟩ | ⟨l, hl⟩
    · unfold detachOwner
      rw [labels_eq_some.2 hn]
      exact .inl rfl
    · rw [mapping, Pte.target_none (hempty l)] at hl
      cases hl
  · unfold detachOwner
    cases hl : labels own i b with
    | none => rfl
    | some n => exact absurd (.inl ⟨n, labels_eq_some.1 hl⟩) hb
  · rw [h.views i l off hoff, hempty]
    rfl

open Classical in
/-- The owners after an address space was lost. -/
noncomputable def forgetOwner (own : ℕ → Option (Owner ι)) (pte : ι → ℕ → Pte) (i : ι) (b : ℕ) :
    Option (Owner ι) :=
  if PageOf own pte i b then some (.static 1) else own b

/-- An address space that shares no page is lost: its pages stay in use forever. -/
theorem MemOk.forget (h : MemOk vm roots own pte mem) (hr : roots i = some r)
    (halone : Alone pte i) (hmem : ∀ {j}, j ≠ i → mem' j = mem j)
    (hzero : ∀ l off, off < PGSIZE → mem' i (uva l + off) = 0) :
    MemOk vm (upd roots i none) (forgetOwner own pte i) (upd pte i fun _ => 0) mem' :=
  h.leave hr halone (fun hb => .inr (if_pos hb)) (fun hb => if_neg hb) hmem hzero

/-- Another name for the owner of a table. -/
def Owner.rename (f : ι → ι) : Owner ι → Owner ι
  | .table i n => .table (f i) n
  | .user => .user
  | .kernel => .kernel
  | .static n => .static n

omit [DecidableEq ι] [Fintype ι] in
theorem map_rename {f : ι → ι} (ho : ∀ i n, o ≠ .table i n) :
    x.map (Owner.rename f) = some o ↔ x = some o := by
  cases x with
  | none => rfl
  | some o' =>
    cases o' with
    | table i n =>
      exact ⟨fun h => absurd (Option.some.inj h).symm (ho _ n), fun h => absurd (Option.some.inj h).symm (ho i n)⟩
    | user => rfl
    | kernel => rfl
    | static n => rfl

theorem MemOk.rename (h : MemOk vm roots own pte mem) (e : Equiv.Perm ι) :
    MemOk vm (fun i => roots (e i)) (fun a => (own a).map (Owner.rename e.symm)) (fun i =>
          pte (e i)) fun i => mem (e i) := by
  have htable : ∀ {a i n}, (own a).map (Owner.rename e.symm) = some (.table i n) ↔ own a = some (.table (e i) n) := by
    intro a i n
    cases own a with
    | none => exact ⟨fun h => (by cases h), fun h => (by cases h)⟩
    | some o =>
      cases o with
      | table j m => simp [Owner.rename, Equiv.symm_apply_eq]
      | user => simp [Owner.rename]
      | kernel => simp [Owner.rename]
      | static n => simp [Owner.rename]
  have hlabels : ∀ i, labels (fun a => (own a).map (Owner.rename e.symm)) i = labels own (e i) := by
    intro i
    funext a
    refine Option.ext fun n => ?_
    rw [labels_eq_some, labels_eq_some, htable]
  have hmap : (mapping fun i => pte (e i)) = fun x => mapping pte (e.prodCongr (Equiv.refl _) x) := rfl
  have huses : ∀ a, uses (mapping fun i => pte (e i)) a = uses (mapping pte) a := fun a => by
    rw [hmap, uses_comp]
  refine ⟨⟨fun {i r} hr => ?_, fun {i r} hr => h.trees.entry hr, fun {i} hr a n ha =>
      h.trees.dead hr a n (htable.1 ha), fun {i} hr => h.trees.blank hr⟩,
    ⟨fun {a o} ha => ?_, fun {a} ha => ?_, fun {a} ha {n} hn => h.pages.count ha ?_⟩,
    ⟨fun {i k} hv => ?_, fun {i k l a} => h.users.inj (i := e i), fun {a} ha => ?_, fun {i k} hv hw => ?_⟩,
    fun i => h.views (e i)⟩
  · rw [hlabels]
    exact h.trees.radix hr
  · cases ho : own a with
    | none => rw [ho] at ha; cases ha
    | some o' => exact h.pages.page ho
  · rw [h.pages.used ha, ne_eq, ne_eq, Option.map_eq_none_iff]
  · rw [← hn]
    cases own a with
    | none => rfl
    | some o => cases o <;> rfl
  · refine ⟨(h.users.leaf hv).1, (map_rename fun _ _ h => by cases h).2 (h.users.leaf hv).2⟩
  · rw [huses]
    exact h.users.count ((map_rename fun _ _ h => by cases h).1 ha)
  · rw [huses]
    exact h.users.excl hv hw

end MemOk

end Octopos
