import Octopos.Vm.PageTable

/-!
# A page table is a finite map

A page table is a tree of table pages with three levels. `Radix s root lab` says that the pages of
the tree at `root` are those that `lab` labels with their place in the tree. Since a page has one
label, the places of the entries of two addresses are different, and a change of one entry leaves
the others alone.
-/

namespace Octopos

/-- The places of the pages of a page table. -/
inductive Node
  | root
  | dir (i : Fin 512)
  | leaf (i j : Fin 512)
  deriving DecidableEq, Repr

namespace Node

/-- The place that entry `i` of a table points to. -/
def child : Node → Fin 512 → Option Node
  | root, i => some (dir i)
  | dir i, j => some (leaf i j)
  | leaf _ _, _ => none

variable {n n' c : Node} {i i' : Fin 512}

theorem child_inj (h : n.child i = some c) (h' : n'.child i' = some c) : n = n' ∧ i = i' := by
  cases n <;> cases n' <;> cases h <;> cases h' <;> exact ⟨rfl, rfl⟩

theorem child_ne_root (h : n.child i = some c) : c ≠ root := by
  cases n <;> cases h <;> exact Node.noConfusion

theorem child_ne (h : n.child i = some c) : c ≠ n := by
  cases n <;> cases h <;> exact Node.noConfusion

end Node

/-- The address of a page of physical memory. -/
structure IsPage (a : ℕ) : Prop where
  aligned : a % PGSIZE = 0
  base : KERNBASE ≤ a
  top : a < PHYSTOP

/-- The number of a page from `KERNBASE` on. -/
def pageIndex (a : ℕ) : ℕ := (a - KERNBASE) / PGSIZE

/-- The pages of the page table at `rt` are those with a label, which says where they stand. -/
structure Radix (s : Vm) (rt : ℕ) (lab : ℕ → Option Node) : Prop where
  root : ∀ a, lab a = some .root ↔ a = rt
  child : ∀ {d n i c}, lab d = some n → n.child i = some c → ∀ a,
    lab a = some c ↔ (s.table d i).isV = true ∧ (s.table d i).asPa = a
  parent : ∀ {a c}, lab a = some c → c ≠ .root → ∃ d n i, lab d = some n ∧ n.child i = some c
  inner : ∀ {d n i c}, lab d = some n → n.child i = some c → (s.table d i).isLeaf = false
  half : ∀ {a i}, lab a = some (.dir i) → i.val < 256
  page : ∀ {a n}, lab a = some n → IsPage a
  used : ∀ {a n}, lab a = some n → s.used a = true
  refs : ∀ {a n}, lab a = some n → s.refs (pageIndex a) = 1

section Radix

variable {s s' : Vm} {root va : ℕ} {lab lab' : ℕ → Option Node}

section

variable (h : Radix s root lab)
include h

theorem Radix.dir (i : Fin 512) (a : ℕ) :
    lab a = some (.dir i) ↔ (s.table root i).isV = true ∧ (s.table root i).asPa = a :=
  h.child ((h.root root).2 rfl) rfl a

theorem Radix.leaf (i j : Fin 512) (a : ℕ) :
    lab a = some (.leaf i j) ↔ ∃ d, lab d = some (.dir i) ∧ (s.table d j).isV = true ∧
    (s.table d j).asPa = a := by
  constructor
  · intro ha
    obtain ⟨d, n, k, hd, hc⟩ := h.parent ha Node.noConfusion
    obtain ⟨rfl, rfl⟩ : n = .dir i ∧ k = j := Node.child_inj hc rfl
    exact ⟨d, hd, (h.child hd rfl a).1 ha⟩
  · rintro ⟨d, hd, hv⟩
    exact (h.child hd rfl a).2 hv

theorem Radix.inj {a b : ℕ} {n : Node} (ha : lab a = some n) (hb : lab b = some n) : a = b := by
  cases n with
  | root => exact ((h.root a).1 ha).trans ((h.root b).1 hb).symm
  | dir i => exact ((h.dir i a).1 ha).2.symm.trans ((h.dir i b).1 hb).2
  | leaf i j =>
    obtain ⟨d, hd, -, rfl⟩ := (h.leaf i j a).1 ha
    obtain ⟨d', hd', -, rfl⟩ := (h.leaf i j b).1 hb
    rw [((h.dir i d).1 hd).2.symm.trans ((h.dir i d').1 hd').2]

/-- The entry of an address stands in the leaf table that its indices name. -/
theorem Radix.entry_of_leaf {t : ℕ} (ht : lab t = some (.leaf (px 2 va) (px 1 va))) :
    s.entry root va = s.table t (px 0 va) := by
  obtain ⟨d, hd, hv, rfl⟩ := (h.leaf _ _ _).1 ht
  obtain ⟨hv', rfl⟩ := (h.dir _ _).1 hd
  unfold Vm.entry
  dsimp only
  rw [if_pos hv', if_pos hv]

theorem Radix.entry_of_none (hnone : ∀ t, lab t ≠ some (.leaf (px 2 va) (px 1 va))) :
    s.entry root va = 0 := by
  unfold Vm.entry
  dsimp only
  split_ifs with hv hv'
  · refine absurd ?_ (hnone (s.table (s.table root (px 2 va)).asPa (px 1 va)).asPa)
    exact (h.leaf _ _ _).2 ⟨_, (h.dir _ _).2 ⟨hv, rfl⟩, hv', rfl⟩
  · rfl
  · rfl

theorem Radix.entry_eq (h' : Radix s' root lab') (hext : ∀ t n, lab t = some n → lab' t = some n)
    (hold : ∀ t i j, lab t = some (.leaf i j) → s'.table t = s.table t)
    (hnew : ∀ t i j, lab t = none → lab' t = some (.leaf i j) → s'.table t = fun _ => 0) (va : ℕ) :
    s'.entry root va = s.entry root va := by
  by_cases hlab' : ∃ t, lab' t = some (.leaf (px 2 va) (px 1 va))
  · obtain ⟨t, ht'⟩ := hlab'
    rw [h'.entry_of_leaf ht']
    cases ht : lab t with
    | some n =>
      have hn := hext t n ht
      rw [ht', Option.some.injEq] at hn
      subst hn
      rw [h.entry_of_leaf ht, hold t _ _ ht]
    | none =>
      rw [hnew t _ _ ht ht']
      refine (h.entry_of_none fun t0 ht0 => ?_).symm
      -- the place would have two pages
      rw [h'.inj (hext _ _ ht0) ht', ht] at ht0
      cases ht0
  · rw [h'.entry_of_none fun t ht => hlab' ⟨t, ht⟩, h.entry_of_none fun t ht => hlab' ⟨t, hext _ _ ht⟩]

theorem Radix.ne_zero {a : ℕ} {n : Node} (ha : lab a = some n) : a ≠ 0 := by
  have hbase : KERNBASE = 0x80000000 := rfl
  have := (h.page ha).base
  omega

end

theorem pageIndex_inj {a b : ℕ} (ha : IsPage a) (hb : IsPage b) (h : pageIndex a = pageIndex b) :
    a = b := by
  obtain ⟨ha, hba, -⟩ := ha
  obtain ⟨hb, hbb, -⟩ := hb
  have hpg : PGSIZE = 4096 := rfl
  have hbase : KERNBASE = 0x80000000 := rfl
  unfold pageIndex at h
  rw [hpg] at ha hb h
  rw [hbase] at hba hbb h
  omega

/-- The pages that satisfy `P` are the same in two memories. -/
structure SameOn (P : ℕ → Prop) (s s' : Vm) : Prop where
  table : ∀ a, IsPage a → P a → s'.table a = s.table a
  data : ∀ a, IsPage a → P a → s'.data a = s.data a
  used : ∀ a, IsPage a → P a → s'.used a = s.used a
  refs : ∀ a, IsPage a → P a → s'.refs (pageIndex a) = s.refs (pageIndex a)

theorem SameOn.refl (P : ℕ → Prop) (s : Vm) : SameOn P s s :=
  ⟨fun _ _ _ => rfl, fun _ _ _ => rfl, fun _ _ _ => rfl, fun _ _ _ => rfl⟩

theorem SameOn.mono {P P' : ℕ → Prop} (h : SameOn P s s') (hP : ∀ a, P' a → P a) : SameOn P' s s' :=
  ⟨fun a ha hp => h.table a ha (hP a hp), fun a ha hp => h.data a ha (hP a hp),
    fun a ha hp => h.used a ha (hP a hp), fun a ha hp => h.refs a ha (hP a hp)⟩

theorem SameOn.trans {P : ℕ → Prop} {s'' : Vm} (h : SameOn P s s') (h' : SameOn P s' s'') :
    SameOn P s s'' :=
  ⟨fun a ha hp => (h'.table a ha hp).trans (h.table a ha hp),
    fun a ha hp => (h'.data a ha hp).trans (h.data a ha hp),
    fun a ha hp => (h'.used a ha hp).trans (h.used a ha hp),
    fun a ha hp => (h'.refs a ha hp).trans (h.refs a ha hp)⟩

theorem SameOn.at (hs : SameOn (fun a => lab a ≠ none) s s') (h : Radix s root lab) {a : ℕ}
    {n : Node} (ha : lab a = some n) :
    s'.table a = s.table a ∧ s'.used a = s.used a ∧
    s'.refs (pageIndex a) = s.refs (pageIndex a) := by
  have hne : lab a ≠ none := by
    rw [ha]
    exact Option.some_ne_none n
  exact ⟨hs.table a (h.page ha) hne, hs.used a (h.page ha) hne, hs.refs a (h.page ha) hne⟩

theorem Radix.congr (h : Radix s root lab) (hs : SameOn (fun a => lab a ≠ none) s s') :
    Radix s' root lab where
  root := h.root
  child hd hc := (hs.at h hd).1 ▸ h.child hd hc
  parent := h.parent
  inner hd hc := (hs.at h hd).1 ▸ h.inner hd hc
  half := h.half
  page := h.page
  used ha := (hs.at h ha).2.1.trans (h.used ha)
  refs ha := (hs.at h ha).2.2.trans (h.refs ha)

theorem Radix.entry_congr (h : Radix s root lab) (hs : SameOn (fun a => lab a ≠ none) s s')
    (va : ℕ) : s'.entry root va = s.entry root va := by
  refine h.entry_eq (h.congr hs) (fun _ _ ht => ht) (fun t i j ht => (hs.at h ht).1) (fun t i j ht ht' => ?_) va
  rw [ht] at ht'
  cases ht'

end Radix

section Pages

variable {A : Allocator} {s : Vm} {E : VmPanic → Prop}

theorem pageRef_wp {pa : ℕ} {Q : ℕ → Vm → Prop} (hpa : IsPage pa) (hQ : Q (pageIndex pa) s) :
    wp (pageRef pa) Q E s := by
  have hpg : PGSIZE = 4096 := rfl
  have hb : KERNBASE = 0x80000000 := rfl
  have ht : PHYSTOP = 0x88000000 := rfl
  obtain ⟨-, hbase, htop⟩ := hpa
  unfold pageRef
  rw [if_neg]
  · exact wp_pure.2 hQ
  · rw [hpg, ht, hb]
    rw [hb] at hbase
    rw [ht] at htop
    omega

/-- The memory after a page is given out. -/
def Vm.give (s : Vm) (pa : ℕ) : Vm :=
  { s with
    table := upd s.table pa fun _ => 0
    data := upd s.data pa fun _ => 0
    used := upd s.used pa true
    refs := upd s.refs (pageIndex pa) 1
    requests := s.requests + 1 }

theorem pageAlloc_wp {Q : Option ℕ → Vm → Prop}
    (hnone : Q none { s with requests := s.requests + 1 })
    (hok : ∀ pa, IsPage pa → s.used pa = false → Q (some pa) (s.give pa)) :
    wp (pageAlloc A) Q E s := by
  unfold pageAlloc
  refine wp_bind.2 (wp_get.2 ?_)
  cases hpick : A.pick s.requests s.used with
  | none => exact wp_bind.2 (wp_set.2 (wp_pure.2 hnone))
  | some pa =>
    have hpa : IsPage pa := ⟨A.aligned hpick, A.base hpick, A.top hpick⟩
    refine wp_bind.2 (pageRef_wp hpa (wp_bind.2 (wp_set.2 (wp_pure.2 ?_))))
    exact hok pa hpa (A.unused hpick)

theorem Vm.give_same (s : Vm) {pa : ℕ} (hpa : IsPage pa) :
    SameOn (fun a => a ≠ pa) s (s.give pa) where
  table _ _ hne := upd_of_ne hne
  data _ _ hne := upd_of_ne hne
  used _ _ hne := upd_of_ne hne
  refs _ ha hne := upd_of_ne fun h => hne (pageIndex_inj ha hpa h)

def Vm.write (s : Vm) (t : ℕ) (i : Fin 512) (e : Pte) : Vm :=
  { s with table := upd s.table t (upd (s.table t) i e) }

theorem Vm.write_same (s : Vm) (t : ℕ) (i : Fin 512) (e : Pte) :
    SameOn (fun a => a ≠ t) s (s.write t i e) where
  table _ _ hne := upd_of_ne hne
  data _ _ _ := rfl
  used _ _ _ := rfl
  refs _ _ _ := rfl

end Pages

/-! ## Growing -/

/-- A page table that got more tables and otherwise stayed as it was. -/
structure TreeGrown (s s' : Vm) (root : ℕ) (lab lab' : ℕ → Option Node) : Prop where
  radix : Radix s' root lab'
  ext : ∀ a n, lab a = some n → lab' a = some n
  fresh : ∀ a, lab a = none → lab' a ≠ none → s.used a = false
  entry : ∀ va, s'.entry root va = s.entry root va
  frame : SameOn (fun a => lab' a = none) s s'

section TreeGrown

variable {s s' s'' : Vm} {root page : ℕ} {lab lab' lab'' : ℕ → Option Node}

theorem TreeGrown.refl (h : Radix s root lab) : TreeGrown s s root lab lab :=
  ⟨h, fun _ _ ha => ha, fun _ ha ha' => absurd ha ha', fun _ => rfl, .refl _ _⟩

theorem TreeGrown.trans (h : TreeGrown s s' root lab lab') (h' : TreeGrown s' s'' root lab' lab'') :
    TreeGrown s s'' root lab lab'' := by
  have hnone : ∀ a, lab'' a = none → lab' a = none := by
    intro a ha
    by_contra hne
    obtain ⟨n, hn⟩ := Option.ne_none_iff_exists'.1 hne
    rw [h'.ext a n hn] at ha
    cases ha
  refine ⟨h'.radix, fun a n ha => h'.ext a n (h.ext a n ha), fun a ha ha' => ?_,
    fun va => (h'.entry va).trans (h.entry va), (h.frame.mono hnone).trans h'.frame⟩
  by_cases hmid : lab' a = none
  · obtain ⟨n, hn⟩ := Option.ne_none_iff_exists'.1 ha'
    rw [← h.frame.used a (h'.radix.page hn) hmid]
    exact h'.fresh a hmid ha'
  · exact h.fresh a ha hmid

/-- A new table is hung into entry `i` of the table `t`. -/
def Vm.hang (s : Vm) (t : ℕ) (i : Fin 512) (page : ℕ) : Vm :=
  (s.give page).write t i (paToPte page ||| PTE_V)

theorem asPa_table (hpage : IsPage page) : Pte.asPa (paToPte page ||| PTE_V) = page := by
  refine asPa_paToPte (hpage.top.trans (by decide)) hpage.aligned (by decide)

theorem isV_table (page : ℕ) : Pte.isV (paToPte page ||| PTE_V) = true := by
  rw [isV_install]
  decide

theorem isLeaf_table (page : ℕ) : Pte.isLeaf (paToPte page ||| PTE_V) = false := by
  rw [isLeaf_install]
  decide

section Hang

variable {t : ℕ} {i : Fin 512}

theorem Vm.hang_same (s : Vm) (t : ℕ) (i : Fin 512) (hpage : IsPage page) :
    SameOn (fun a => a ≠ page ∧ a ≠ t) s (s.hang t i page) :=
  ((s.give_same hpage).mono fun _ h => h.1).trans (((s.give page).write_same t i _).mono fun _ h => h.2)

theorem Vm.hang_parent (s : Vm) (i : Fin 512) (hne : t ≠ page) :
    (s.hang t i page).table t = upd (s.table t) i (paToPte page ||| PTE_V) := by
  change upd _ t (upd (upd s.table page _ t) i _) t = _
  rw [upd_self, upd_of_ne hne]

theorem Vm.hang_page (s : Vm) (i : Fin 512) (hne : t ≠ page) :
    (s.hang t i page).table page = fun _ => 0 := by
  change upd (upd s.table page _) t _ page = _
  rw [upd_of_ne hne.symm, upd_self]

theorem Radix.grow {n c : Node} (h : Radix s root lab) (ht : lab t = some n)
    (hc : n.child i = some c) (hhalf : ∀ j, c = .dir j → j.val < 256)
    (hv : ¬(s.table t i).isV = true) (hpage : IsPage page) (hused : s.used page = false) :
    TreeGrown s (s.hang t i page) root lab (upd lab page (some c)) := by
  have hnew : lab page = none := by
    by_contra hne
    obtain ⟨m, hm⟩ := Option.ne_none_iff_exists'.1 hne
    rw [h.used hm] at hused
    cases hused
  have hold : ∀ {a m}, lab a = some m → a ≠ page := by
    rintro a m ha rfl
    rw [hnew] at ha
    cases ha
  have hvacant : ∀ a, lab a ≠ some c := fun a ha => hv ((h.child ht hc a).1 ha).1
  have hlab : ∀ {a m}, lab a = some m → upd lab page (some c) a = some m := fun ha => by
    rw [upd_of_ne (hold ha), ha]
  have hne : t ≠ page := hold ht
  have hsame := s.hang_same t i hpage
  -- the other places have the pages that they had
  have hother : ∀ {m}, m ≠ c → ∀ a, upd lab page (some c) a = some m ↔ lab a = some m := by
    intro m hm a
    rcases eq_or_ne a page with rfl | ha
    · rw [upd_self, hnew, Option.some.injEq]
      exact ⟨fun h => absurd h.symm hm, fun h => (by cases h)⟩
    · rw [upd_of_ne ha]
  -- only one entry of the old tables changes
  have htable : ∀ {d m k b}, lab d = some m → m.child k = some b → b ≠ c →
      (s.hang t i page).table d k = s.table d k := by
    intro d m k b hd hb hbc
    rcases eq_or_ne d t with rfl | hdt
    · rw [s.hang_parent i hne, upd_of_ne]
      rintro rfl
      rw [ht, Option.some.injEq] at hd
      subst hd
      rw [hc, Option.some.injEq] at hb
      exact hbc hb.symm
    · rw [hsame.table d (h.page hd) ⟨hold hd, hdt⟩]
  have hradix : Radix (s.hang t i page) root (upd lab page (some c)) := by
    refine ⟨fun a => ?_, fun {d m k b} hd hb a => ?_, fun {a b} ha hb => ?_, fun {d m k b} hd hb => ?_,
      fun {a j} ha => ?_, fun {a m} ha => ?_, fun {a m} ha => ?_, fun {a m} ha => ?_⟩
    · exact (hother (Node.child_ne_root hc).symm a).trans (h.root a)
    · rcases eq_or_ne d page with rfl | hdp
      · -- the new table is blank
        rw [upd_self, Option.some.injEq] at hd
        subst hd
        rw [s.hang_page i hne, Pte.isV_zero, hother (Node.child_ne hb)]
        refine ⟨fun ha => ?_, fun ha => (by cases ha.1)⟩
        obtain ⟨d', m', k', hd', hb'⟩ := h.parent ha (Node.child_ne_root hb)
        rw [(Node.child_inj hb' hb).1] at hd'
        exact absurd hd' (hvacant d')
      · rw [upd_of_ne hdp] at hd
        rcases eq_or_ne b c with rfl | hbc
        · obtain ⟨rfl, rfl⟩ := Node.child_inj hb hc
          obtain rfl := h.inj hd ht
          rw [s.hang_parent k hne, upd_self, isV_table, asPa_table hpage]
          refine ⟨fun ha => ⟨rfl, ?_⟩, fun ha => ?_⟩
          · by_contra hap
            rw [upd_of_ne (Ne.symm hap)] at ha
            exact hvacant a ha
          · rw [← ha.2, upd_self]
        · rw [htable hd hb hbc, hother hbc]
          exact h.child hd hb a
    · rcases eq_or_ne b c with rfl | hbc
      · exact ⟨t, n, i, hlab ht, hc⟩
      · obtain ⟨d, m, k, hd, hk⟩ := h.parent ((hother hbc a).1 ha) hb
        exact ⟨d, m, k, hlab hd, hk⟩
    · rcases eq_or_ne d page with rfl | hdp
      · rw [s.hang_page i hne]
        exact Pte.isLeaf_zero
      · rw [upd_of_ne hdp] at hd
        rcases eq_or_ne b c with rfl | hbc
        · obtain ⟨rfl, rfl⟩ := Node.child_inj hb hc
          obtain rfl := h.inj hd ht
          rw [s.hang_parent k hne, upd_self]
          exact isLeaf_table page
        · rw [htable hd hb hbc]
          exact h.inner hd hb
    · rcases eq_or_ne a page with rfl | hap
      · rw [upd_self, Option.some.injEq] at ha
        exact hhalf j ha
      · rw [upd_of_ne hap] at ha
        exact h.half ha
    · rcases eq_or_ne a page with rfl | hap
      · exact hpage
      · rw [upd_of_ne hap] at ha
        exact h.page ha
    · change upd s.used page true a = true
      rcases eq_or_ne a page with rfl | hap
      · exact upd_self _ _ _
      · rw [upd_of_ne hap] at ha ⊢
        exact h.used ha
    · change upd s.refs (pageIndex page) 1 (pageIndex a) = 1
      rcases eq_or_ne a page with rfl | hap
      · exact upd_self _ _ _
      · rw [upd_of_ne hap] at ha
        rw [upd_of_ne fun heq => hap (pageIndex_inj (h.page ha) hpage heq)]
        exact h.refs ha
  refine ⟨hradix, fun a m ha => hlab ha, fun a ha ha' => ?_, h.entry_eq hradix (fun _ _ ha => hlab ha)
    (fun d j k hd => ?_) (fun d j k hd hd' => ?_), hsame.mono fun a ha => ?_⟩
  · rcases eq_or_ne a page with rfl | hap
    · exact hused
    · rw [upd_of_ne hap] at ha'
      exact absurd ha ha'
  · refine hsame.table d (h.page hd) ⟨hold hd, ?_⟩
    rintro rfl
    rw [ht, Option.some.injEq] at hd
    subst hd
    cases hc
  · rcases eq_or_ne d page with rfl | hdp
    · exact s.hang_page i hne
    · rw [upd_of_ne hdp, hd] at hd'
      cases hd'
  · refine ⟨?_, ?_⟩
    · rintro rfl
      rw [upd_self] at ha
      cases ha
    · rintro rfl
      rw [hlab ht] at ha
      cases ha

end Hang

end TreeGrown

section Walk

variable {A : Allocator} {s s' : Vm} {root va t level : ℕ} {alloc : Bool}
  {lab lab' : ℕ → Option Node} {E : VmPanic → Prop}
variable {Q : Except VmError ℕ → Vm → Prop}

theorem walkLevel_found (hv : (s.table t (px level va)).isV = true)
    (hne : (s.table t (px level va)).asPa ≠ 0) (hQ : Q (.ok (s.table t (px level va)).asPa) s) :
    wp (PageTable.walkLevel A t va level alloc) Q E s := by
  refine wp_bind.2 (wp_bind.2 (wp_get.2 (wp_pure.2 ?_)))
  rw [if_pos hv, if_neg hne]
  exact hQ

theorem walkLevel_missing (hv : ¬(s.table t (px level va)).isV = true)
    (hQ : Q (.error .invalidPage) s) : wp (PageTable.walkLevel A t va level false) Q E s := by
  refine wp_bind.2 (wp_bind.2 (wp_get.2 (wp_pure.2 ?_)))
  rw [if_neg hv, if_pos (by rfl)]
  exact hQ

theorem walkLevel_create (hv : ¬(s.table t (px level va)).isV = true)
    (hnone : Q (.error .alloc) { s with requests := s.requests + 1 })
    (hok : ∀ page, IsPage page → s.used page = false → Q (.ok page) (s.hang t (px level va) page)) :
    wp (PageTable.walkLevel A t va level true) Q E s := by
  refine wp_bind.2 (wp_bind.2 (wp_get.2 (wp_pure.2 ?_)))
  rw [if_neg hv, if_neg (by decide)]
  refine wp_bind.2 (pageAlloc_wp (wp_pure.2 hnone) fun page hpage hused => ?_)
  exact wp_bind.2 (wp_modify.2 (wp_pure.2 (hok page hpage hused)))

theorem walkRaw_find {Q : Except VmError (ℕ × Fin 512) → Vm → Prop} (h : Radix s root lab)
    (hbig : MAXVA ≤ va → Q (.error .invalidAddress) s)
    (hnone : va < MAXVA → (∀ t, lab t ≠ some (.leaf (px 2 va) (px 1 va))) →
      Q (.error .invalidPage) s)
    (hok : ∀ t, va < MAXVA → lab t = some (.leaf (px 2 va) (px 1 va)) → Q (.ok (t, px 0 va)) s) :
    wp (PageTable.walkRaw A root va false) Q E s := by
  refine wp_ite (fun hva => hbig hva) fun hva => ?_
  rw [not_le] at hva
  by_cases hv : (s.table root (px 2 va)).isV = true
  · have hd := (h.dir _ _).2 ⟨hv, rfl⟩
    refine wp_bind.2 (walkLevel_found hv (h.ne_zero hd) ?_)
    by_cases hv' : (s.table (s.table root (px 2 va)).asPa (px 1 va)).isV = true
    · have hl := (h.leaf _ _ _).2 ⟨_, hd, hv', rfl⟩
      refine wp_bind.2 (walkLevel_found hv' (h.ne_zero hl) ?_)
      exact hok _ hva hl
    · refine wp_bind.2 (walkLevel_missing hv' (hnone hva fun t ht => hv' ?_))
      obtain ⟨d, hd', hvd, -⟩ := (h.leaf _ _ _).1 ht
      rwa [← ((h.dir _ _).1 hd').2] at hvd
  · refine wp_bind.2 (walkLevel_missing hv (hnone hva fun t ht => hv ?_))
    obtain ⟨d, hd, -⟩ := (h.leaf _ _ _).1 ht
    exact ((h.dir _ _).1 hd).1

theorem TreeGrown.request (h : Radix s root lab) :
    TreeGrown s { s with requests := s.requests + 1 } root lab lab := by
  have hs : ∀ P, SameOn P s { s with requests := s.requests + 1 } := fun P =>
    ⟨fun _ _ _ => rfl, fun _ _ _ => rfl, fun _ _ _ => rfl, fun _ _ _ => rfl⟩
  exact ⟨h.congr (hs _), fun _ _ ha => ha, fun _ ha ha' => absurd ha ha', fun va => h.entry_congr (hs _) va, hs _⟩

/-- The place in the last table. -/
def lastEntry (va : ℕ) : Except VmError ℕ → VmM (Except VmError (ℕ × Fin 512))
  | .error e => pure (.error e)
  | .ok table => pure (.ok (table, px 0 va))

theorem walkRaw_create {Q : Except VmError (ℕ × Fin 512) → Vm → Prop} (h : Radix s root lab)
    (hbig : MAXVA ≤ va → Q (.error .invalidAddress) s)
    (hnone : ∀ s' lab', va < MAXVA → TreeGrown s s' root lab lab' → Q (.error .alloc) s')
    (hok : ∀ t s' lab', va < MAXVA → TreeGrown s s' root lab lab' →
      lab' t = some (.leaf (px 2 va) (px 1 va)) → Q (.ok (t, px 0 va)) s') :
    wp (PageTable.walkRaw A root va true) Q E s := by
  refine wp_ite (fun hva => hbig hva) fun hva => ?_
  rw [not_le] at hva
  -- the second level, from any state that the first one leaves
  have hsecond : ∀ d s1 lab1, TreeGrown s s1 root lab lab1 → lab1 d = some (.dir (px 2 va)) →
      wp (PageTable.walkLevel A d va 1 true >>= lastEntry va) Q E s1 := by
    intro d s1 lab1 h1 hd
    by_cases hv : (s1.table d (px 1 va)).isV = true
    · have hl := (h1.radix.leaf _ _ _).2 ⟨d, hd, hv, rfl⟩
      refine wp_bind.2 (walkLevel_found hv (h1.radix.ne_zero hl) ?_)
      exact hok _ s1 lab1 hva h1 hl
    · refine wp_bind.2 (walkLevel_create hv ?_ fun page hpage hused => ?_)
      · exact hnone _ lab1 hva (h1.trans (.request h1.radix))
      · exact hok page _ _ hva (h1.trans (h1.radix.grow hd rfl (fun j hj => (by cases hj)) hv hpage hused)) (upd_self _ _ _)
  by_cases hv : (s.table root (px 2 va)).isV = true
  · have hd := (h.dir _ _).2 ⟨hv, rfl⟩
    exact wp_bind.2 (walkLevel_found hv (h.ne_zero hd) (hsecond _ s lab (.refl h) hd))
  · refine wp_bind.2 (walkLevel_create hv ?_ fun page hpage hused => ?_)
    · exact hnone _ lab hva (.request h)
    · refine hsecond page _ _ (h.grow ((h.root root).2 rfl) rfl (fun j hj => ?_) hv hpage hused) (upd_self _ _ _)
      rw [← Node.dir.inj hj]
      exact px_two_lt hva

end Walk

/-! ## The pages of a page table -/

/-- A page of the page table at `root`. -/
def Vm.IsTable (vm : Vm) (root a : ℕ) : Prop :=
  a = root ∨ ∃ i, (vm.table root i).isV = true ∧ ((vm.table root i).asPa = a ∨
    ∃ j, (vm.table (vm.table root i).asPa j).isV = true ∧ (vm.table (vm.table root i).asPa j).asPa = a)

section IsTable

variable {vm : Vm} {root a : ℕ} {lab : ℕ → Option Node} {n : Node}

theorem Radix.isTable (h : Radix vm root lab) (ha : lab a = some n) : vm.IsTable root a := by
  cases n with
  | root => exact .inl ((h.root a).1 ha)
  | dir i =>
    obtain ⟨hv, hpa⟩ := (h.dir i a).1 ha
    exact .inr ⟨i, hv, .inl hpa⟩
  | leaf i j =>
    obtain ⟨d, hd, hv, hpa⟩ := (h.leaf i j a).1 ha
    obtain ⟨hv', rfl⟩ := (h.dir i d).1 hd
    exact .inr ⟨i, hv', .inr ⟨j, hv, hpa⟩⟩

theorem Radix.isTable_iff (h : Radix vm root lab) : vm.IsTable root a ↔ ∃ n, lab a = some n := by
  refine ⟨?_, fun ⟨n, ha⟩ => h.isTable ha⟩
  rintro (rfl | ⟨i, hv, rfl | ⟨j, hv', rfl⟩⟩)
  · exact ⟨.root, (h.root a).2 rfl⟩
  · exact ⟨.dir i, (h.dir i _).2 ⟨hv, rfl⟩⟩
  · exact ⟨.leaf i j, (h.leaf i j _).2 ⟨_, (h.dir i _).2 ⟨hv, rfl⟩, hv', rfl⟩⟩

end IsTable

end Octopos
