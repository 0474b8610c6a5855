import Octopos.Vm.MemEdits

/-!
# Freeing a page table

`PageTable::free_walk` gives back every table of a page table that maps nothing any more, each of
them once, and leaves the rest of the memory alone. The recursion follows the tree: a call for one
table sweeps the tables at and below its place.
-/

namespace Octopos

namespace Node

def height : Node → ℕ
  | root => 3
  | dir _ => 2
  | leaf _ _ => 1

/-- The place `m` is `n` or below it. -/
def below : Node → Node → Prop
  | root, _ => True
  | dir i, m => m = dir i ∨ ∃ j, m = leaf i j
  | leaf i j, m => m = leaf i j

variable {n c c' m : Node} {k k' : Fin 512}

theorem below_self (n : Node) : n.below n := by
  cases n with
  | root => trivial
  | dir i => exact .inl rfl
  | leaf i j => rfl

theorem height_child (h : n.child k = some c) : n.height = c.height + 1 := by
  cases n <;> cases h <;> rfl

theorem below_iff : n.below m ↔ m = n ∨ ∃ k c, n.child k = some c ∧ c.below m := by
  cases n with
  | root =>
    refine ⟨fun _ => ?_, fun _ => trivial⟩
    cases m with
    | root => exact .inl rfl
    | dir i => exact .inr ⟨i, _, rfl, .inl rfl⟩
    | leaf i j => exact .inr ⟨i, _, rfl, .inr ⟨j, rfl⟩⟩
  | dir i =>
    refine or_congr Iff.rfl ⟨fun ⟨j, hj⟩ => ⟨j, _, rfl, hj⟩, fun ⟨j, c, hc, hm⟩ => ?_⟩
    cases hc
    exact ⟨j, hm⟩
  | leaf i j =>
    refine ⟨fun h => .inl h, fun h => h.resolve_right ?_⟩
    rintro ⟨k, c, hc, -⟩
    cases hc

theorem below_disjoint (h : n.child k = some c) (h' : n.child k' = some c') (hm : c.below m)
    (hm' : c'.below m) : k = k' := by
  cases n with
  | root =>
    cases h
    cases h'
    rcases hm with rfl | ⟨j, rfl⟩ <;> rcases hm' with hm' | ⟨j', hm'⟩ <;> cases hm' <;> rfl
  | dir i =>
    cases h
    cases h'
    rw [show m = _ from hm] at hm'
    cases hm'
    rfl
  | leaf i j => cases h

theorem not_below_child (h : n.child k = some c) : ¬c.below n := by
  cases n with
  | root =>
    cases h
    rintro (hm | ⟨j, hm⟩) <;> cases hm
  | dir i =>
    cases h
    intro hm
    cases hm
  | leaf i j => cases h

end Node

variable {ι : Type} [DecidableEq ι] [Fintype ι]

/-- The tables at and below a place are pages of the kernel, and they form a tree that maps
nothing. -/
structure Doomed (vm : Vm) (own : ℕ → Option (Owner ι)) (lab : ℕ → Option Node) (n : Node) :
    Prop where
  kernel : ∀ {b m}, lab b = some m → n.below m → own b = some .kernel
  child : ∀ {b m k c}, lab b = some m → n.below m → m.child k = some c → ∀ x,
    lab x = some c ↔ (vm.table b k).isV = true ∧ (vm.table b k).asPa = x
  inner : ∀ {b m k c}, lab b = some m → n.below m → m.child k = some c → (vm.table b k).isLeaf = false
  empty : ∀ {b i j}, lab b = some (.leaf i j) → n.below (.leaf i j) → ∀ k, (vm.table b k).isV = false

/-- The tables at and below a place are given back, and no other page changed. -/
structure Swept (vm vm' : Vm) (own own' : ℕ → Option (Owner ι)) (lab : ℕ → Option Node)
    (P : Node → Prop) : Prop where
  gone : ∀ {b m}, lab b = some m → P m → own' b = none
  kept : ∀ {b}, (∀ m, lab b = some m → ¬P m) → own' b = own b
  table : ∀ {b}, (∀ m, lab b = some m → ¬P m) → vm'.table b = vm.table b

section FreeWalk

variable {vm vm' : Vm} {roots : ι → Option ℕ} {own own' : ℕ → Option (Owner ι)} {pte : ι → ℕ → Pte}
  {mem : ι → Bytes} {lab : ℕ → Option Node} {a : ℕ} {n c : Node} {E : VmPanic → Prop}

theorem MemOk.writeKernel {k : Fin 512} {e : Pte} (h : MemOk vm roots own pte mem)
    (ha : own a = some .kernel) : MemOk (vm.write a k e) roots own pte mem := by
  refine ⟨h.trees.congr ((vm.write_same a k e).mono fun b ⟨i, n, hb⟩ => ?_) fun _ _ _ => Iff.rfl,
    ⟨h.pages.page, h.pages.used, h.pages.count⟩, h.users, h.views⟩
  rintro rfl
  rw [ha] at hb
  cases hb

omit [DecidableEq ι] [Fintype ι] in
theorem Doomed.congr (h : Doomed vm own lab n) (hc : ∀ {m}, c.below m → n.below m)
    (ho : ∀ {b m}, lab b = some m → c.below m → own' b = own b ∧ vm'.table b = vm.table b) :
    Doomed vm' own' lab c := by
  refine ⟨fun {b m} hb hm => ?_, fun {b m k d} hb hm hk => ?_, fun {b m k d} hb hm hk => ?_, fun {b i j} hb hm => ?_⟩
  · rw [(ho hb hm).1]
    exact h.kernel hb (hc hm)
  · rw [(ho hb hm).2]
    exact h.child hb (hc hm) hk
  · rw [(ho hb hm).2]
    exact h.inner hb (hc hm) hk
  · rw [(ho hb hm).2]
    exact h.empty hb (hc hm)

theorem mem_indices (k : Fin 512) : k ∈ PageTable.indices := by
  unfold PageTable.indices
  exact List.mem_finRange k

theorem nodup_indices : PageTable.indices.Nodup := by
  unfold PageTable.indices
  exact List.nodup_finRange 512

/-- The places below `n` through one of the entries `pre`. -/
def Node.through (n : Node) (pre : List (Fin 512)) (m : Node) : Prop :=
  ∃ k ∈ pre, ∃ c, n.child k = some c ∧ c.below m

theorem Node.not_through (n : Node) (pre : List (Fin 512)) : ¬n.through pre n := by
  rintro ⟨k, -, c, hc, hm⟩
  exact Node.not_below_child hc hm

/-- What the loop of `free_walk` over the entries of the table `a` at the place `n` did. -/
structure FreeLoop (vm vm' : Vm) (own own' : ℕ → Option (Owner ι)) (lab : ℕ → Option Node) (a : ℕ)
    (n : Node) (pre : List (Fin 512)) : Prop where
  gone : ∀ {b m}, lab b = some m → n.through pre m → own' b = none
  kept : ∀ {b}, (∀ m, lab b = some m → ¬n.through pre m) → own' b = own b
  table : ∀ {b}, b ≠ a → (∀ m, lab b = some m → ¬n.through pre m) → vm'.table b = vm.table b
  rest : ∀ k ∉ pre, vm'.table a k = vm.table a k

theorem freeWalk_wp (hinj : ∀ {b b' m}, lab b = some m → lab b' = some m → b = b')
    (hparent : ∀ {b m}, lab b = some m → ∀ c, c.below m → c ≠ .root → ∃ d, lab d = some c)
    (depth : ℕ) :
    ∀ (n : Node) (a : ℕ) (vm : Vm) (own : ℕ → Option (Owner ι)) (Q : PUnit → Vm → Prop),
    n.height = depth → lab a = some n → MemOk vm roots own pte mem → Doomed vm own lab n →
    (∀ vm' own', MemOk vm' roots own' pte mem → Swept vm vm' own own' lab n.below → Q ⟨⟩ vm') →
    wp (PageTable.freeWalk depth a) Q E vm := by
  induction depth with
  | zero =>
    intro n a vm own Q hn
    cases n <;> cases hn
  | succ depth ih =>
    intro n a vm own Q hn ha h hd hQ
    have hka : own a = some .kernel := hd.kernel ha (Node.below_self n)
    have hloop : wp (PageTable.indices.forM (PageTable.freeEntry (PageTable.freeWalk depth) a))
        (fun _ vm' => ∃ own', MemOk vm' roots own' pte mem ∧
          FreeLoop vm vm' own own' lab a n PageTable.indices) E vm := by
      refine wp_forM (I := fun pre vm' => ∃ own', MemOk vm' roots own' pte mem ∧
        FreeLoop vm vm' own own' lab a n pre) ?_ ⟨own, h, ?_⟩
      · rintro pre k post hl vm1 ⟨own1, h1, hI⟩
        have hk : k ∉ pre := by
          intro hk
          have hnd := nodup_indices
          rw [hl, List.nodup_append] at hnd
          exact hnd.2.2 k hk k (List.mem_cons_self ..) rfl
        have hpte : vm1.table a k = vm.table a k := hI.rest k hk
        refine wp_bind.2 (wp_bind.2 (wp_get.2 (wp_pure.2 ?_)))
        rw [hpte]
        refine wp_ite (fun hv => ?_) fun hv => ?_
        · -- the entry points to a table of the next level
          obtain ⟨c, hc⟩ : ∃ c, n.child k = some c := by
            cases n with
            | root => exact ⟨_, rfl⟩
            | dir i => exact ⟨_, rfl⟩
            | leaf i j => exact absurd hv (by rw [hd.empty ha (Node.below_self _)]; exact Bool.false_ne_true)
          have hcn : ∀ {m}, c.below m → n.below m := fun hm => Node.below_iff.2 (.inr ⟨k, c, hc, hm⟩)
          have hlc : lab (vm.table a k).asPa = some c := (hd.child ha (Node.below_self n) hc _).2 ⟨hv, rfl⟩
          have hpage := h.pages.page (hd.kernel hlc (hcn (Node.below_self c)))
          have hnz : (vm.table a k).asPa ≠ 0 := by
            have hbase : KERNBASE = 0x80000000 := rfl
            have := hpage.base
            omega
          have hout : ∀ {m}, c.below m → ¬n.through pre m := by
            rintro m hm ⟨k', hk', c', hc', hm'⟩
            rw [Node.below_disjoint hc' hc hm' hm] at hk'
            exact hk hk'
          have hab : ∀ m, lab a = some m → ¬c.below m := by
            intro m hm hcm
            rw [ha, Option.some.injEq] at hm
            subst hm
            exact Node.not_below_child hc hcm
          have hdoom : Doomed vm1 own1 lab c := by
            refine hd.congr hcn fun {b m} hb hm => ?_
            have hno : ∀ m', lab b = some m' → ¬n.through pre m' := by
              intro m' hm'
              rw [hb, Option.some.injEq] at hm'
              subst hm'
              exact hout hm
            refine ⟨hI.kept hno, hI.table ?_ hno⟩
            rintro rfl
            exact hab m hb hm
          rw [if_neg (by rw [hd.inner ha (Node.below_self n) hc]; exact Bool.false_ne_true), if_neg hnz]
          refine wp_bind.2 (ih c _ vm1 own1 _ ?_ hlc h1 hdoom fun vm2 own2 h2 hsw => ?_)
          · have := Node.height_child hc
            omega
          have hka2 : own2 a = some .kernel := by
            rw [hsw.kept hab, hI.kept fun m hm hP => ?_, hka]
            rw [ha, Option.some.injEq] at hm
            subst hm
            exact n.not_through _ hP
          refine wp_modify.2 ⟨own2, h2.writeKernel hka2, ?_⟩
          have hadd : ∀ m, n.through (pre ++ [k]) m ↔ n.through pre m ∨ c.below m := by
            intro m
            constructor
            · rintro ⟨k', hk', c', hc', hm⟩
              rcases List.mem_append.1 hk' with hk' | hk'
              · exact .inl ⟨k', hk', c', hc', hm⟩
              · rw [List.mem_singleton.1 hk', hc, Option.some.injEq] at hc'
                exact .inr (hc' ▸ hm)
            · rintro (⟨k', hk', c', hc', hm⟩ | hm)
              · exact ⟨k', List.mem_append_left _ hk', c', hc', hm⟩
              · exact ⟨k, List.mem_append_right _ (List.mem_singleton_self k), c, hc, hm⟩
          refine ⟨fun {b m} hb hm => ?_, fun {b} hb => ?_, fun {b} hba hb => ?_, fun k' hk' => ?_⟩
          · by_cases hcm : c.below m
            · exact hsw.gone hb hcm
            · have hpre := ((hadd m).1 hm).resolve_right hcm
              rw [hsw.kept fun m' hm' => ?_]
              · exact hI.gone hb hpre
              · rw [hb, Option.some.injEq] at hm'
                exact hm' ▸ hcm
          · rw [hsw.kept fun m hm hcm => hb m hm ((hadd m).2 (.inr hcm)),
              hI.kept fun m hm hP => hb m hm ((hadd m).2 (.inl hP))]
          · change upd vm2.table a _ b = _
            rw [upd_of_ne hba, hsw.table fun m hm hcm => hb m hm ((hadd m).2 (.inr hcm)),
              hI.table hba fun m hm hP => hb m hm ((hadd m).2 (.inl hP))]
          · change upd vm2.table a (upd (vm2.table a) k 0) a k' = _
            have hkk : k' ≠ k := by
              rintro rfl
              exact hk' (List.mem_append_right _ (List.mem_singleton_self k'))
            rw [upd_self, upd_of_ne hkk, hsw.table hab, hI.rest k' fun h => hk' (List.mem_append_left _ h)]
        · -- there is no table
          refine wp_pure.2 ⟨own1, h1, ?_⟩
          have hadd : ∀ {b m}, lab b = some m → n.through (pre ++ [k]) m → n.through pre m := by
            rintro b m hb ⟨k', hk', c', hc', hm⟩
            rcases List.mem_append.1 hk' with hk' | hk'
            · exact ⟨k', hk', c', hc', hm⟩
            · rw [List.mem_singleton.1 hk'] at hc'
              obtain ⟨d, hdc⟩ := hparent hb c' hm (Node.child_ne_root hc')
              exact absurd ((hd.child ha (Node.below_self n) hc' d).1 hdc).1 hv
          have hmono : ∀ {m}, n.through pre m → n.through (pre ++ [k]) m := by
            rintro m ⟨k', hk', hm⟩
            exact ⟨k', List.mem_append_left _ hk', hm⟩
          exact ⟨fun hb hm => hI.gone hb (hadd hb hm), fun hb => hI.kept fun m hm hP => hb m hm (hmono hP),
            fun hba hb => hI.table hba fun m hm hP => hb m hm (hmono hP),
            fun k' hk' => hI.rest k' fun h => hk' (List.mem_append_left _ h)⟩
      · exact ⟨fun _ ⟨k, hk, _⟩ => (by cases hk), fun _ => rfl, fun _ _ => rfl, fun _ _ => rfl⟩
    refine wp_bind.2 (wp_mono hloop (fun _ vm' hI => ?_) fun _ h => h)
    obtain ⟨own', hok, hI⟩ := hI
    have hka' : own' a = some .kernel := by
      rw [hI.kept fun m hm hP => ?_]
      · exact hka
      · rw [ha, Option.some.injEq] at hm
        subst hm
        exact n.not_through _ hP
    refine pageFree_wp (hok.pages.page hka').aligned (fun hno => absurd (hok.pages.page hka') hno)
      fun _ => hQ _ _ (hok.giveBack hka') ?_
    have hbelow : ∀ m, n.below m ↔ m = n ∨ n.through PageTable.indices m := by
      intro m
      rw [Node.below_iff]
      refine or_congr Iff.rfl ⟨fun ⟨k, c, hc, hm⟩ => ⟨k, mem_indices k, c, hc, hm⟩, ?_⟩
      rintro ⟨k, -, c, hc, hm⟩
      exact ⟨k, c, hc, hm⟩
    refine ⟨fun {b m} hb hm => ?_, fun {b} hb => ?_, fun {b} hb => ?_⟩
    · rcases (hbelow m).1 hm with rfl | hm
      · rw [hinj hb ha, upd_self]
      · rw [upd_apply]
        split_ifs
        · rfl
        · exact hI.gone hb hm
    · have hba : b ≠ a := by
        rintro rfl
        exact hb n ha (Node.below_self n)
      rw [upd_of_ne hba]
      exact hI.kept fun m hm hP => hb m hm ((hbelow m).2 (.inr hP))
    · have hba : b ≠ a := by
        rintro rfl
        exact hb n ha (Node.below_self n)
      exact hI.table hba fun m hm hP => hb m hm ((hbelow m).2 (.inr hP))

theorem exists_va {i j k : Fin 512} (hi : i.val < 256) :
    ∃ va, va % PGSIZE = 0 ∧ va < MAXVA ∧ px 2 va = i ∧ px 1 va = j ∧ px 0 va = k := by
  have hpg : PGSIZE = 4096 := rfl
  have hmax : MAXVA = 2 ^ 38 := rfl
  have h2 : 2 ^ pxShift 2 = 1073741824 := rfl
  have h1 : 2 ^ pxShift 1 = 2097152 := rfl
  have h0 : 2 ^ pxShift 0 = 4096 := rfl
  refine ⟨((i.val * 512 + j.val) * 512 + k.val) * 4096, ?_, ?_, ?_, ?_, ?_⟩
  · rw [hpg]
    omega
  · rw [hmax]
    omega
  · rw [Fin.ext_iff, px_val, h2]
    omega
  · rw [Fin.ext_iff, px_val, h1]
    omega
  · rw [Fin.ext_iff, px_val, h0]
    omega

/-- The owners after the tables of an address space are given back. -/
def clearOwner (own : ℕ → Option (Owner ι)) (i : ι) (b : ℕ) : Option (Owner ι) :=
  match labels own i b with
  | some _ => none
  | none => own b

theorem freeWalk_space {i : ι} {r : ℕ} {Q : PUnit → Vm → Prop} (h : MemOk vm roots own pte mem)
    (hr : roots i = some r) (hempty : ∀ va, va % PGSIZE = 0 → va < MAXVA → (pte i va).isV = false)
    (hQ : ∀ vm', MemOk vm' (upd roots i none) (clearOwner own i) (upd pte i fun _ => 0) mem →
      Q ⟨⟩ vm') : wp (PageTable.freeWalk 3 r) Q E vm := by
  have hrad := h.trees.radix hr
  have hdet := h.detach hr fun l => hempty _ (uva_userVa l).aligned (uva_userVa l).lt_MAXVA
  have hkernel : ∀ {b m}, labels own i b = some m → detachOwner own i b = some .kernel := by
    intro b m hb
    unfold detachOwner
    rw [hb]
  have hdoom : Doomed vm (detachOwner own i) (labels own i) .root := by
    refine ⟨fun hb _ => hkernel hb, fun hb _ hc => hrad.child hb hc, fun hb _ hc => hrad.inner hb hc,
      fun {b p q} hb _ k => ?_⟩
    obtain ⟨d, hd, -⟩ := (hrad.leaf p q b).1 hb
    obtain ⟨va, ha, hva, h2, h1, h0⟩ := exists_va (j := q) (k := k) (hrad.half hd)
    subst h2 h1 h0
    rw [← hrad.entry_of_leaf hb, h.trees.entry hr va ha hva]
    exact hempty va ha hva
  refine freeWalk_wp hrad.inj (fun {b m} hb c hc hne => ?_) 3 .root r vm _ Q rfl ((hrad.root r).2 rfl)
    hdet hdoom fun vm' own' hok hsw => ?_
  · cases c with
    | root => exact absurd rfl hne
    | dir p =>
      rcases hc with rfl | ⟨q, rfl⟩
      · exact ⟨b, hb⟩
      · obtain ⟨d, hd, -⟩ := (hrad.leaf p q b).1 hb
        exact ⟨d, hd⟩
    | leaf p q =>
      cases hc
      exact ⟨b, hb⟩
  · have hown : own' = clearOwner own i := by
      funext b
      unfold clearOwner
      cases hl : labels own i b with
      | some n => exact hsw.gone hl trivial
      | none =>
        rw [hsw.kept fun m hm => by rw [hl] at hm; cases hm]
        unfold detachOwner
        rw [hl]
    rw [hown] at hok
    exact hQ vm' hok

end FreeWalk

end Octopos
