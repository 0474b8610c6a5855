import Octopos.Fs.DirMap
import Octopos.Fs.PathProof
import Mathlib.Data.List.DropRight

/-!
# Laws of path resolution

A path is a list of components, read from the root or from the current directory. `resolve` depends
on nothing else, finds the entry of the last component in the directory that `resolve_parent` finds,
and gives back every inode that it took except for the one it returns (`path_laws`).
-/

namespace Octopos

namespace Path

/-! ## Components -/

/-- What stands between slashes and is not empty. -/
def components (path : Name) : List Name := (path.splitOn SLASH).filter (· ≠ [])

/-- What repeated application of `next_component` yields when it comes to an end. -/
inductive Yields : Name → List Name → Prop
  | done {path : Name} (h : nextComponent path = none) : Yields path []
  | next {path component rest : Name} {l : List Name} (h : nextComponent path = some (component, rest))
    (hrest : Yields rest l) : Yields path (component :: l)

theorem components_append_slash (p q : Name) :
    components (p ++ SLASH :: q) = components p ++ components q := by
  unfold components List.splitOn
  rw [List.splitOnP_append_cons p q (by simp), List.filter_append]

theorem components_nil : components [] = [] := rfl

theorem components_slash_cons (p : Name) : components (SLASH :: p) = components p :=
  components_append_slash [] p

theorem components_dropSlash (p : Name) : components (p.dropWhile (· = SLASH)) = components p := by
  induction p with
  | nil => rfl
  | cons c p ih =>
    by_cases hc : c = SLASH
    · rw [List.dropWhile_cons_of_pos (by simpa using hc), ih, hc, components_slash_cons]
    · rw [List.dropWhile_cons_of_neg (by simpa using hc)]

theorem components_of_not_mem {p : Name} (hne : p ≠ []) (h : SLASH ∉ p) : components p = [p] := by
  unfold components
  rw [List.splitOn_eq_singleton h]
  simp [hne]

theorem nextComponent_eq_none {path : Name} :
    nextComponent path = none ↔ path.dropWhile (· = SLASH) = [] := by
  unfold nextComponent
  split
  · exact iff_of_true rfl ‹_›
  · exact iff_of_false (by simp) ‹_›

theorem nextComponent_of_ne_nil {path : Name} (h : path.dropWhile (· = SLASH) ≠ []) :
    nextComponent path = some ((path.dropWhile (· = SLASH)).takeWhile (· ≠ SLASH),
      ((path.dropWhile (· = SLASH)).dropWhile (· ≠ SLASH)).dropWhile (· = SLASH)) := by
  unfold nextComponent
  split
  · contradiction
  · rfl

theorem components_of_none {path : Name} (h : nextComponent path = none) :
    components path = [] := by
  rw [← components_dropSlash, nextComponent_eq_none.1 h, components_nil]

theorem nextComponent_rest {path component rest : Name}
    (h : nextComponent path = some (component, rest)) : rest.dropWhile (· = SLASH) = rest := by
  by_cases hne : path.dropWhile (· = SLASH) = []
  · rw [nextComponent_eq_none.2 hne] at h
    cases h
  · rw [nextComponent_of_ne_nil hne] at h
    obtain ⟨-, rfl⟩ := Prod.mk.inj (Option.some.inj h)
    exact List.dropWhile_idempotent ..

theorem components_of_some {path component rest : Name}
    (h : nextComponent path = some (component, rest)) :
    components path = component :: components rest := by
  by_cases hne : path.dropWhile (· = SLASH) = []
  · rw [nextComponent_eq_none.2 hne] at h
    cases h
  rw [nextComponent_of_ne_nil hne] at h
  obtain ⟨hcomponent, hrest⟩ := Prod.mk.inj (Option.some.inj h)
  have hhead := List.dropWhile_idempotent (· = SLASH) path
  rw [← components_dropSlash]
  generalize path.dropWhile (· = SLASH) = p at hne hcomponent hrest hhead ⊢
  have hslash : SLASH ∉ component := fun hmem => by
    rw [← hcomponent] at hmem
    simpa using List.mem_takeWhile_imp hmem
  have hcne : component ≠ [] := by
    obtain ⟨c, p, rfl⟩ := List.exists_cons_of_ne_nil hne
    have hc : ¬decide (c = SLASH) = true := List.dropWhile_eq_self_iff.1 hhead (Nat.succ_pos _)
    rw [← hcomponent, List.takeWhile_cons_of_pos (by simpa using hc)]
    exact List.cons_ne_nil _ _
  rw [← List.takeWhile_append_dropWhile (p := fun c => decide (c ≠ SLASH)) (l := p), hcomponent]
  cases ht : p.dropWhile (· ≠ SLASH) with
  | nil =>
    rw [ht] at hrest
    rw [← hrest, List.append_nil, components_of_not_mem hcne hslash]
    rfl
  | cons c t =>
    obtain rfl : c = SLASH := by
      have hhead := List.head_dropWhile_not (· ≠ SLASH) (l := p) (by rw [ht]; exact List.cons_ne_nil _ _)
      simp only [ht, List.head_cons] at hhead
      simpa using hhead
    rw [components_append_slash, components_of_not_mem hcne hslash, ← hrest, ht, components_dropSlash,
      components_slash_cons]
    rfl

theorem rest_eq_nil {path component rest : Name} (h : nextComponent path = some (component, rest)) :
    rest = [] ↔ components rest = [] := by
  constructor
  · rintro rfl
    rfl
  · intro hnil
    cases hrest : nextComponent rest with
    | none => rw [← nextComponent_rest h, nextComponent_eq_none.1 hrest]
    | some next =>
      rw [components_of_some hrest] at hnil
      cases hnil

theorem yields_iff {path : Name} {l : List Name} : Yields path l ↔ l = components path := by
  constructor
  · intro h
    induction h with
    | done h => rw [components_of_none h]
    | next h _ ih => rw [components_of_some h, ih]
  · rintro rfl
    induction hlen : path.length using Nat.strong_induction_on generalizing path with
    | _ n ih =>
      subst hlen
      cases hpath : nextComponent path with
      | none =>
        rw [components_of_none hpath]
        exact .done hpath
      | some next =>
        rw [components_of_some hpath]
        exact .next hpath (ih _ (nextComponent_length hpath) rfl)

theorem walk_congr (sb : SuperBlock) (parent : Bool) {fuel fuel' : ℕ} {p q : Name} (inode : Inode)
    (name : Name) (hp : p.length < fuel) (hq : q.length < fuel') (h : components p = components q) :
    walk sb parent fuel inode p name = walk sb parent fuel' inode q name := by
  induction fuel generalizing fuel' p q inode name with
  | zero => exact absurd hp (Nat.not_lt_zero _)
  | succ fuel ih =>
    obtain ⟨fuel', rfl⟩ : ∃ n, fuel' = n + 1 := ⟨fuel' - 1, by omega⟩
    unfold walk
    cases hnp : nextComponent p with
    | none =>
      have hnq : nextComponent q = none := by
        cases hnq : nextComponent q with
        | none => rfl
        | some next =>
          rw [components_of_none hnp, components_of_some hnq] at h
          cases h
      rw [hnq]
    | some next =>
      obtain ⟨component, rest⟩ := next
      cases hnq : nextComponent q with
      | none =>
        rw [components_of_some hnp, components_of_none hnq] at h
        cases h
      | some next' =>
        obtain ⟨component', rest'⟩ := next'
        rw [components_of_some hnp, components_of_some hnq] at h
        obtain ⟨rfl, hrest⟩ := List.cons.inj h
        have hlp := nextComponent_length hnp
        have hlq := nextComponent_length hnq
        have hnext (next : Inode) :
            walk sb parent fuel next rest component = walk sb parent fuel' next rest' component :=
          ih next component (by omega) (by omega) hrest
        have hnil : rest = [] ↔ rest' = [] := by
          rw [rest_eq_nil hnp, rest_eq_nil hnq, hrest]
        simp only [hnext, hnil]

theorem resolveInner_congr (sb : SuperBlock) (cwd : Inode) (parent : Bool) {p q : Name}
    (h : components p = components q) (hroot : p.head? = some SLASH ↔ q.head? = some SLASH) :
    resolveInner sb cwd p parent = resolveInner sb cwd q parent := by
  have hwalk (inode : Inode) := walk_congr sb parent inode [] (Nat.lt_succ_self p.length)
    (Nat.lt_succ_self q.length) h
  unfold resolveInner
  simp only [hroot, Nat.succ_eq_add_one] at hwalk ⊢
  simp only [hwalk]

end Path

/-! ## The walk in the tree -/

namespace Tree

variable {T : Tree} {parent : Bool} {e e' d : ℕ} {n n' path name name' : Name}

theorem Walk.unique (h : T.Walk parent e n d path name) (h' : T.Walk parent e' n' d path name) :
    e = e' ∧ n = n' := by
  induction h with
  | stop hpath hparent =>
    obtain ⟨-, rfl, rfl⟩ := (walk_of_none hpath).1 h'
    exact ⟨rfl, rfl⟩
  | early hpath hparent hdir =>
    obtain ⟨-, ⟨-, rfl, rfl⟩ | ⟨hbad, -⟩⟩ := (walk_of_some hpath).1 h'
    · exact ⟨rfl, rfl⟩
    · exact absurd ⟨hparent, rfl⟩ hbad
  | next hpath hdir hrest hfirst h ih =>
    obtain ⟨-, ⟨hbad, -⟩ | ⟨-, k, hk, h''⟩⟩ := (walk_of_some hpath).1 h'
    · exact absurd hbad hrest
    · rw [hk.unique hfirst] at h''
      exact ih h''

/-- The last component is looked up in the directory in which the walk to the parent ends. -/
theorem walk_parent (hpath : Path.components path ≠ []) : T.Walk false e n d path name ↔
    ∃ d' k, T.Walk true d' n d path name' ∧ T.First d' k n ∧ (T.entry d' k).inum.toNat = e := by
  induction hlen : path.length using Nat.strong_induction_on generalizing path d name name' with
  | _ l ih =>
    subst hlen
    cases hnext : Path.nextComponent path with
    | none => exact absurd (Path.components_of_none hnext) hpath
    | some next =>
      obtain ⟨component, rest⟩ := next
      simp only [walk_of_some hnext, Bool.false_eq_true, false_and, not_false_eq_true, true_and, false_or]
      by_cases hrest : rest = []
      · subst hrest
        have hdone : Path.nextComponent [] = none := rfl
        simp only [walk_of_none hdone, true_and, not_true_eq_false, false_and, or_false]
        constructor
        · rintro ⟨hdir, k, hfirst, rfl, rfl⟩
          exact ⟨d, k, ⟨hdir, rfl, rfl⟩, hfirst, rfl⟩
        · rintro ⟨d', k, ⟨hdir, rfl, rfl⟩, hfirst, rfl⟩
          exact ⟨hdir, k, hfirst, rfl, rfl⟩
      · have hne : Path.components rest ≠ [] := fun hnil => hrest ((Path.rest_eq_nil hnext).2 hnil)
        simp only [hrest, false_and, not_false_eq_true, true_and, false_or]
        constructor
        · rintro ⟨hdir, k, hfirst, hwalk⟩
          obtain ⟨d', j, hwalk', hj, he⟩ := (ih _ (Path.nextComponent_length hnext) hne rfl).1 hwalk
          exact ⟨d', j, ⟨hdir, k, hfirst, hwalk'⟩, hj, he⟩
        · rintro ⟨d', j, ⟨hdir, k, hfirst, hwalk'⟩, hj, he⟩
          exact ⟨hdir, k, hfirst, (ih _ (Path.nextComponent_length hnext) hne rfl).2 ⟨d', j, hwalk', hj, he⟩⟩

theorem resolves_parent {cwd : ℕ} (hpath : Path.components path ≠ []) :
    T.Resolves cwd path false e n ↔ ∃ d k, T.Resolves cwd path true d n ∧ T.First d k n ∧
    (T.entry d k).inum.toNat = e :=
  walk_parent hpath

end Tree

/-- What paths can reach from the root and from the directory `cwd`: inodes that are in use and have
links, or are held by a process. -/
structure PathTree (v : View) (B : Multiset Inode) (cwd : ℕ) (R : ℕ → Prop) : Prop where
  root : R ROOTINO
  cwd : R cwd
  named : ∀ d k, R d → (v.tree.entry d k).inum ≠ 0 → R (v.tree.entry d k).inum.toNat
  allocated : ∀ i, R i → v.tree.type i ≠ .free
  kept : ∀ i, R i → v.tree.nlink i ≠ 0 ∨ ∃ ip ∈ B, ip.inum = i

/-- Two slots of the inode table are free. -/
def Fs.TwoFree (s : Fs) : Prop :=
  ∃ id id', id ≠ id' ∧ (s.itable id).ref = 0 ∧ (s.itable id').ref = 0

/-- A call has kept the handles `H` of what it took from the inode table, and no locks. -/
def KeptHandles (s s' : Fs) (H : Multiset Inode) : Prop :=
  ∀ id, (s'.itable id).ref = (s.itable id).ref + inSlot id H ∧
    (s'.itable id).locked = (s.itable id).locked

section Calls

variable {sb : SuperBlock} {v : View} {B F H : Multiset Inode} {K : Finset (Fin NINODE)} {M : Mode}
  {s s' : Fs} {R : ℕ → Prop} {cwd : Inode} {path : Name}

theorem PathTree.reach (h : PathTree v B cwd.inum R) : Reach sb True R B M (fun _ => False) v where
  root _ := h.root
  named _ := h.named
  kept _ := h.kept
  op v' i hi hnlink hno := by
    obtain ⟨rfl, hR⟩ := hi trivial
    rcases h.kept i hR with hne | ⟨ip, hip, heq⟩
    · exact absurd hnlink hne
    · exact absurd heq (hno ip hip)
  free v' i hi hfree := by
    obtain ⟨rfl, hR⟩ := hi trivial
    exact h.allocated i hR hfree

theorem FsAt.roomy (h : FsAt sb v B F K M s) (hfree : s.TwoFree) : Roomy B F := by
  obtain ⟨id, id', hne, hid, hid'⟩ := hfree
  rw [(h.table.slot id).refs] at hid
  rw [(h.table.slot id').refs] at hid'
  intro ip hfull
  by_cases hip : ip.id = id
  · have := hfull id'
    rw [inSlot_cons, if_neg (by rw [hip]; exact hne)] at this
    omega
  · have := hfull id
    rw [inSlot_cons, if_neg hip] at this
    omega

theorem FsAt.kept (h : FsAt sb v B F K M s) {v' : View} (h' : FsAt sb v' B (H + F) K M s') :
    KeptHandles s s' H := by
  intro id
  rw [(h.table.slot id).refs, (h'.table.slot id).refs, inSlot, inSlot, inSlot, inSlot, Multiset.countP_add,
    Bool.eq_iff_iff, (h.table.slot id).locked, (h'.table.slot id).locked]
  exact ⟨by omega, Iff.rfl⟩

theorem Path.resolveInner_total (hsb : sb.Valid) (htree : PathTree v B cwd.inum R) (hcwd : cwd ∈ B)
    (h : FsAt sb v B F ∅ M s) (parent : Bool) (path : Name) :
    ∃ r s', (resolveInner sb cwd path parent).run s = .ok (r, s') ∧ match r with
      | .ok (ip, n) => v.tree.Resolves cwd.inum path parent ip.inum n ∧
          (parent = true → (v.node ip.inum).type = .directory) ∧ FsAt sb v B (ip ::ₘ F) ∅ M s'
      | .error _ => (Roomy B F → ∀ i n, ¬v.tree.Resolves cwd.inum path parent i n) ∧ FsAt sb v B F ∅ M s' := by
  refine wp_total (Path.resolveInner_fs hsb htree.reach hcwd (fun _ => htree.cwd) h
    (fun v' ip n s' hw _ hres hdir hs' => ?_) fun e v' s' hw hno hs' => ?_)
  · obtain rfl := hw.eq trivial
    exact ⟨hres trivial, hdir, hs'⟩
  · obtain rfl := hw.eq trivial
    exact ⟨hno trivial, hs'⟩

/-- Looking up a name in a directory that is not locked. -/
def Directory.lockLookup (sb : SuperBlock) (d : Inode) (name : Name) :
    FsM (Except FsError (Option (ℕ × Inode))) := do
  d.lock sb
  lookup sb d name

theorem Directory.lockLookup_total {d : Inode} (h : FsAt sb v B (d ::ₘ F) ∅ M s)
    (hdir : (v.node d.inum).type = .directory) (hroomy : Roomy B F) (name : Name) :
    ∃ r s', (lockLookup sb d name).run s = .ok (r, s') ∧ match r with
      | .ok (some (_, found)) => ∃ k, v.tree.First d.inum k name ∧
          (v.tree.entry d.inum k).inum.toNat = found.inum
      | .ok none => ∀ k, ¬v.tree.Match d.inum k name
      | .error _ => False := by
  have hmem : d ∈ B + d ::ₘ F := by simp
  refine wp_total ?_
  unfold lockLookup
  rw [wp_bind]
  refine Inode.lock_fs hmem (by simp) (fun hfree => by rw [hdir] at hfree; cases hfree) h fun s1 _ _ h1 => ?_
  refine Directory.lookup_fs hmem (by simp) hdir h1 (fun k found s' hfirst hfound _ _ => ?_)
    (fun s' hno _ => hno) fun e s' hhidden _ => hroomy d hhidden.1
  exact ⟨k, hfirst, hfound.symm⟩

theorem Path.resolve_ok_iff (hsb : sb.Valid) (htree : PathTree v B cwd.inum R) (hcwd : cwd ∈ B)
    (h : FsAt sb v B F ∅ M s) (hroomy : Roomy B F) (i : ℕ) :
    (∃ ip s', (resolve sb cwd path).run s = .ok (.ok ip, s') ∧ ip.inum = i) ↔
    ∃ n, v.tree.Resolves cwd.inum path false i n := by
  obtain ⟨r, s', hrun, hr⟩ := resolveInner_total hsb htree hcwd h false path
  have hresolve : (resolve sb cwd path).run s = .ok (r.map (·.1), s') := by
    unfold resolve
    rw [StateT.run_bind, hrun]
    cases r <;> rfl
  rw [hresolve]
  rcases r with e | ⟨ip, n⟩
  · refine iff_of_false ?_ fun ⟨n, hn⟩ => hr.1 hroomy i n hn
    rintro ⟨ip, s'', hbad, -⟩
    cases hbad
  · constructor
    · rintro ⟨ip', s'', heq, rfl⟩
      cases heq
      exact ⟨n, hr.1⟩
    · rintro ⟨n', hn'⟩
      exact ⟨ip, s', rfl, (Tree.Walk.unique hr.1 hn').1⟩

theorem Path.resolveParent_lookup_iff (hsb : sb.Valid) (htree : PathTree v B cwd.inum R)
    (hcwd : cwd ∈ B) (h : FsAt sb v B F ∅ M s) (hroomy : Roomy B F) (i : ℕ) :
    (∃ d name s1 offset ip s2, (resolveParent sb cwd path).run s = .ok (.ok (d, name), s1) ∧
      (Directory.lockLookup sb d name).run s1 = .ok (.ok (some (offset, ip)), s2) ∧ ip.inum = i) ↔
    ∃ n d k, v.tree.Resolves cwd.inum path true d n ∧ v.tree.First d k n ∧
    (v.tree.entry d k).inum.toNat = i := by
  obtain ⟨r, s1, hrun, hr⟩ := resolveInner_total hsb htree hcwd h true path
  unfold resolveParent
  rw [hrun]
  rcases r with e | ⟨d, n⟩
  · refine iff_of_false ?_ fun ⟨n, d, _, hn, _⟩ => hr.1 hroomy d n hn
    rintro ⟨d, name, s2, offset, ip, s3, hbad, -⟩
    cases hbad
  obtain ⟨hres, hdir, h1⟩ := hr
  obtain ⟨r', s2, hlookup, hr'⟩ := Directory.lockLookup_total h1 (hdir rfl) hroomy n
  constructor
  · rintro ⟨d', name, s3, offset, ip, s4, heq, hlook, rfl⟩
    cases heq
    rw [hlookup] at hlook
    cases hlook
    obtain ⟨k, hfirst, hinum⟩ := hr'
    exact ⟨n, d.inum, k, hres, hfirst, hinum⟩
  · rintro ⟨n', d', k, hres', hfirst, rfl⟩
    obtain ⟨rfl, rfl⟩ := Tree.Walk.unique hres hres'
    rcases r' with e | _ | ⟨offset, found⟩
    · exact hr'.elim
    · exact absurd hfirst.1 (hr' k)
    · obtain ⟨j, hj, hinum⟩ := hr'
      refine ⟨d, n, s1, offset, found, s2, rfl, hlookup, ?_⟩
      rw [← hinum, hj.unique hfirst]

theorem path_laws (hsb : sb.Valid) (htree : PathTree v B cwd.inum R) (hcwd : cwd ∈ B)
    (h : FsAt sb v B 0 ∅ M s) (hfree : s.TwoFree) (path : Name) :
    (∀ l, Path.Yields path l ↔ l = Path.components path) ∧
    (∀ q, Path.components q = Path.components path →
      (q.head? = some SLASH ↔ path.head? = some SLASH) →
      Path.resolve sb cwd q = Path.resolve sb cwd path) ∧
    (Path.components path ≠ [] → ∀ i,
      (∃ ip s', (Path.resolve sb cwd path).run s = .ok (.ok ip, s') ∧ ip.inum = i) ↔
        ∃ d name s₁ offset ip s₂, (Path.resolveParent sb cwd path).run s = .ok (.ok (d, name), s₁) ∧
          (Directory.lockLookup sb d name).run s₁ = .ok (.ok (some (offset, ip)), s₂) ∧
          ip.inum = i) ∧
    ∀ parent, ∃ r s', (Path.resolveInner sb cwd path parent).run s = .ok (r, s') ∧
      KeptHandles s s' (match r with | .ok (ip, _) => {ip} | .error _ => 0) ∧
      sb.view s'.disk = sb.view s.disk := by
  have hroomy := h.roomy hfree
  refine ⟨fun l => Path.yields_iff, fun q hq hroot => ?_, fun hpath i => ?_, fun parent => ?_⟩
  · unfold Path.resolve
    rw [Path.resolveInner_congr sb cwd false hq hroot]
  · rw [Path.resolve_ok_iff hsb htree hcwd h hroomy, Path.resolveParent_lookup_iff hsb htree hcwd h hroomy]
    exact exists_congr fun n => Tree.resolves_parent hpath
  · obtain ⟨r, s', hrun, hr⟩ := Path.resolveInner_total hsb htree hcwd h parent path
    refine ⟨r, s', hrun, ?_⟩
    rcases r with e | ⟨ip, n⟩
    · exact ⟨h.kept (hr.2 : FsAt sb v B (0 + 0) ∅ M s'), hr.2.view.trans h.view.symm⟩
    · exact ⟨h.kept (hr.2.2 : FsAt sb v B ({ip} + 0) ∅ M s'), hr.2.2.view.trans h.view.symm⟩

end Calls

theorem mkfsFs_at : FsAt mkfsSuper (mkfsSuper.view mkfsDisk) {⟨0, ROOTINO⟩} 0 ∅
    ⟨0, False, (mkfsSuper.view mkfsDisk).tree.type⟩ mkfsFs := by
  exact mkfsDisk_at (s := mkfsFs) (x := mkfsFs.itable 0) rfl rfl (upd_eq_self ..).symm rfl ⟨rfl, fun _ => by decide,
    fun _ hv => absurd hv (by decide), by decide, fun hbad => by simp at hbad⟩ (by simp)

theorem mkfsFs_tree :
    PathTree (mkfsSuper.view mkfsDisk) {⟨0, ROOTINO⟩} ROOTINO fun i => i = 1 ∨ i = 2 := by
  refine ⟨Or.inl rfl, Or.inl rfl, fun d k hd hk => ?_, ?_, ?_⟩
  · rcases hd with rfl | rfl
    · have hall : ∀ k < 3, ((mkfsSuper.view mkfsDisk).tree.entry 1 k).inum.toNat = 1 ∨
          ((mkfsSuper.view mkfsDisk).tree.entry 1 k).inum.toNat = 2 := by decide +kernel
      exact hall k (mkfsDisk_live.lt ⟨hk, rfl⟩)
    · rw [View.entry_of_ne (by rw [mkfsDisk_node]; decide)] at hk
      exact absurd rfl hk
  · rintro i (rfl | rfl) <;> rw [View.tree_type, mkfsDisk_node] <;> decide
  · rintro i (rfl | rfl) <;> rw [View.tree_nlink, mkfsDisk_node] <;> exact Or.inl (by decide)

/-- The path `/f`. -/
theorem path_laws_file :
    ∃ r s', (Path.resolveInner mkfsSuper ⟨0, ROOTINO⟩ [47, 102] false).run mkfsFs =
    .ok (r, s') ∧ KeptHandles mkfsFs s' (match r with | .ok (ip, _) => {ip} | .error _ => 0) ∧
      mkfsSuper.view s'.disk = mkfsSuper.view mkfsFs.disk :=
  (path_laws mkfsSuper_valid mkfsFs_tree (by decide) mkfsFs_at ⟨1, 2, by decide, by decide, by decide⟩
    [47, 102]).2.2.2 false

end Octopos
