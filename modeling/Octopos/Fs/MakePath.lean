import Octopos.Fs.PathLaws

/-!
# The path of a directory

`make_path` climbs from a directory to the root through the `..` entries and looks for the name of
each directory in its parent. In a directory tree it returns a path that leads back to the directory
(`makePath_resolves`), provided that the inode table has room for a directory and its parent.
-/

namespace Octopos

namespace Tree

variable {T : Tree} {d e : ℕ} {names : List Name}

/-- Following `names` from directory `d` leads to `e`. -/
inductive Along (T : Tree) (e : ℕ) : ℕ → List Name → Prop
  | here : Along T e e []
  | next {d k : ℕ} {name : Name} {names : List Name} (hdir : T.type d = .directory)
    (hfirst : T.First d k name) (h : Along T e (T.entry d k).inum.toNat names) :
    Along T e d (name :: names)

theorem Along.walk (h : T.Along e d names) {path : Name} (hpath : Path.components path = names)
    (name : Name) : ∃ n, T.Walk false e n d path name := by
  induction h generalizing path name with
  | here =>
    cases hnext : Path.nextComponent path with
    | none => exact ⟨name, .stop hnext rfl⟩
    | some next =>
      rw [Path.components_of_some hnext] at hpath
      cases hpath
  | @next d k component names hdir hfirst _ ih =>
    cases hnext : Path.nextComponent path with
    | none =>
      rw [Path.components_of_none hnext] at hpath
      cases hpath
    | some next =>
      rw [Path.components_of_some hnext] at hpath
      obtain ⟨hcomponent, hrest⟩ := List.cons.inj hpath
      obtain ⟨n, hn⟩ := ih hrest next.1
      refine ⟨n, .next hnext hdir (by simp) ?_ hn⟩
      rwa [hcomponent]

end Tree

/-- A component of a path. -/
structure IsComponent (name : Name) : Prop where
  ne_nil : name ≠ []
  no_slash : SLASH ∉ name

def pathOf (names : List Name) : Name := names.flatMap fun name => SLASH :: name

theorem components_pathOf {names : List Name} (h : ∀ name ∈ names, IsComponent name) :
    Path.components (pathOf names) = names := by
  induction names with
  | nil => rfl
  | cons name names ih =>
    obtain ⟨hname, hrest⟩ := List.forall_mem_cons.1 h
    have hpath : pathOf (name :: names) = SLASH :: (name ++ pathOf names) := rfl
    rw [hpath, Path.components_slash_cons]
    cases names with
    | nil =>
      rw [show pathOf [] = [] from rfl, List.append_nil, Path.components_of_not_mem hname.ne_nil hname.no_slash]
    | cons n ns =>
      have hcons : pathOf (n :: ns) = SLASH :: (n ++ pathOf ns) := rfl
      rw [hcons] at ih ⊢
      rw [Path.components_append_slash, Path.components_of_not_mem hname.ne_nil hname.no_slash,
        ← Path.components_slash_cons, ih hrest]
      rfl

/-- A tree of directories `D`. Each but the root has one entry in the directory that its `..` names,
at a smaller depth. -/
structure DirTree (T : Tree) (D : ℕ → Prop) (parent depth : ℕ → ℕ) : Prop where
  root : D ROOTINO
  dir : ∀ d, D d → T.type d = .directory
  up : ∀ d, D d → d ≠ ROOTINO → D (parent d) ∧ depth (parent d) < depth d
  dotdot : ∀ d, D d → d ≠ ROOTINO →
    ∃ k, T.First d k DOTDOT ∧ (T.entry d k).inum.toNat = parent d
  child : ∀ d, D d → d ≠ ROOTINO →
    ∃! k, (T.entry (parent d) k).inum ≠ 0 ∧ (T.entry (parent d) k).inum.toNat = d
  distinct : ∀ d, D d → T.Distinct d
  names : ∀ d k, D d → (T.entry d k).inum ≠ 0 → IsComponent (T.entry d k).name ∧
    ByteArray.validateUTF8 ⟨⟨(T.entry d k).name⟩⟩ = true
  named : ∀ d k, D d → (T.entry d k).inum ≠ 0 →
    (T.type (T.entry d k).inum.toNat ≠ .free ∧ T.nlink (T.entry d k).inum.toNat ≠ 0) ∧
    (T.type (T.entry d k).inum.toNat = .directory → D (T.entry d k).inum.toNat)
  linked : ∀ d, D d → T.nlink d ≠ 0

section MakePath

variable {sb : SuperBlock} {v : View} {B F : Multiset Inode} {K : Finset (Fin NINODE)} {M : Mode}
  {E : FsPanic → Prop} {s : Fs} {ip : Inode} {D : ℕ → Prop} {parent depth : ℕ → ℕ}
variable {Q : Except FsError (Option Name) → Fs → Prop}

theorem nameIn_fs (hip : ip ∈ B + F) (hK : ip.id ∈ K) (hdir : (v.node ip.inum).type = .directory)
    {i : ℕ} (hi : i ≠ 0) {n j : ℕ} (hn : n = 0 ∨ j + n = v.slots ip.inum)
    (h : FsAt sb v B F K M s)
    (hfound : ∀ k s', (v.tree.entry ip.inum k).inum.toNat = i → FsAt sb v B F K M s' →
      Q (if ByteArray.validateUTF8 ⟨⟨(v.tree.entry ip.inum k).name⟩⟩
        then .ok (some (v.tree.entry ip.inum k).name) else .error .invalidName) s')
    (hnone : ∀ s', (∀ l, j ≤ l → l < j + n → (v.tree.entry ip.inum l).inum.toNat ≠ i) →
      FsAt sb v B F K M s' → Q (.ok none) s') :
    wp (nameIn sb ip i ((List.range' j n).map (DIRENTSIZE * ·))) Q E s := by
  induction n generalizing j s with
  | zero => exact hnone s (fun l _ _ => by omega) h
  | succ n ih =>
    have hj : j < v.slots ip.inum := by omega
    have hinum := h.ok.tree_entry_inum hdir hj
    rw [List.range'_succ, List.map_cons]
    unfold nameIn
    rw [wp_bind]
    refine Directory.fromInode_fs hip hK hdir ((h.ok.lt_size hdir).2 hj) h fun s1 h1 => ?_
    refine wp_ite (fun heq => ?_) fun hne => ?_
    · have hentry : v.tree.entry ip.inum j = v.entry ip.inum j := by
        rw [h.ok.tree_entry hdir hj, if_neg]
        rintro h0
        exact hi (heq ▸ congrArg UInt16.toNat h0)
      have hQ := hfound j s1 (by rw [hentry, heq]) h1
      rw [hentry] at hQ
      refine wp_ite (fun hvalid => ?_) fun hbad => ?_
      · rwa [if_pos hvalid] at hQ
      · rwa [if_neg hbad] at hQ
    · refine ih (by omega) h1 fun s' hl => hnone s' fun l hjl hln => ?_
      by_cases hlj : l = j
      · rw [hlj, hinum]
        exact hne
      · exact hl l (by omega) (by omega)

theorem DirTree.entry {T : Tree} (htree : DirTree T D parent depth) {d k : ℕ} (hd : D d)
    (hroot : d ≠ ROOTINO) (hk : (T.entry (parent d) k).inum.toNat = d) (h0 : d ≠ 0) :
    T.First (parent d) k (T.entry (parent d) k).name ∧ IsComponent (T.entry (parent d) k).name ∧
    ByteArray.validateUTF8 ⟨⟨(T.entry (parent d) k).name⟩⟩ = true := by
  have hD := (htree.up d hd hroot).1
  have hlive : (T.entry (parent d) k).inum ≠ 0 := fun hz => h0 (hk ▸ congrArg UInt16.toNat hz)
  exact ⟨(htree.distinct _ hD).first ⟨hlive, rfl⟩, htree.names _ k hD hlive⟩

theorem DirTree.ne_zero {T : Tree} (htree : DirTree T D parent depth) {d : ℕ} (hd : D d) :
    d ≠ 0 := by
  by_cases hroot : d = ROOTINO
  · rw [hroot]
    decide
  · obtain ⟨k, ⟨hlive, hk⟩, -⟩ := htree.child d hd hroot
    rw [← hk]
    exact fun hz => hlive (UInt16.toNat_inj.1 hz)

theorem DirTree.nameIn_fs (htree : DirTree v.tree D parent depth) {i : ℕ} (hD : D i)
    (hroot : i ≠ ROOTINO) (hip : ip ∈ B + F) (hK : ip.id ∈ K) (hparent : ip.inum = parent i)
    (h : FsAt sb v B F K M s)
    (hQ : ∀ k s', (v.tree.entry ip.inum k).inum.toNat = i →
      v.tree.First ip.inum k (v.tree.entry ip.inum k).name →
      IsComponent (v.tree.entry ip.inum k).name → FsAt sb v B F K M s' →
      Q (.ok (some (v.tree.entry ip.inum k).name)) s') :
    wp (nameIn sb ip i (entryOffsets 0 (v.node ip.inum).size.toNat)) Q E s := by
  have h0 := htree.ne_zero hD
  have hdir : (v.node ip.inum).type = .directory := hparent ▸ htree.dir _ (htree.up i hD hroot).1
  have hoff := entryOffsets_eq 0 (v.slots ip.inum)
  rw [mul_zero, h.ok.slots_mul hdir, Nat.sub_zero] at hoff
  rw [hoff]
  refine Octopos.nameIn_fs hip hK hdir h0 (Or.inr (Nat.zero_add _)) h (fun k s' hk hs' => ?_) fun s' hno _ => ?_
  · rw [hparent] at hk hQ ⊢
    obtain ⟨hfirst, hcomponent, hvalid⟩ := htree.entry hD hroot hk h0
    rw [if_pos hvalid]
    exact hQ k s' hk hfirst hcomponent hs'
  · obtain ⟨k, ⟨hlive, hk⟩, -⟩ := htree.child i hD hroot
    rw [← hparent] at hlive hk
    refine absurd hk (hno k (Nat.zero_le _) ?_)
    by_contra hle
    refine hlive ?_
    rw [h.ok.tree_entry_of_le (by omega)]
    rfl

/-- The loop of `make_path` from a locked directory, below which `names` lead to `d`. -/
theorem makePathLoop_fs (hsb : sb.Valid) (htree : DirTree v.tree D parent depth)
    (hroomy : Roomy B F) {d fuel : ℕ} {current : Inode} {names : List Name} (hD : D current.inum)
    (hfuel : depth current.inum < fuel) (halong : v.tree.Along d current.inum names)
    (hnames : ∀ name ∈ names, IsComponent name) {Q : Except FsError Name → Fs → Prop}
    (h : FsAt sb v B (current ::ₘ F) {current.id} M s)
    (hQ : ∀ names' s', v.tree.Along d ROOTINO names' → (∀ name ∈ names', IsComponent name) →
      (current.inum = ROOTINO → names' = names) → FsAt sb v B F ∅ M s' →
      Q (.ok (if pathOf names' = [] then [SLASH] else pathOf names')) s') :
    wp (makePathLoop sb fuel current (pathOf names)) Q E s := by
  induction fuel generalizing current names s with
  | zero => exact absurd hfuel (Nat.not_lt_zero _)
  | succ fuel ih =>
    have hmem : current ∈ B + current ::ₘ F := by simp
    have hK : current.id ∈ ({current.id} : Finset (Fin NINODE)) := by simp
    have hput {i : ℕ} (hi : D i) (hzero : (v.node i).nlink = 0) (_ : ∀ jp ∈ B, jp.inum ≠ i) : InOp M E :=
      absurd hzero (htree.linked i hi)
    unfold makePathLoop
    refine wp_ite (fun hroot => ?_) fun hroot => ?_
    · rw [hroot] at halong
      rw [wp_bind]
      refine Inode.unlock_fs h fun s1 h1 => ?_
      rw [Finset.erase_singleton] at h1
      rw [wp_bind]
      refine Inode.put_fs hsb (hput hD) (by simp) h1 fun v' s' hr _ hs' => ?_
      obtain rfl := hr.eq (htree.linked _ hD)
      exact hQ names s' halong hnames (fun _ => rfl) hs'
    obtain ⟨hDp, hdepth⟩ := htree.up _ hD hroot
    obtain ⟨k, hdotdot, hparent⟩ := htree.dotdot _ hD hroot
    rw [wp_bind]
    refine Directory.lookup_fs hmem hK (htree.dir _ hD) h (fun j found s1 hfirst hfound _ h1 => ?_)
      (fun s1 hno _ => absurd hdotdot.1 (hno k)) fun e s1 hhidden _ => absurd hhidden.1 (hroomy current)
    rw [hfirst.unique hdotdot, hparent] at hfound
    rw [← hfound] at hDp hdepth
    have hdir : (v.node found.inum).type = .directory := htree.dir _ hDp
    have hmem1 : found ∈ B + found ::ₘ current ::ₘ F := by simp
    rw [wp_bind]
    refine Inode.unlock_fs h1 fun s2 h2 => ?_
    rw [Finset.erase_singleton] at h2
    rw [wp_bind]
    refine Inode.lock_fs hmem1 (by simp) (fun hfree => by rw [hdir] at hfree; cases hfree) h2 fun s3 _ _ h3 => ?_
    have hK3 : found.id ∈ insert found.id (∅ : Finset (Fin NINODE)) := by simp
    have herase : (insert found.id (∅ : Finset (Fin NINODE))).erase found.id = ∅ := by simp
    rw [wp_bind]
    refine getInner_fs hmem1 hK3 h3 ?_
    rw [wp_bind]
    refine htree.nameIn_fs hD hroot hmem1 hK3 hfound h3 fun l s4 hl hname hcomponent h4 => ?_
    dsimp only
    rw [wp_bind]
    refine Inode.unlock_fs h4 fun s5 h5 => ?_
    rw [herase, Multiset.cons_swap] at h5
    rw [wp_bind]
    refine Inode.put_fs hsb (hput hD) (by simp) h5 fun v' s6 hr _ h6 => ?_
    obtain rfl := hr.eq (htree.linked _ hD)
    rw [wp_bind]
    refine Inode.lock_fs (by simp) (by simp) (fun hfree => by rw [hdir] at hfree; cases hfree) h6 fun s7 _ _ h7 => ?_
    exact ih hDp (by omega) (.next (htree.dir _ hDp) hname (by rwa [hl]))
      (List.forall_mem_cons.2 ⟨hcomponent, hnames⟩) h7 fun names' s' halong' hnames' _ =>
        hQ names' s' halong' hnames' fun hbad => absurd hbad hroot

theorem makePath_fs (hsb : sb.Valid) (htree : DirTree v.tree D parent depth) (hroomy : Roomy B F)
    {fuel : ℕ} (hD : D ip.inum) (hfuel : depth ip.inum < fuel) {Q : Except FsError Name → Fs → Prop}
    (h : FsAt sb v B (ip ::ₘ F) ∅ M s)
    (hQ : ∀ names s', v.tree.Along ip.inum ROOTINO names → (∀ name ∈ names, IsComponent name) →
      (ip.inum = ROOTINO → names = []) → FsAt sb v B F ∅ M s' →
      Q (.ok (if pathOf names = [] then [SLASH] else pathOf names)) s') :
    wp (makePath sb fuel ip) Q E s := by
  have hdir : (v.node ip.inum).type = .directory := htree.dir _ hD
  unfold makePath
  rw [wp_bind]
  refine Inode.lock_fs (by simp) (by simp) (fun hfree => by rw [hdir] at hfree; cases hfree) h fun s1 _ _ h1 => ?_
  exact makePathLoop_fs hsb htree hroomy hD hfuel .here (by simp) h1 hQ

theorem DirTree.pathTree (htree : DirTree v.tree D parent depth) {cwd : ℕ} (hcwd : D cwd) :
    PathTree v B cwd fun i => D i ∨ ∃ d k, D d ∧ (v.tree.entry d k).inum ≠ 0 ∧
      (v.tree.entry d k).inum.toNat = i where
  root := Or.inl htree.root
  cwd := Or.inl hcwd
  named d k hd hk := by
    refine Or.inr ⟨d, k, ?_, hk, rfl⟩
    rcases hd with hd | ⟨d', k', hd', hk', rfl⟩
    · exact hd
    · refine (htree.named d' k' hd' hk').2 ?_
      by_contra hnot
      rw [View.entry_of_ne hnot] at hk
      exact hk rfl
  allocated i hi := by
    rcases hi with hd | ⟨d, k, hd, hk, rfl⟩
    · rw [htree.dir i hd]
      decide
    · exact (htree.named d k hd hk).1.1
  kept i hi := by
    rcases hi with hd | ⟨d, k, hd, hk, rfl⟩
    · exact Or.inl (htree.linked i hd)
    · exact Or.inl (htree.named d k hd hk).1.2

theorem pathOf_eq_nil {names : List Name} : pathOf names = [] ↔ names = [] := by
  cases names with
  | nil => exact iff_of_true rfl rfl
  | cons name names => exact iff_of_false (List.cons_ne_nil _ _) (List.cons_ne_nil _ _)

/-- `make_path` of a directory terminates and returns a path that leads to it. -/
theorem makePath_resolves (hsb : sb.Valid) (htree : DirTree v.tree D parent depth) {cwd : Inode}
    (hcwd : cwd ∈ B) (hDcwd : D cwd.inum) (hD : D ip.inum) (h : FsAt sb v B {ip} ∅ M s)
    (hfree : s.TwoFree) {fuel : ℕ} (hfuel : depth ip.inum < fuel) :
    ∃ p s', (makePath sb fuel ip).run s = .ok (.ok p, s') ∧ p.head? = some SLASH ∧
      (∃ names : List Name, (∀ name ∈ names, IsComponent name) ∧
        p = if names = [] then [SLASH] else pathOf names) ∧
      (∃ jp s'', (Path.resolve sb cwd p).run s' = .ok (.ok jp, s'') ∧ jp.inum = ip.inum) ∧
      (ip.inum = ROOTINO → p = [SLASH]) ∧ KeptHandles s' s {ip} := by
  have hroomy : Roomy B 0 := fun jp hfull => h.roomy hfree jp fun id =>
    (hfull id).trans_le (by rw [inSlot_cons, inSlot_cons, inSlot_zero]; omega)
  obtain ⟨r, s', hrun, names, rfl, halong, hnames, hroot, hs'⟩ := wp_total (makePath_fs
    (Q := fun r s' => ∃ names, r = .ok (if names = [] then [SLASH] else pathOf names) ∧
      v.tree.Along ip.inum ROOTINO names ∧ (∀ name ∈ names, IsComponent name) ∧
      (ip.inum = ROOTINO → names = []) ∧ FsAt sb v B 0 ∅ M s')
    hsb htree hroomy hD hfuel h fun names s' halong hnames hroot hs' =>
      ⟨names, by simp only [pathOf_eq_nil], halong, hnames, hroot, hs'⟩)
  have hhead : (if names = [] then [SLASH] else pathOf names).head? = some SLASH := by
    cases names <;> rfl
  have hcomponents : Path.components (if names = [] then [SLASH] else pathOf names) = names := by
    split_ifs with hnil
    · rw [hnil]
      rfl
    · exact components_pathOf hnames
  refine ⟨_, s', hrun, hhead, ⟨names, hnames, rfl⟩, ?_, fun hip => if_pos (hroot hip), ?_⟩
  · rw [Path.resolve_ok_iff hsb (htree.pathTree hDcwd) hcwd hs' hroomy]
    unfold Tree.Resolves
    rw [if_pos hhead]
    exact halong.walk hcomponents []
  · exact hs'.kept (h : FsAt sb v B ({ip} + 0) ∅ M s)

end MakePath

/-! ## A directory two levels below the root -/

def entryBlock (es : List DirEntry) : Bytes := fun i =>
  (es.getD (i / DIRENTSIZE) DirEntry.empty).bytes (i % DIRENTSIZE)

/-- The blocks of the directories `/`, `/a` and `/a/b`, and the bitmap. -/
def nestedBlocks : ℕ → Bytes :=
  upd (upd (upd (upd (fun _ _ => 0) 46 fun j => if j < 6 then 255 else if j = 6 then 3 else 0)
    47 (entryBlock [⟨1, DOT⟩, ⟨1, DOTDOT⟩, ⟨2, [97]⟩]))
    48 (entryBlock [⟨2, DOT⟩, ⟨1, DOTDOT⟩, ⟨3, [98]⟩])) 49 (entryBlock [⟨3, DOT⟩, ⟨2, DOTDOT⟩])

/-- The directories are in inodes 1 to 3, and there are files in inodes 4 to 51. -/
def nestedDisk : ℕ → Bytes :=
  let files := (List.range 48).foldl (fun d j => storeInode mkfsSuper d (j + 4) fileNode) nestedBlocks
  storeInode mkfsSuper (storeInode mkfsSuper (storeInode mkfsSuper files 1 (dirNode 48 47))
    2 (dirNode 48 48)) 3 (dirNode 32 49)

def nestedNode (i : ℕ) : InodeInner :=
  if i = 3 then dirNode 32 49 else if i = 2 then dirNode 48 48 else if i = 1 then dirNode 48 47
  else if 4 ≤ i ∧ i < 52 then fileNode else default

theorem nestedBlocks_node (i : ℕ) : (mkfsSuper.view nestedBlocks).node i = default := by
  unfold SuperBlock.view
  dsimp only
  split_ifs with hi
  · have hblock : nestedBlocks (mkfsSuper.inodeBlock i) = fun _ => 0 := by
      have hlt : mkfsSuper.inodeBlock i < 46 := mkfsSuper_valid.inodes i hi
      unfold nestedBlocks
      rw [upd_of_ne (by omega), upd_of_ne (by omega), upd_of_ne (by omega), upd_of_ne (by omega)]
    rw [hblock]
    rfl
  · rfl

theorem storeFiles_view (n : ℕ) (hn : n ≤ 100) (i : ℕ) :
    let v := mkfsSuper.view ((List.range n).foldl (fun d j => storeInode mkfsSuper d (j + 4) fileNode) nestedBlocks)
    v.node i = (if 4 ≤ i ∧ i < n + 4 then fileNode else default) ∧
      v.bit = (mkfsSuper.view nestedBlocks).bit := by
  induction n with
  | zero => exact ⟨(nestedBlocks_node i).trans (if_neg (by omega)).symm, rfl⟩
  | succ n ih =>
    obtain ⟨hnode, hbit⟩ := ih (by omega)
    rw [List.range_succ, List.foldl_append]
    dsimp only [List.foldl_cons, List.foldl_nil]
    unfold storeInode
    rw [view_storeInode mkfsSuper_valid (show n + 4 < 200 by omega)]
    refine ⟨?_, hbit⟩
    rw [View.setNode_node]
    by_cases hi : i = n + 4
    · rw [hi, upd_self, if_pos (by omega)]
    · rw [upd_of_ne hi]
      refine hnode.trans ?_
      by_cases hin : 4 ≤ i ∧ i < n + 4
      · rw [if_pos hin, if_pos (by omega)]
      · rw [if_neg hin, if_neg (by omega)]

theorem nestedDisk_node : (mkfsSuper.view nestedDisk).node = nestedNode := by
  funext i
  unfold nestedDisk storeInode
  rw [view_storeInode mkfsSuper_valid (by decide), view_storeInode mkfsSuper_valid (by decide),
    view_storeInode mkfsSuper_valid (by decide)]
  simp only [View.setNode_node, nestedNode]
  by_cases h3 : i = 3
  · rw [h3, upd_self, if_pos rfl]
  by_cases h2 : i = 2
  · rw [upd_of_ne h3, h2, upd_self, if_neg (by decide), if_pos rfl]
  by_cases h1 : i = 1
  · rw [upd_of_ne h3, upd_of_ne h2, h1, upd_self, if_neg (by decide), if_neg (by decide), if_pos rfl]
  · rw [upd_of_ne h3, upd_of_ne h2, upd_of_ne h1, if_neg h3, if_neg h2, if_neg h1]
    exact (storeFiles_view 48 (by decide) i).1

theorem nestedDisk_bit {b : ℕ} (hb : b < 2000) :
    (mkfsSuper.view nestedDisk).bit b = decide (b < 50) := by
  have hbits : (mkfsSuper.view nestedDisk).bit = (mkfsSuper.view nestedBlocks).bit := by
    unfold nestedDisk storeInode
    rw [view_storeInode mkfsSuper_valid (by decide), view_storeInode mkfsSuper_valid (by decide),
      view_storeInode mkfsSuper_valid (by decide)]
    exact (storeFiles_view 48 (by decide) 0).2
  rw [hbits]
  by_cases hlow : b < 56
  · have h : ∀ b < 56, (mkfsSuper.view nestedBlocks).bit b = decide (b < 50) := by decide +kernel
    exact h b hlow
  · have hB : BPB = 8192 := rfl
    rw [decide_eq_false (by omega), bit_eq_false hb]
    have hzero : nestedBlocks (mkfsSuper.bmapstart + b / BPB) (b % BPB / 8) = 0 := by
      have hblock : mkfsSuper.bmapstart + b / BPB = 46 := by
        change 46 + b / BPB = 46
        rw [hB]
        omega
      rw [hblock, hB]
      unfold nestedBlocks
      rw [upd_of_ne (by decide), upd_of_ne (by decide), upd_of_ne (by decide), upd_self, if_neg (by omega),
        if_neg (by omega)]
    rw [hzero]
    exact UInt8.zero_and

theorem nestedNode_cases (i : ℕ) :
    i = 1 ∨ i = 2 ∨ i = 3 ∨ nestedNode i = fileNode ∨ nestedNode i = default := by
  by_cases hdir : i = 1 ∨ i = 2 ∨ i = 3
  · omega
  · rw [not_or, not_or] at hdir
    refine .inr (.inr (.inr ?_))
    unfold nestedNode
    rw [if_neg hdir.2.2, if_neg hdir.2.1, if_neg hdir.1]
    split_ifs
    · exact .inl rfl
    · exact .inr rfl

theorem nestedDisk_ok : DiskOk mkfsSuper (mkfsSuper.view nestedDisk) := by
  have hdir {i : ℕ} (hi : (nestedNode i).addrs 0 ≠ 0) : i = 1 ∨ i = 2 ∨ i = 3 := by
    rcases nestedNode_cases i with h | h | h | h | h
    · exact .inl h
    · exact .inr (.inl h)
    · exact .inr (.inr h)
    all_goals
      rw [h] at hi
      exact absurd rfl hi
  refine DiskOk.oneBlock (a := fun i => (nestedNode i).addrs 0) (m := 50) (by decide) (fun i => ?_)
    (fun _ => nestedDisk_bit) (fun i hi => ?_) (fun i j hi hij => ?_) (fun b hlo hhi => ⟨b - 46, ?_⟩) (fun i => ?_)
  · rw [nestedDisk_node]
    rcases nestedNode_cases i with rfl | rfl | rfl | h | h
    iterate 3 rfl
    all_goals
      rw [h]
      decide
  · rcases hdir hi with rfl | rfl | rfl <;> decide
  · have hj := hdir (hij ▸ hi)
    rcases hdir hi with rfl | rfl | rfl <;> rcases hj with rfl | rfl | rfl <;> first | rfl | exact absurd hij (by decide)
  · obtain rfl | rfl | rfl : b = 47 ∨ b = 48 ∨ b = 49 := by omega
    all_goals decide
  · rw [nestedDisk_node]
    rcases nestedNode_cases i with rfl | rfl | rfl | h | h
    iterate 3 decide
    all_goals
      rw [h]
      decide

/-- A process in `/a/b`, of which the call holds a handle too, while the other slots of the inode
table are taken by the root and the files. -/
def nestedFs : Fs :=
  { mkfsFs with
    disk := nestedDisk
    itable := fun id =>
      if id = 0 then ⟨1, ROOTINO, false, false, default⟩
      else if id = 1 then ⟨2, 3, false, false, default⟩
      else ⟨1, id.val + 2, false, false, default⟩ }

theorem nestedDisk_live {d : ℕ} (hd : d = 1 ∨ d = 2 ∨ d = 3) :
    (mkfsSuper.view nestedDisk).Live d 3 := by
  have hD : DIRENTSIZE = 16 := rfl
  have hsize : ((mkfsSuper.view nestedDisk).node d).size.toNat ≤ 48 := by
    rcases hd with rfl | rfl | rfl <;> decide +kernel
  intro k hk hlt
  rw [hD] at hlt
  omega

theorem nestedDisk_tree :
    DirTree (mkfsSuper.view nestedDisk).tree (fun d => d = 1 ∨ d = 2 ∨ d = 3) (· - 1) id := by
  have hlt {d k : ℕ} (hd : d = 1 ∨ d = 2 ∨ d = 3)
      (hk : ((mkfsSuper.view nestedDisk).tree.entry d k).inum ≠ 0) : k < 3 :=
    (nestedDisk_live hd).lt ⟨hk, rfl⟩
  refine ⟨Or.inl rfl, ?_, ?_, ?_, ?_, fun d hd => (nestedDisk_live hd).distinct ?_, ?_, ?_, ?_⟩
  · rintro d (rfl | rfl | rfl) <;> decide +kernel
  · rintro d (rfl | rfl | rfl) hroot
    · exact absurd rfl hroot
    · exact ⟨Or.inl rfl, by decide⟩
    · exact ⟨Or.inr (Or.inl rfl), by decide⟩
  · rintro d (rfl | rfl | rfl) hroot
    · exact absurd rfl hroot
    all_goals exact ⟨1, ⟨by decide +kernel, by decide +kernel⟩, by decide +kernel⟩
  · have honly : ∀ k < 3, (((mkfsSuper.view nestedDisk).tree.entry 1 k).inum.toNat = 2 → k = 2) ∧
        (((mkfsSuper.view nestedDisk).tree.entry 2 k).inum.toNat = 3 → k = 2) := by
      decide +kernel
    rintro d (rfl | rfl | rfl) hroot
    · exact absurd rfl hroot
    · exact ⟨2, by decide +kernel, fun k hk => (honly k (hlt (Or.inl rfl) hk.1)).1 hk.2⟩
    · exact ⟨2, by decide +kernel, fun k hk => (honly k (hlt (Or.inr (Or.inl rfl)) hk.1)).2 hk.2⟩
  · rcases hd with rfl | rfl | rfl <;> decide +kernel
  · intro d k hd hk
    have hall : ∀ k < 3, ((mkfsSuper.view nestedDisk).tree.entry d k).inum ≠ 0 →
        (((mkfsSuper.view nestedDisk).tree.entry d k).name ≠ [] ∧
          SLASH ∉ ((mkfsSuper.view nestedDisk).tree.entry d k).name) ∧
        ByteArray.validateUTF8 ⟨⟨((mkfsSuper.view nestedDisk).tree.entry d k).name⟩⟩ = true := by
      rcases hd with rfl | rfl | rfl <;> decide +kernel
    obtain ⟨⟨h1, h2⟩, h3⟩ := hall k (hlt hd hk) hk
    exact ⟨⟨h1, h2⟩, h3⟩
  · intro d k hd hk
    have hall : ∀ k < 3, ((mkfsSuper.view nestedDisk).tree.entry d k).inum ≠ 0 →
        ((mkfsSuper.view nestedDisk).tree.entry d k).inum.toNat = 1 ∨
        ((mkfsSuper.view nestedDisk).tree.entry d k).inum.toNat = 2 ∨
        ((mkfsSuper.view nestedDisk).tree.entry d k).inum.toNat = 3 := by
      rcases hd with rfl | rfl | rfl <;> decide +kernel
    have hthree := hall k (hlt hd hk) hk
    refine ⟨?_, fun _ => hthree⟩
    rcases hthree with h | h | h <;> rw [h] <;> decide +kernel
  · rintro d (rfl | rfl | rfl) <;> decide +kernel

/-- With a full inode table `make_path` of `/a/b` fails. -/
theorem makePath_fails :
    DirTree (mkfsSuper.view nestedFs.disk).tree (fun d => d = 1 ∨ d = 2 ∨ d = 3)
      (· - 1) id ∧
    ∃ s', (makePath mkfsSuper 4 ⟨1, 3⟩).run nestedFs = .ok (.error .outOfInode, s') := by
  have hrun : returnsErr .outOfInode ((makePath mkfsSuper 4 ⟨1, 3⟩).run nestedFs) = true := by
    decide +kernel
  exact ⟨nestedDisk_tree, exists_of_returnsErr hrun⟩

theorem nestedDisk_fsOk : FsOk mkfsSuper (mkfsSuper.view nestedDisk) := by
  have hdir {d : ℕ} (hd : ((mkfsSuper.view nestedDisk).node d).type = .directory) : d = 1 ∨ d = 2 ∨ d = 3 := by
    rw [nestedDisk_node] at hd
    rcases nestedNode_cases d with h | h | h | h | h
    · exact .inl h
    · exact .inr (.inl h)
    · exact .inr (.inr h)
    all_goals
      rw [h] at hd
      cases hd
  refine ⟨nestedDisk_ok, fun i hi => ?_, fun d hd => ?_, fun d hd k hk => ?_⟩
  · rw [nestedDisk_node] at hi ⊢
    rcases nestedNode_cases i with rfl | rfl | rfl | h | h
    iterate 3 cases hi
    · rw [h] at hi
      cases hi
    · rw [h]
      exact ⟨rfl, rfl, rfl⟩
  · rw [nestedDisk_node]
    rcases hdir hd with rfl | rfl | rfl <;> rfl
  · have hk3 : k < 3 := by
      have hD : DIRENTSIZE = 16 := rfl
      rw [nestedDisk_node, hD] at hk
      have hsize : (nestedNode d).size.toNat ≤ 48 := by rcases hdir hd with rfl | rfl | rfl <;> decide
      omega
    have hall : ∀ k < 3, ((mkfsSuper.view nestedDisk).entry d k).inum.toNat < mkfsSuper.ninodes := by
      rcases hdir hd with rfl | rfl | rfl <;> decide +kernel
    exact hall k hk3

/-- A process in `/a/b`, alone, of which the call holds a handle too. -/
def aloneFs : Fs :=
  { nestedFs with
    itable := fun id => if id = 0 then ⟨2, 3, false, false, default⟩ else ⟨0, 0, false, false, default⟩ }

theorem aloneFs_at : FsAt mkfsSuper (mkfsSuper.view nestedDisk) {⟨0, 3⟩} {⟨0, 3⟩} ∅
    ⟨0, False, (mkfsSuper.view nestedDisk).tree.type⟩ aloneFs := by
  have hused {id : Fin NINODE} (hr : 0 < (aloneFs.itable id).ref) : id = 0 := by
    by_contra hid
    have hfree : aloneFs.itable id = ⟨0, 0, false, false, default⟩ := if_neg hid
    rw [hfree] at hr
    exact absurd hr (Nat.lt_irrefl 0)
  refine ⟨nestedDisk_fsOk, rfl, ⟨fun id => ?_, fun ip hip => ?_, fun id id' hr hr' _ => ?_, ?_⟩,
    ⟨rfl, List.nodup_nil, fun hc => hc.elim⟩, fun _ _ => rfl⟩
  · by_cases hid : id = 0
    · subst hid
      exact ⟨rfl, fun _ => by decide, fun _ hv => absurd hv (by decide), by decide, fun h => by simp at h⟩
    · have hfree : aloneFs.itable id = ⟨0, 0, false, false, default⟩ := if_neg hid
      rw [hfree]
      refine ⟨?_, by simp, by simp, by simp, by simp⟩
      rw [← Multiset.cons_zero, inSlot_cons, if_neg (Ne.symm hid)]
      rfl
  · have hip' : ip = ⟨0, 3⟩ := by simpa using hip
    rw [hip']
    rfl
  · rw [hused hr, hused hr']
  · rintro ip hip
    rw [Multiset.mem_singleton.1 hip, nestedDisk_node]
    decide

/-- The path of `/a/b` leads back to it. -/
theorem makePath_nested : ∃ p s', (makePath mkfsSuper 4 ⟨0, 3⟩).run aloneFs = .ok (.ok p, s') ∧
    p.head? = some SLASH ∧
    ∃ jp s'', (Path.resolve mkfsSuper ⟨0, 3⟩ p).run s' = .ok (.ok jp, s'') ∧ jp.inum = 3 := by
  obtain ⟨p, s', hrun, hhead, -, hresolve, -⟩ := makePath_resolves mkfsSuper_valid nestedDisk_tree
    (Multiset.mem_singleton_self _) (.inr (.inr rfl)) (.inr (.inr rfl)) aloneFs_at
    ⟨1, 2, by decide, by decide, by decide⟩ (by decide : 3 < 4)
  exact ⟨p, s', hrun, hhead, hresolve⟩

end Octopos
