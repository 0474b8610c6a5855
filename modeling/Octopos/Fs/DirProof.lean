import Octopos.Fs.Handles

/-!
# What the directory functions do

A directory entry that is written is read back, with its name cut off (`storedName`). The loops over
the entries of a directory find the first entry that matches, and `Directory::link` fills the first
empty slot.
-/

namespace Octopos

/-! ## Entries as bytes -/

theorem DirEntry.load_congr {b c : Bytes} {o p : ℕ} (h : ∀ i < DIRENTSIZE, b (o + i) = c (p + i)) :
    DirEntry.load b o = DirEntry.load c p := by
  have hD : DIRENTSIZE = 16 := rfl
  have hS : DIRSIZE = 14 := rfl
  have hinum : get16 b o = get16 c p := by
    have h0 := h 0 (by omega)
    have h1 := h 1 (by omega)
    unfold get16
    rw [add_zero, add_zero] at h0
    rw [h0, h1]
  have hname : (List.range DIRSIZE).map (fun j => b (o + 2 + j)) =
      (List.range DIRSIZE).map fun j => c (p + 2 + j) := by
    refine List.map_congr_left fun j hj => ?_
    rw [List.mem_range] at hj
    rw [add_assoc, add_assoc]
    exact h (2 + j) (by omega)
  unfold DirEntry.load
  rw [hinum, hname]

theorem takeWhile_append_zeros (l : Name) (n : ℕ) :
    (l ++ List.replicate n 0).takeWhile (· ≠ 0) = l.takeWhile (· ≠ 0) := by
  induction l with
  | nil =>
    cases n with
    | zero => rfl
    | succ n => simp [List.replicate_succ]
  | cons a l ih =>
    rw [List.cons_append, List.takeWhile_cons, List.takeWhile_cons, ih]

theorem map_getD_range {l : Name} {n : ℕ} (h : l.length ≤ n) :
    (List.range n).map (fun j => l.getD j 0) = l ++ List.replicate (n - l.length) 0 := by
  refine List.ext_getElem (by simp; omega) fun j h1 h2 => ?_
  rw [List.getElem_map, List.getElem_range, List.getElem_append]
  split_ifs with hj
  · exact List.getD_eq_getElem l 0 hj
  · rw [List.getElem_replicate]
    exact List.getD_eq_default l 0 (by omega)

theorem DirEntry.load_bytes {b : Bytes} {o : ℕ} {e : DirEntry}
    (h : ∀ i < DIRENTSIZE, b (o + i) = e.bytes i) :
    DirEntry.load b o = ⟨e.inum, storedName e.name⟩ := by
  have hD : DIRENTSIZE = 16 := rfl
  have hS : DIRSIZE = 14 := rfl
  have hinum : get16 b o = e.inum := get16_of_leBytes fun i hi => by
    rw [h i (by omega), DirEntry.bytes, if_pos hi]
  have hname : (List.range DIRSIZE).map (fun j => b (o + 2 + j)) =
      (List.range DIRSIZE).map fun j => (e.name.take DIRSIZE).getD j 0 := by
    refine List.map_congr_left fun j hj => ?_
    rw [List.mem_range] at hj
    rw [add_assoc, h (2 + j) (by omega), DirEntry.bytes, if_neg (by omega), Nat.add_sub_cancel_left]
  unfold DirEntry.load
  rw [hinum, hname, map_getD_range (List.length_take_le _ _), takeWhile_append_zeros]
  rfl

/-! ## Reading entries -/

section Dir

variable {sb : SuperBlock} {v v' : View} {B F : Multiset Inode} {K : Finset (Fin NINODE)}
  {M : Mode} {E : FsPanic → Prop} {s : Fs} {ip : Inode}
variable {Q : Except FsError ℕ → Fs → Prop} {name : Name}

theorem Inode.read_fs (hip : ip ∈ B + F) (hK : ip.id ∈ K) {offset len : ℕ} {dst : Dst}
    {Q : Except FsError (ℕ × Bytes) → Fs → Prop} (h : FsAt sb v B F K M s)
    (hok : ∀ n s', n = min (len % 2 ^ 32) ((v.node ip.inum).size.toNat - offset) →
      FsAt sb v B F K M s' →
      Q (.ok (n, blit (fun _ => 0) 0 n fun i => v.byte ip.inum (offset + i))) s')
    (herr : ∀ s', ((v.node ip.inum).size.toNat < offset ∨ 2 ^ 32 ≤ offset + len % 2 ^ 32 ∨
        dst.accepts (min (len % 2 ^ 32) ((v.node ip.inum).size.toNat - offset)) = false) →
      FsAt sb v B F K M s' → Q (.error .read) s') : wp (read sb ip offset len dst) Q E s := by
  have hs := h.synced hip hK
  have hat : wp (read sb ip offset len dst) (fun r s' => At sb v s.itable s' ∧
      ((∃ n, n = min (len % 2 ^ 32) ((v.node ip.inum).size.toNat - offset) ∧
        r = .ok (n, blit (fun _ => 0) 0 n fun i => v.byte ip.inum (offset + i))) ∨
      ((v.node ip.inum).size.toNat < offset ∨ 2 ^ 32 ≤ offset + len % 2 ^ 32 ∨
        dst.accepts (min (len % 2 ^ 32) ((v.node ip.inum).size.toNat - offset)) = false) ∧
        r = .error .read)) E s := by
    rw [← Inode.read_mod]
    refine Inode.read_wp (h.ok.disk.own_cur hs) (h.ok.disk.noHole hs) (Nat.mod_lt _ (by decide)) h.at
      (fun n s' hn _ _ hs' => ⟨hs', Or.inl ⟨n, ?_, ?_⟩⟩) fun s' hs' hbad => ⟨hs', Or.inr ⟨?_, rfl⟩⟩
    · rwa [hs] at hn
    · rw [hs.contents]
    · rwa [hs] at hbad
  have hheld : wp (read sb ip offset len dst) (fun r s' => (∀ n out, r = .ok (n, out) →
        n = min (len % 2 ^ 32) ((v.node ip.inum).size.toNat - offset) → Holding M (fun _ => 0) s') ∧
      (∀ e, r = .error e → Holding M (fun _ => 0) s')) M.Escapes s := by
    refine Inode.read_held h.held (fun n out s' _ hn => ⟨fun n' out' heq hmin => hn ?_,
      fun e he => (by cases he)⟩) fun e s' hh => ⟨fun n out he => (by cases he), fun _ _ => hh⟩
    cases heq
    rwa [hs]
  refine wp_both hat hheld ?_ fun _ he _ => he
  rintro r s' ⟨hs', ⟨n, hn, rfl⟩ | ⟨hbad, rfl⟩⟩ ⟨hok', herr'⟩
  · exact hok n s' hn (.of_table h.ok hs' h.table (hok' n _ rfl hn) h.types)
  · exact herr s' hbad (.of_table h.ok hs' h.table (herr' _ rfl) h.types)

theorem Directory.fromInode_fs (hip : ip ∈ B + F) (hK : ip.id ∈ K)
    (hdir : (v.node ip.inum).type = .directory) {k : ℕ}
    (hk : DIRENTSIZE * k < (v.node ip.inum).size.toNat) {Q : Except FsError DirEntry → Fs → Prop}
    (h : FsAt sb v B F K M s) (hQ : ∀ s', FsAt sb v B F K M s' → Q (.ok (v.entry ip.inum k)) s') :
    wp (fromInode sb ip (DIRENTSIZE * k)) Q E s := by
  have hD : DIRENTSIZE = 16 := rfl
  have hmod := h.ok.dirSize ip.inum hdir
  have h32 := UInt32.toNat_lt (v.node ip.inum).size
  have hlen : DIRENTSIZE % 2 ^ 32 = DIRENTSIZE := rfl
  have hn : min DIRENTSIZE ((v.node ip.inum).size.toNat - DIRENTSIZE * k) = DIRENTSIZE := by
    rw [hD] at hk hmod ⊢
    omega
  have hsmall : DIRENTSIZE * k + DIRENTSIZE < 2 ^ 32 := by
    rw [hD] at hk hmod ⊢
    omega
  unfold fromInode
  rw [wp_bind]
  refine Inode.read_fs hip hK h ?_ ?_
  · intro n s' hmin hs'
    rw [hlen, hn] at hmin
    subst hmin
    refine wp_ite (fun hne => absurd rfl hne) fun _ => ?_
    have hload : DirEntry.load (blit (fun _ => 0) 0 DIRENTSIZE fun i =>
        v.byte ip.inum (DIRENTSIZE * k + i)) 0 = v.entry ip.inum k :=
      DirEntry.load_congr fun i hi => blit_inside hi
    rw [wp_pure, hload]
    exact hQ s' hs'
  · intro s' hbad _
    rw [hlen] at hbad
    rcases hbad with hbad | hbad | hbad
    · omega
    · omega
    · cases hbad

def View.slots (v : View) (d : ℕ) : ℕ := (v.node d).size.toNat / DIRENTSIZE

theorem FsOk.slots_mul (h : FsOk sb v) {d : ℕ} (hdir : (v.node d).type = .directory) :
    DIRENTSIZE * v.slots d = (v.node d).size.toNat := by
  rw [View.slots, Nat.mul_div_cancel' (Nat.dvd_of_mod_eq_zero (h.dirSize d hdir))]

theorem FsOk.lt_size (h : FsOk sb v) {d k : ℕ} (hdir : (v.node d).type = .directory) :
    DIRENTSIZE * k < (v.node d).size.toNat ↔ k < v.slots d := by
  rw [← h.slots_mul hdir]
  exact Nat.mul_lt_mul_left (by decide)

theorem entryOffsets_eq (j n : ℕ) :
    entryOffsets (DIRENTSIZE * j) (DIRENTSIZE * n) =
      (List.range' j (n - j)).map (DIRENTSIZE * ·) := by
  have hD : DIRENTSIZE = 16 := rfl
  have hcount : (DIRENTSIZE * n - DIRENTSIZE * j + (DIRENTSIZE - 1)) / DIRENTSIZE = n - j := by
    rw [hD]
    omega
  unfold entryOffsets
  rw [hcount]
  refine List.ext_getElem (by simp) fun i h1 h2 => ?_
  simp only [List.getElem_map, List.getElem_range, List.getElem_range', one_mul]
  rw [Nat.mul_add]

theorem FsOk.tree_entry (h : FsOk sb v) {d k : ℕ} (hdir : (v.node d).type = .directory)
    (hk : k < v.slots d) :
    v.tree.entry d k = if (v.entry d k).inum = 0 then DirEntry.empty else v.entry d k := by
  have hlt := (h.lt_size hdir).2 hk
  unfold View.tree
  dsimp only
  by_cases h0 : (v.entry d k).inum = 0
  · rw [if_neg (by simp [h0]), if_pos h0]
  · rw [if_pos ⟨hdir, hlt, h0⟩, if_neg h0]

theorem FsOk.tree_entry_inum (h : FsOk sb v) {d k : ℕ} (hdir : (v.node d).type = .directory)
    (hk : k < v.slots d) : (v.tree.entry d k).inum = (v.entry d k).inum := by
  rw [h.tree_entry hdir hk]
  split_ifs with h0
  · exact h0.symm
  · rfl

theorem FsOk.match_iff (h : FsOk sb v) {d k : ℕ} (hdir : (v.node d).type = .directory)
    (hk : k < v.slots d) (name : Name) :
    v.tree.Match d k name ↔ (v.entry d k).inum ≠ 0 ∧ (v.entry d k).name = name := by
  unfold Tree.Match
  rw [h.tree_entry hdir hk]
  split_ifs with h0
  · exact iff_of_false (fun hm => hm.1 rfl) fun hm => hm.1 h0
  · rfl

theorem FsOk.tree_entry_of_le (h : FsOk sb v) {d k : ℕ} (hk : v.slots d ≤ k) :
    v.tree.entry d k = DirEntry.empty :=
  if_neg fun ⟨hdir, hlt, _⟩ => absurd ((h.lt_size hdir).1 hlt) (by omega)

/-! ## Loops over the entries -/

theorem Directory.lookupIn_fs (hip : ip ∈ B + F) (hK : ip.id ∈ K)
    (hdir : (v.node ip.inum).type = .directory) {j n : ℕ} (hn : j + n = v.slots ip.inum)
    {Q : Except FsError (Option (ℕ × Inode)) → Fs → Prop} (h : FsAt sb v B F K M s)
    (hsome : ∀ k found s', j ≤ k → v.tree.Match ip.inum k name →
      (∀ l < k, j ≤ l → ¬v.tree.Match ip.inum l name) →
      found.inum = (v.tree.entry ip.inum k).inum.toNat →
      (Full B F → ∃ jp ∈ B + F, jp.inum = found.inum) → FsAt sb v B (found ::ₘ F) K M s' →
      Q (.ok (some (DIRENTSIZE * k, found))) s')
    (hnone : ∀ s', (∀ l, j ≤ l → ¬v.tree.Match ip.inum l name) → FsAt sb v B F K M s' →
      Q (.ok none) s')
    (herr : ∀ e k s', j ≤ k → v.tree.Match ip.inum k name →
      (∀ l < k, j ≤ l → ¬v.tree.Match ip.inum l name) → Full B F →
      (∀ jp ∈ B + F, jp.inum ≠ (v.tree.entry ip.inum k).inum.toNat) → FsAt sb v B F K M s' →
      Q (.error e) s') :
    wp (lookupIn sb ip name ((List.range' j n).map (DIRENTSIZE * ·))) Q E s := by
  induction n generalizing j s with
  | zero =>
    refine hnone s (fun l hl hm => ?_) h
    rw [Tree.Match, h.ok.tree_entry_of_le (by omega)] at hm
    exact hm.1 rfl
  | succ n ih =>
    have hj : j < v.slots ip.inum := by omega
    have hmatch := h.ok.match_iff hdir hj name
    rw [List.range'_succ, List.map_cons]
    unfold lookupIn
    rw [wp_bind]
    refine Directory.fromInode_fs hip hK hdir ((h.ok.lt_size hdir).2 hj) h fun s1 h1 => ?_
    -- the loop goes on if this slot does not match
    have hnext (hne : ¬v.tree.Match ip.inum j name) :
        wp (lookupIn sb ip name ((List.range' (j + 1) n).map (DIRENTSIZE * ·))) Q E s1 := by
      have hbefore {k : ℕ} (hl : ∀ l < k, j + 1 ≤ l → ¬v.tree.Match ip.inum l name) (l : ℕ) (hlk : l < k)
          (hjl : j ≤ l) : ¬v.tree.Match ip.inum l name := by
        by_cases heq : l = j
        · rwa [heq]
        · exact hl l hlk (by omega)
      refine ih (by omega) h1 (fun k found s' hk hm hl => hsome k found s' (by omega) hm (hbefore hl))
        (fun s' hl => hnone s' fun l hjl => ?_) fun e k s' hk hm hl =>
          herr e k s' (by omega) hm (hbefore hl)
      by_cases heq : l = j
      · rwa [heq]
      · exact hl l (by omega)
    refine wp_ite (fun h0 => hnext fun hm => (hmatch.1 hm).1 h0) fun h0 => ?_
    refine wp_ite (fun hname => ?_) fun hname => hnext fun hm => hname (hmatch.1 hm).2
    rw [wp_bind]
    have hinum := h.ok.tree_entry_inum hdir hj
    refine Inode.get_fs (h.ok.entry _ hdir j ((h.ok.lt_size hdir).2 hj)) h1
      (fun found s2 hfound hfull h2 => ?_) fun e s2 hfull hno h2 => ?_
    · exact hsome j found s2 le_rfl (hmatch.2 ⟨h0, hname⟩) (fun l hl hjl => by omega)
        (by rw [hinum, hfound]) (by rwa [hfound]) h2
    · exact herr e j s2 le_rfl (hmatch.2 ⟨h0, hname⟩) (fun l hl hjl => by omega) hfull (by rwa [hinum]) h2

/-- The name has an entry, but the inode table is full of other inodes. -/
def Hidden (B F : Multiset Inode) (T : Tree) (d : ℕ) (name : Name) : Prop :=
  Full B F ∧ ∃ k, T.First d k name ∧ ∀ jp ∈ B + F, jp.inum ≠ (T.entry d k).inum.toNat

/-- `Directory::lookup` finds the first entry of the name, unless the inode table is full. -/
theorem Directory.lookup_fs (hip : ip ∈ B + F) (hK : ip.id ∈ K)
    (hdir : (v.node ip.inum).type = .directory)
    {Q : Except FsError (Option (ℕ × Inode)) → Fs → Prop} (h : FsAt sb v B F K M s)
    (hsome : ∀ k found s', v.tree.First ip.inum k name →
      found.inum = (v.tree.entry ip.inum k).inum.toNat →
      (Full B F → ∃ jp ∈ B + F, jp.inum = found.inum) → FsAt sb v B (found ::ₘ F) K M s' →
      Q (.ok (some (DIRENTSIZE * k, found))) s')
    (hnone : ∀ s', (∀ l, ¬v.tree.Match ip.inum l name) → FsAt sb v B F K M s' → Q (.ok none) s')
    (herr : ∀ e s', Hidden B F v.tree ip.inum name → FsAt sb v B F K M s' → Q (.error e) s') :
    wp (lookup sb ip name) Q E s := by
  unfold lookup
  rw [wp_bind]
  refine getInner_fs hip hK h (wp_ite (fun hne => absurd hdir hne) fun _ => ?_)
  have hoff := entryOffsets_eq 0 (v.slots ip.inum)
  rw [mul_zero, h.ok.slots_mul hdir, Nat.sub_zero] at hoff
  rw [hoff]
  exact Directory.lookupIn_fs hip hK hdir (Nat.zero_add _) h
    (fun k found s' _ hm hl => hsome k found s' ⟨hm, fun l hlk => hl l hlk (Nat.zero_le _)⟩)
    (fun s' hl => hnone s' fun l => hl l (Nat.zero_le _))
    fun e k s' _ hm hl hfull hno => herr e s' ⟨hfull, k, ⟨hm, fun l hlk => hl l hlk (Nat.zero_le _)⟩, hno⟩

theorem Directory.isEmptyIn_fs (hip : ip ∈ B + F) (hK : ip.id ∈ K)
    (hdir : (v.node ip.inum).type = .directory) {j n : ℕ} (hn : n = 0 ∨ j + n = v.slots ip.inum)
    {Q : Bool → Fs → Prop} (h : FsAt sb v B F K M s)
    (hQ : ∀ r s', (r = true ↔ ∀ l, j ≤ l → l < j + n → (v.tree.entry ip.inum l).inum = 0) →
      FsAt sb v B F K M s' → Q r s') :
    wp (isEmptyIn sb ip ((List.range' j n).map (DIRENTSIZE * ·))) Q E s := by
  induction n generalizing j s with
  | zero => exact hQ true s (iff_of_true rfl fun l _ _ => by omega) h
  | succ n ih =>
    have hj : j < v.slots ip.inum := by omega
    have hinum := h.ok.tree_entry_inum hdir hj
    rw [List.range'_succ, List.map_cons]
    unfold isEmptyIn
    rw [wp_bind]
    refine Directory.fromInode_fs hip hK hdir ((h.ok.lt_size hdir).2 hj) h fun s1 h1 => ?_
    refine wp_ite (fun hne => hQ false s1 (iff_of_false (by simp) fun hall => ?_) h1) fun h0 => ?_
    · exact hne (hinum.symm.trans (hall j le_rfl (by omega)))
    rw [not_not, ← hinum] at h0
    refine ih (by omega) h1 fun r s' hr => hQ r s' (hr.trans ⟨fun hall l hjl hl => ?_, fun hall l hjl hl => ?_⟩)
    · by_cases heq : l = j
      · rwa [heq]
      · exact hall l (by omega) (by omega)
    · exact hall l (by omega) (by omega)

theorem Directory.isEmpty_fs (hip : ip ∈ B + F) (hK : ip.id ∈ K)
    (hdir : (v.node ip.inum).type = .directory) {Q : Bool → Fs → Prop} (h : FsAt sb v B F K M s)
    (hQ : ∀ r s', (r = true ↔ ∀ l, 2 ≤ l → (v.tree.entry ip.inum l).inum = 0) →
      FsAt sb v B F K M s' → Q r s') : wp (isEmpty sb ip) Q E s := by
  unfold isEmpty
  rw [wp_bind]
  refine getInner_fs hip hK h ?_
  have hoff := entryOffsets_eq 2 (v.slots ip.inum)
  rw [mul_comm DIRENTSIZE 2, h.ok.slots_mul hdir] at hoff
  rw [hoff]
  refine Directory.isEmptyIn_fs hip hK hdir (by omega) h fun r s' hr => hQ r s' (hr.trans
    ⟨fun hall l hl => ?_, fun hall l hl _ => hall l hl⟩)
  by_cases hlt : l < v.slots ip.inum
  · exact hall l hl (by omega)
  · rw [h.ok.tree_entry_of_le (by omega)]
    rfl

theorem Directory.emptySlot_fs (hip : ip ∈ B + F) (hK : ip.id ∈ K)
    (hdir : (v.node ip.inum).type = .directory) {j n : ℕ} (hn : j + n = v.slots ip.inum)
    (h : FsAt sb v B F K M s)
    (hQ : ∀ k s', j ≤ k → k ≤ v.slots ip.inum → (v.tree.entry ip.inum k).inum = 0 →
      (∀ l < k, j ≤ l → (v.tree.entry ip.inum l).inum ≠ 0) → FsAt sb v B F K M s' →
      Q (.ok (DIRENTSIZE * k)) s') :
    wp (emptySlot sb ip (DIRENTSIZE * v.slots ip.inum) ((List.range' j n).map (DIRENTSIZE * ·))) Q E
      s := by
  induction n generalizing j s with
  | zero =>
    refine hQ (v.slots ip.inum) s (by omega) le_rfl ?_ (fun l hl hjl => by omega) h
    rw [h.ok.tree_entry_of_le le_rfl]
    rfl
  | succ n ih =>
    have hj : j < v.slots ip.inum := by omega
    have hinum := h.ok.tree_entry_inum hdir hj
    rw [List.range'_succ, List.map_cons]
    unfold emptySlot
    rw [wp_bind]
    refine Directory.fromInode_fs hip hK hdir ((h.ok.lt_size hdir).2 hj) h fun s1 h1 => ?_
    refine wp_ite (fun h0 => ?_) fun h0 => ?_
    · exact hQ j s1 le_rfl hj.le (by rw [hinum, h0]) (fun l hl hjl => by omega) h1
    · refine ih (by omega) h1 fun k s' hk hks hempty hl => hQ k s' (by omega) hks hempty fun l hlk hjl => ?_
      by_cases heq : l = j
      · rw [heq, hinum]
        exact h0
      · exact hl l hlk (by omega)

/-! ## Writing an entry -/

theorem OnlyNode.tree_entry {i : ℕ} (h : OnlyNode i v v')
    (htype : (v'.node i).type = (v.node i).type) (hnlink : (v'.node i).nlink = (v.node i).nlink) :
    v'.tree = ⟨v.tree.type, v.tree.nlink, upd v.tree.entry i (v'.tree.entry i)⟩ := by
  have h1 : upd v.tree.type i (v'.node i).type = v.tree.type := by
    rw [htype]
    exact upd_eq_self ..
  have h2 : upd v.tree.nlink i (v'.node i).nlink = v.tree.nlink := by
    rw [hnlink]
    exact upd_eq_self ..
  refine h.tree.trans ?_
  rw [h1, h2]

/-- An inode that keeps its type, links, size and bytes keeps its part of the tree. -/
theorem OnlyNode.tree_eq {i : ℕ} (h : OnlyNode i v v')
    (htype : (v'.node i).type = (v.node i).type) (hnlink : (v'.node i).nlink = (v.node i).nlink)
    (hsize : (v'.node i).size = (v.node i).size) (hbyte : v'.byte i = v.byte i) :
    v'.tree = v.tree := by
  have hentry : v'.tree.entry i = v.tree.entry i := by
    funext k
    unfold View.tree View.entry
    dsimp only
    rw [htype, hsize, hbyte]
  refine (h.tree_entry htype hnlink).trans ?_
  rw [hentry, upd_eq_self]

section WriteEntry

variable {d k : ℕ} {e : DirEntry}

theorem View.entry_blit (hbyte : v'.byte d = blit (v.byte d) (DIRENTSIZE * k) DIRENTSIZE e.bytes) :
    v'.entry d k = ⟨e.inum, storedName e.name⟩ := by
  unfold View.entry
  rw [hbyte]
  exact DirEntry.load_bytes fun i hi => blit_inside hi

theorem View.entry_blit_of_ne
    (hbyte : v'.byte d = blit (v.byte d) (DIRENTSIZE * k) DIRENTSIZE e.bytes) {l : ℕ} (hl : l ≠ k) :
    v'.entry d l = v.entry d l := by
  have hD : DIRENTSIZE = 16 := rfl
  unfold View.entry
  rw [hbyte]
  refine DirEntry.load_congr fun i hi => blit_outside ?_
  rw [hD] at hi ⊢
  omega

variable (hdir : (v.node d).type = .directory) (hdir' : (v'.node d).type = .directory)
  (hsize : (v'.node d).size.toNat = max (v.node d).size.toNat (DIRENTSIZE * k + DIRENTSIZE))
  (hk : k ≤ v.slots d)
  (hbyte : v'.byte d = blit (v.byte d) (DIRENTSIZE * k) DIRENTSIZE e.bytes)

include hsize in
theorem View.slots_blit (hmul : DIRENTSIZE * v.slots d = (v.node d).size.toNat) :
    v'.slots d = max (v.slots d) (k + 1) := by
  have hD : DIRENTSIZE = 16 := rfl
  unfold View.slots at hmul ⊢
  rw [hD] at hmul
  rw [hsize, hD]
  omega

include hdir hdir' hsize hk hbyte in
theorem FsOk.writeEntry (h : FsOk sb v) (honly : OnlyNode d v v') (hdisk : DiskOk sb v')
    (he : e.inum.toNat < sb.ninodes) : FsOk sb v' := by
  have hD : DIRENTSIZE = 16 := rfl
  have hmul := h.slots_mul hdir
  refine h.of_onlyNode honly hdisk (fun hf => by rw [hdir'] at hf; cases hf) fun _ => ⟨?_, ?_⟩
  · rw [hsize, ← hmul, hD]
    omega
  · intro l hl
    by_cases hlk : l = k
    · rw [hlk, View.entry_blit hbyte]
      exact he
    · rw [View.entry_blit_of_ne hbyte hlk]
      refine h.entry d hdir l ?_
      rw [hsize, ← hmul, hD] at hl
      rw [← hmul, hD]
      omega

include hdir hdir' hsize hk hbyte in
theorem View.tree_writeEntry (h : FsOk sb v) (h' : FsOk sb v') (honly : OnlyNode d v v')
    (hnlink : (v'.node d).nlink = (v.node d).nlink) : v'.tree = v.tree.setEntry d k e.stored := by
  have hslots := View.slots_blit hsize (h.slots_mul hdir)
  have hentry : v'.tree.entry d = upd (v.tree.entry d) k e.stored := by
    funext l
    by_cases hlk : l = k
    · rw [hlk, upd_self, h'.tree_entry hdir' (by omega), View.entry_blit hbyte]
      rfl
    · rw [upd_of_ne hlk]
      by_cases hl : l < v.slots d
      · rw [h'.tree_entry hdir' (by omega), h.tree_entry hdir hl, View.entry_blit_of_ne hbyte hlk]
      · rw [h.tree_entry_of_le (by omega), h'.tree_entry_of_le (by omega)]
  rw [honly.tree_entry (hdir'.trans hdir.symm) hnlink, hentry]
  rfl

end WriteEntry

theorem card_touchedPlaces_entry (k : ℕ) :
    (touchedPlaces (DIRENTSIZE * k) DIRENTSIZE).card ≤ 2 := by
  have hD : DIRENTSIZE = 16 := rfl
  have hB : BSIZE = 1024 := rfl
  have hsub : touchedPlaces (DIRENTSIZE * k) DIRENTSIZE ⊆ {NDIRECT, placeOf (DIRENTSIZE * k / BSIZE)} := by
    intro p hp
    obtain ⟨j, hj, hpj⟩ := Finset.mem_biUnion.1 hp
    obtain ⟨-, hlo, hhi⟩ := Finset.mem_filter.1 hj
    obtain rfl : j = DIRENTSIZE * k / BSIZE := by
      rw [hD, hB] at hlo hhi ⊢
      omega
    split_ifs at hpj
    · exact hpj
    · exact Finset.mem_insert_of_mem hpj
  exact (Finset.card_le_card hsub).trans Finset.card_le_two

theorem DiskOk.touchedPlaces_entry {d k : ℕ} (h : DiskOk sb v)
    (hk : DIRENTSIZE * k < (v.node d).size.toNat) :
    ((touchedPlaces (DIRENTSIZE * k) DIRENTSIZE).filter fun p => places v.node v.data (d, p) =
        0).card = 0 := by
  have hD : DIRENTSIZE = 16 := rfl
  have hB : BSIZE = 1024 := rfl
  rw [Finset.card_eq_zero, Finset.filter_eq_empty_iff]
  intro p hp
  obtain ⟨j, hj, hpj⟩ := Finset.mem_biUnion.1 hp
  obtain ⟨-, hlo, hhi⟩ := Finset.mem_filter.1 hj
  obtain rfl : j = DIRENTSIZE * k / BSIZE := by
    rw [hD, hB] at hlo hhi ⊢
    omega
  have hplace := (h.found d _ (lt_of_le_of_lt (Nat.div_mul_le_self _ BSIZE) hk)).2
  split_ifs at hpj with hind
  · rcases Finset.mem_insert.1 hpj with rfl | hpj
    · -- an entry of the indirect block is reached through its address
      intro h0
      refine hplace ?_
      rw [places_indirect] at h0
      refine InodeInner.ptr_listed_zero v.data ?_ (UInt32.toNat_inj.1 h0)
      rw [placeOf, if_neg (by omega)]
      omega
    · rwa [Finset.mem_singleton.1 hpj]
  · rwa [Finset.mem_singleton.1 hpj]

/-- Writing to a locked inode. Whether the file system stays well formed depends on what is
written. -/
theorem Inode.write_fs (hsb : sb.Valid) (hop : InOp M E) (hip : ip ∈ B + F) (hK : ip.id ∈ K)
    {src : Src} {offset : ℕ} (hlen : src.length < 2 ^ 32)
    (hkernel : src.user = none → offset % BSIZE + src.length ≤ BSIZE)
    (hroom : M.clean → (touchedPlaces offset src.length).card ≤ freeBlocks sb v.bit)
    (h : FsAt sb v B F K M s)
    (hok : ∀ v' reached s', offset ≤ (v.node ip.inum).size.toNat →
      offset + src.length ≤ MAXFILE * BSIZE →
      Written sb ip (touchedPlaces offset src.length) src offset v v' reached →
      (FsOk sb v' → FsAt sb v' B F K M s') → Q (.ok (reached - offset)) s')
    (herr : ∀ s', ((v.node ip.inum).size.toNat < offset ∨ MAXFILE * BSIZE < offset + src.length) →
      FsAt sb v B F K M s' → Q (.error .write) s') : wp (ip.write sb offset src) Q E s := by
  have hs := h.synced hip hK
  refine Holding.wp (Inode.write_held hsb h.ok.disk hs hlen (fun hmax k => mem_touchedPlaces hmax)
    (fun hc => le_trans (Finset.card_filter_le _ _) (hroom hc)) h.at h.held) ?_
  refine Inode.write_wp hsb hop.log (h.inum_lt hip) h.ok.disk hs hlen hkernel
    (fun hmax k => mem_touchedPlaces hmax) h.at (fun v' reached s' hle hmax hwritten hs' hh => ?_)
    fun s' hbad hs' hh => herr s' hbad (.of_table h.ok hs' h.table hh h.types)
  obtain ⟨addrs, hnode⟩ := hwritten.node
  exact hok v' reached s' hle hmax hwritten fun hfs => h.setInner hip hK hfs
    (fun j hj => (hwritten.others j hj).1) (by rw [hnode]) hs' hh

theorem Directory.writeEntry_fs (hsb : sb.Valid) (hop : InOp M E) (hip : ip ∈ B + F)
    (hK : ip.id ∈ K) (hdir : (v.node ip.inum).type = .directory) {k : ℕ}
    (hk : k ≤ v.slots ip.inum) {e : DirEntry} (he : e.inum.toNat < sb.ninodes)
    (hroom : M.clean → 2 ≤ freeBlocks sb v.bit) (h : FsAt sb v B F K M s)
    (hok : ∀ v' s', OnlyNode ip.inum v v' → v'.tree = v.tree.setEntry ip.inum k e.stored →
      freeBlocks sb v.bit ≤ freeBlocks sb v'.bit + 2 → FsAt sb v' B F K M s' →
      Q (.ok DIRENTSIZE) s')
    (hshort : ∀ v' s', v.slots ip.inum = k → OnlyNode ip.inum v v' → v'.tree = v.tree →
      FsAt sb v' B F K M s' → Q (.ok 0) s')
    (herr : ∀ e s', v.slots ip.inum = k → FsAt sb v B F K M s' → Q (.error e) s') :
    wp (ip.write sb (DIRENTSIZE * k) e.src) Q E s := by
  have h32 := MAXFILE_mul_BSIZE
  have hmul := h.ok.slots_mul hdir
  have hlength : e.src.length = DIRENTSIZE := rfl
  have hcard : (touchedPlaces (DIRENTSIZE * k) e.src.length).card ≤ 2 := by
    rw [hlength]
    exact card_touchedPlaces_entry k
  have hle : DIRENTSIZE * k ≤ (v.node ip.inum).size.toNat := hmul ▸ Nat.mul_le_mul_left _ hk
  refine Inode.write_fs hsb hop hip hK (by decide : DIRENTSIZE < 2 ^ 32)
    (fun _ => entry_in_block (Nat.mul_mod_right _ _)) (fun hc => hcard.trans (hroom hc)) h ?_ ?_
  swap
  · -- an entry that exists is below the largest size
    intro s' hbad hs'
    refine herr _ s' ?_ hs'
    by_contra hne
    have hlt : DIRENTSIZE * k < (v.node ip.inum).size.toNat := by
      rw [← hmul]
      exact Nat.mul_lt_mul_of_pos_left (by omega) (by decide)
    have hfound := (h.ok.disk.found ip.inum (DIRENTSIZE * k / BSIZE) (lt_of_le_of_lt (Nat.div_mul_le_self _ _) hlt)).1
    have hblock := entry_in_block (Nat.mul_mod_right DIRENTSIZE k)
    have hdiv := Nat.div_add_mod' (DIRENTSIZE * k) BSIZE
    have hmax : (DIRENTSIZE * k / BSIZE + 1) * BSIZE ≤ MAXFILE * BSIZE :=
      Nat.mul_le_mul_right _ hfound
    rw [add_mul, one_mul] at hmax
    rcases hbad with hbad | hbad
    · omega
    · change MAXFILE * BSIZE < DIRENTSIZE * k + DIRENTSIZE at hbad
      omega
  intro v' reached s' _ hmax hwritten hat
  change DIRENTSIZE * k + DIRENTSIZE ≤ MAXFILE * BSIZE at hmax
  obtain ⟨addrs, hnode⟩ := hwritten.node
  have htype : (v'.node ip.inum).type = (v.node ip.inum).type := by rw [hnode]
  have hnlink : (v'.node ip.inum).nlink = (v.node ip.inum).nlink := by rw [hnode]
  have hsize : (v'.node ip.inum).size = UInt32.ofNat (max (v.node ip.inum).size.toNat reached) := by
    rw [hnode]
  rcases hwritten.kernel rfl with ⟨rfl, hbyte⟩ | hreached
  · -- no block was free: nothing is written
    rw [max_eq_left hle, UInt32.ofNat_toNat] at hsize
    have htree := hwritten.others.tree_eq htype hnlink hsize hbyte
    rw [Nat.sub_self]
    have hend : v.slots ip.inum = k := by
      by_contra hne
      have hfull := (hwritten.complete ?_ fun a ha => by cases ha).1
      · have hD : e.src.length = 16 := rfl
        omega
      · rw [hlength, h.ok.disk.touchedPlaces_entry ((h.ok.lt_size hdir).2 (by omega))]
        exact Nat.zero_le _
    refine hshort v' s' hend hwritten.others htree (hat (h.ok.of_onlyNode hwritten.others hwritten.disk (fun hf => ?_)
      fun _ => ?_))
    · rw [htype, hdir] at hf
      cases hf
    · unfold View.entry
      rw [hsize, hbyte]
      exact ⟨h.ok.dirSize _ hdir, h.ok.entry _ hdir⟩
  · change reached = DIRENTSIZE * k + DIRENTSIZE at hreached
    subst hreached
    obtain ⟨n, hn, hreach, hbyte, -⟩ := hwritten.copied
    change n ≤ DIRENTSIZE at hn
    obtain rfl : n = DIRENTSIZE := by omega
    have hdir' := htype.trans hdir
    have hsize' : (v'.node ip.inum).size.toNat = max (v.node ip.inum).size.toNat (DIRENTSIZE * k + DIRENTSIZE) := by
      rw [hsize]
      exact Nat.mod_eq_of_lt (max_lt (UInt32.toNat_lt _) (by omega))
    have hfs := h.ok.writeEntry hdir hdir' hsize' hk hbyte hwritten.others hwritten.disk he
    have hcost := hwritten.cost
    rw [Nat.add_sub_cancel_left]
    exact hok v' s' hwritten.others
      (View.tree_writeEntry hdir hdir' hsize' hk hbyte h.ok hfs hwritten.others hnlink) (by omega)
      (hat hfs)

/-- `Directory::link` fills an empty slot if the name is new and there is room. If the name is
taken, the inode of that name is released. -/
theorem Directory.link_fs (hsb : sb.Valid) (hop : InOp M E) (hip : ip ∈ B + F) (hK : ip.id ∈ K)
    (hdir : (v.node ip.inum).type = .directory) {inum : UInt16} (hinum : inum.toNat < sb.ninodes)
    (hroom : M.clean → 2 ≤ freeBlocks sb v.bit) {Q : Except FsError PUnit → Fs → Prop}
    (h : FsAt sb v B F K M s)
    (hok : ∀ k v' s', ((∀ l, ¬v.tree.Match ip.inum l name) ∨ Hidden B F v.tree ip.inum name) →
      (∀ l < k, (v.tree.entry ip.inum l).inum ≠ 0) → (v.tree.entry ip.inum k).inum = 0 →
      OnlyNode ip.inum v v' → v'.tree = v.tree.setEntry ip.inum k (DirEntry.stored ⟨inum, name⟩) →
      freeBlocks sb v.bit ≤ freeBlocks sb v'.bit + 2 → FsAt sb v' B F K M s' → Q (.ok ⟨⟩) s')
    (hfail : ∀ e v' s', OnlyNode ip.inum v v' → v'.tree = v.tree → FsAt sb v' B F K M s' →
      Q (.error e) s')
    (htaken : ∀ e k v' s', v.tree.First ip.inum k name →
      Released sb (v.tree.entry ip.inum k).inum.toNat (B + F) v v' → FsAt sb v' B F K M s' →
      Q (.error e) s') : wp (link sb ip name inum) Q E s := by
  have hwrite (s1 : Fs) (habsent : (∀ l, ¬v.tree.Match ip.inum l name) ∨ Hidden B F v.tree ip.inum name)
      (h1 : FsAt sb v B F K M s1) : wp (Directory.fill sb ip name inum) Q E s1 := by
    unfold Directory.fill
    rw [wp_bind]
    refine getInner_fs hip hK h1 ?_
    have hoff := entryOffsets_eq 0 (v.slots ip.inum)
    have hend : slotsEnd (v.node ip.inum).size.toNat = DIRENTSIZE * v.slots ip.inum := by
      have hD : DIRENTSIZE = 16 := rfl
      have := h.ok.slots_mul hdir
      rw [← this, slotsEnd, hD]
      omega
    rw [mul_zero, h.ok.slots_mul hdir, Nat.sub_zero] at hoff
    rw [hoff, hend, wp_bind]
    refine Directory.emptySlot_fs hip hK hdir (Nat.zero_add _) h1 fun k s2 _ hk hempty hbefore h2 => ?_
    dsimp only
    rw [wp_bind]
    refine Directory.writeEntry_fs hsb hop hip hK hdir hk hinum hroom h2
      (fun v' s' honly htree hcost hs' => ?_) (fun v' s' _ honly htree hs' => ?_) fun e s' _ hs' => ?_
    · exact wp_ite (fun hne => absurd rfl hne) fun _ =>
        hok k v' s' habsent (fun l hl => hbefore l hl (Nat.zero_le _)) hempty honly htree hcost hs'
    · exact wp_ite (fun _ => hfail _ v' s' honly htree hs') fun hne => absurd (by decide) hne
    · exact hfail e v s' (fun _ _ => ⟨rfl, rfl, fun _ => rfl⟩) rfl hs'
  unfold link
  rw [wp_bind]
  refine Directory.lookup_fs hip hK hdir h (fun k found s1 hfirst hfound _ h1 => ?_)
    (fun s1 hno h1 => hwrite s1 (Or.inl hno) h1) fun e s1 hhidden h1 => hwrite s1 (Or.inr hhidden) h1
  dsimp only
  rw [wp_bind]
  refine Inode.put_fs hsb (fun _ _ => hop) h.ref_of_locked h1 fun v' s' hrel _ hs' => ?_
  exact htaken _ k v' s' hfirst (hfound ▸ hrel) hs'

end Dir

end Octopos
