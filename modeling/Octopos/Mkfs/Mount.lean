import Octopos.Mkfs.Build

/-!
# The kernel on a fresh image

A mounted image is read by the path and inode functions of the kernel. The entries of the root
directory come first in its contents, and everything behind them is zero, up to the rounded size;
the last block of that size may be missing, and a search that gets there makes `Inode::map` allocate
it. So names of input files are found in every case, and other names never yield an inode.
-/

namespace Octopos

/-- A state of the kernel in which the image `d` is mounted: no inode is locked, the inodes in
memory agree with the image, and there is room for two more. -/
structure Mounted (d : ℕ → Bytes) (s : Fs) : Prop where
  disk : s.disk = d
  unlocked : ∀ id, (s.itable id).locked = false
  synced : ∀ id, 0 < (s.itable id).ref → (s.itable id).valid = true →
    (s.itable id).inner = (mkfsSuper.view d).node (s.itable id).inum
  room : ∃ id id', id ≠ id' ∧ (s.itable id).ref = 0 ∧ (s.itable id').ref = 0

/-! ## Entries of the root directory -/

theorem entryBytes_getD {es : List DirEntry} {e : DirEntry} {k i : ℕ} (hk : es[k]? = some e)
    (hi : i < DIRENTSIZE) : (entryBytes es).getD (DIRENTSIZE * k + i) 0 = e.bytes i := by
  induction es generalizing k with
  | nil => simp at hk
  | cons e' es ih =>
    have hcons : entryBytes (e' :: es) = (List.range DIRENTSIZE).map e'.bytes ++ entryBytes es := rfl
    have hlen : ((List.range DIRENTSIZE).map e'.bytes).length = DIRENTSIZE := by simp
    rw [hcons]
    cases k with
    | zero =>
      obtain rfl : e' = e := by simpa using hk
      rw [mul_zero, zero_add, List.getD_append _ _ _ _ (by rwa [hlen]), List.getD_eq_getElem _ _ (by rwa [hlen])]
      simp
    | succ k =>
      rw [List.getElem?_cons_succ] at hk
      rw [List.getD_append_right _ _ _ _ (by rw [hlen, Nat.mul_succ]; omega), hlen,
        show DIRENTSIZE * (k + 1) + i - DIRENTSIZE = DIRENTSIZE * k + i by rw [Nat.mul_succ]; omega,
        ih hk]

theorem load_entryBytes {es : List DirEntry} {e : DirEntry} {k : ℕ} (hk : es[k]? = some e) :
    DirEntry.load (fun x => (entryBytes es).getD x 0) (DIRENTSIZE * k) =
      ⟨e.inum, storedName e.name⟩ :=
  DirEntry.load_bytes fun _ hi => entryBytes_getD hk hi

theorem load_entryBytes_past {es : List DirEntry} {k : ℕ} (hk : es.length ≤ k) :
    (DirEntry.load (fun x => (entryBytes es).getD x 0) (DIRENTSIZE * k)).inum = 0 := by
  have hzero (x : ℕ) (hx : DIRENTSIZE * k ≤ x) : (entryBytes es).getD x 0 = 0 := by
    refine List.getD_eq_default _ _ ?_
    rw [length_entryBytes]
    exact (Nat.mul_le_mul_left _ hk).trans hx
  unfold DirEntry.load get16
  dsimp only
  rw [hzero _ le_rfl, hzero _ (Nat.le_succ _)]
  rfl

theorem rootEntries_cases {files : List InputFile} {e : DirEntry} {k : ℕ}
    (hk : (rootEntries files)[k]? = some e) :
    k = 0 ∧ e.name = DOT ∨ k = 1 ∧ e.name = DOTDOT ∨ ∃ j f, k = j + 2 ∧ files[j]? = some f ∧
    e = ⟨UInt16.ofNat (j + 2), f.name⟩ := by
  match k, hk with
  | 0, hk =>
    obtain rfl : _ = e := by simpa [rootEntries] using hk
    exact Or.inl ⟨rfl, rfl⟩
  | 1, hk =>
    obtain rfl : _ = e := by simpa [rootEntries] using hk
    exact Or.inr (Or.inl ⟨rfl, rfl⟩)
  | j + 2, hk =>
    simp only [rootEntries, List.getElem?_cons_succ, List.getElem?_mapIdx, Option.map_eq_some_iff] at hk
    obtain ⟨f, hf, rfl⟩ := hk
    exact Or.inr (Or.inr ⟨j, f, rfl, hf, rfl⟩)

theorem rootEntries_file {files : List InputFile} {f : InputFile} {j : ℕ}
    (hf : files[j]? = some f) :
    (rootEntries files)[j + 2]? = some ⟨UInt16.ofNat (j + 2), f.name⟩ := by
  simp [rootEntries, hf]

section Table

variable {sb : SuperBlock} {v : View} {t : Fin NINODE → Slot} {E : FsPanic → Prop} {s : Fs}
  {ip : Inode}
variable {Q : Except FsError DirEntry → Fs → Prop} {name : Name}

/-- Inodes in memory agree with the disk. -/
def Quiet (v : View) (t : Fin NINODE → Slot) : Prop :=
  ∀ id, 0 < (t id).ref → (t id).valid = true → (t id).inner = v.node (t id).inum

theorem Inode.get_quiet_wp {i : ℕ} (hq : Quiet v t) (hroom : ∃ id, (t id).ref = 0)
    {Q : Except FsError Inode → Fs → Prop} (h : At sb v t s)
    (hQ : ∀ id x s', At sb v (upd t id x) s' → (t id).ref = 0 ∨ (t id).inum = i →
      x.ref = (t id).ref + 1 → x.inum = i → x.locked = (t id).locked →
      (x.valid = true → x.inner = v.node i) → Q (.ok ⟨id, i⟩) s') : wp (get i) Q E s := by
  unfold get
  rw [wp_bind, wp_get, h.table]
  cases hfind : (List.finRange NINODE).find? fun id => 0 < (t id).ref && (t id).inum == i with
  | some id =>
    have hid := List.find?_some hfind
    simp only [Bool.and_eq_true, decide_eq_true_eq, beq_iff_eq] at hid
    dsimp only
    rw [wp_bind]
    refine modifySlot_wp h fun s' hs' => ?_
    refine hQ id _ s' hs' (Or.inr hid.2) rfl hid.2 rfl fun hv => ?_
    rw [← hid.2]
    exact hq id hid.1 hv
  | none =>
    dsimp only
    cases hfree : (List.finRange NINODE).find? fun id => (t id).ref == 0 with
    | some id =>
      have hid := List.find?_some hfree
      rw [beq_iff_eq] at hid
      dsimp only
      rw [wp_bind]
      refine modifySlot_wp h fun s' hs' => ?_
      exact hQ id _ s' hs' (Or.inl hid) (by rw [hid]) rfl rfl fun hv => absurd hv Bool.false_ne_true
    | none =>
      obtain ⟨id, hid⟩ := hroom
      have := List.find?_eq_none.1 hfree id (List.mem_finRange id)
      simp [hid] at this

theorem Inode.lock_quiet_wp (hi : ip.inum < sb.ninodes) (hlocked : (t ip.id).locked = false)
    (hsynced : (t ip.id).valid = true → (t ip.id).inner = v.node ip.inum)
    (htype : (v.node ip.inum).type ≠ .free) {Q : PUnit → Fs → Prop} (h : At sb v t s)
    (hQ : ∀ x s', At sb v (upd t ip.id x) s' → x.ref = (t ip.id).ref → x.inum = (t ip.id).inum →
      x.inner = v.node ip.inum → Q ⟨⟩ s') : wp (lock sb ip) Q E s := by
  unfold lock
  rw [wp_bind, wp_get, h.table]
  refine wp_ite (fun hl => absurd (hlocked.symm.trans hl) Bool.false_ne_true) fun _ => ?_
  rw [wp_bind]
  refine modifySlot_wp h fun s1 h1 => ?_
  refine wp_ite (fun hv => ?_) fun _ => ?_
  · exact hQ _ s1 h1 rfl rfl (hsynced hv)
  · have hnode : InodeInner.load (s1.disk (sb.inodeBlock ip.inum)) (inodeOffset ip.inum) = v.node ip.inum := by
      rw [← h1.view]
      exact (if_pos hi).symm
    rw [wp_bind]
    refine BCache.read_wp h1 fun s2 _ h2 => ?_
    rw [hnode, wp_bind]
    refine modifySlot_wp h2 fun s3 h3 => ?_
    rw [wp_bind]
    refine BCache.release_wp h3 fun s4 h4 => wp_ite (fun hfree => absurd hfree htype) fun _ => ?_
    rw [upd_self, upd_idem] at h4
    exact hQ _ s4 h4 rfl rfl rfl

theorem Inode.unlockPut_quiet_wp (hnlink : (t ip.id).inner.nlink ≠ 0) {Q : PUnit → Fs → Prop}
    (h : At sb v t s) (hQ : ∀ x s', At sb v (upd t ip.id x) s' → Q ⟨⟩ s') :
    wp (unlockPut sb ip) Q E s := by
  unfold unlockPut unlock
  rw [wp_bind]
  refine modifySlot_wp h fun s1 h1 => ?_
  unfold put
  rw [wp_bind, wp_get, h1.table, upd_self]
  have hend : wp (modifySlot ip.id fun x => { x with ref := x.ref - 1 }) Q E s1 := by
    refine modifySlot_wp h1 fun s2 h2 => ?_
    rw [upd_idem] at h2
    exact hQ _ s2 h2
  refine wp_ite (fun _ => wp_ite (fun hl => by cases hl) fun _ =>
    wp_ite (fun hfree => absurd hfree.2 hnlink) fun _ => hend) fun _ => hend

end Table

section Dir

variable {sb : SuperBlock} {v : View} {t : Fin NINODE → Slot} {E : FsPanic → Prop} {s : Fs}
  {ip : Inode}

theorem Directory.fromInode_found_wp (hown : Own sb (cur v t ip) v.bit v.data) {k : ℕ}
    (hk : DIRENTSIZE * k + DIRENTSIZE ≤ (t ip.id).inner.size.toNat)
    (hmax : DIRENTSIZE * k / BSIZE < MAXFILE)
    (hne : places (cur v t ip) v.data (ip.inum, placeOf (DIRENTSIZE * k / BSIZE)) ≠ 0)
    {Q : Except FsError DirEntry → Fs → Prop} (h : At sb v t s)
    (hQ : ∀ s', At sb v t s' → Q (.ok (DirEntry.load (contents v t ip) (DIRENTSIZE * k))) s') :
    wp (fromInode sb ip (DIRENTSIZE * k)) Q E s := by
  have hD : DIRENTSIZE = 16 := rfl
  have hB : BSIZE = 1024 := rfl
  have h32 := UInt32.toNat_lt (t ip.id).inner.size
  unfold fromInode Inode.read
  rw [wp_bind, wp_bind]
  refine getInner_wp h ?_
  rw [Nat.mod_eq_of_lt (show DIRENTSIZE < 2 ^ 32 by decide)]
  dsimp only
  refine wp_ite (fun hbad => absurd hbad (by omega)) fun _ => ?_
  rw [if_neg (show ¬(t ip.id).inner.size.toNat < DIRENTSIZE * k + DIRENTSIZE by omega)]
  refine Inode.readLoop_wp hown (Nat.lt_succ_self _) (fun l hl hl' => ?_) h ?_ ?_
  · obtain rfl : l = DIRENTSIZE * k / BSIZE := by
      rw [hD, hB] at hl hl' ⊢
      omega
    exact ⟨hmax, hne⟩
  · intro s' hs' _
    rw [zero_add]
    refine wp_ite (fun hbad => absurd rfl hbad) fun _ => ?_
    have hload : DirEntry.load (blit (fun _ => 0) 0 DIRENTSIZE fun i => contents v t ip (DIRENTSIZE * k + i)) 0 =
        DirEntry.load (contents v t ip) (DIRENTSIZE * k) :=
      DirEntry.load_congr fun i hi => blit_inside hi
    rw [wp_pure, hload]
    exact hQ s' hs'
  · intro s' _ hacc
    cases hacc

/-- `Directory::from_inode` of a directory that may miss the block, which is then allocated: the
contents stay as they are. -/
theorem Directory.fromInode_hole_wp (hsb : sb.Valid) (hown : Own sb (cur v t ip) v.bit v.data)
    {k : ℕ} (hk : DIRENTSIZE * k + DIRENTSIZE ≤ (t ip.id).inner.size.toNat)
    (hmax : DIRENTSIZE * k / BSIZE < MAXFILE) {Q : Except FsError DirEntry → Fs → Prop}
    (h : At sb v t s)
    (hQ : ∀ v' t' s', At sb v' t' s' → Own sb (cur v' t' ip) v'.bit v'.data →
      contents v' t' ip = contents v t ip → (t' ip.id).inner.size = (t ip.id).inner.size →
      Q (.ok (DirEntry.load (contents v t ip) (DIRENTSIZE * k))) s') :
    wp (fromInode sb ip (DIRENTSIZE * k)) Q (fun _ => True) s := by
  have hD : DIRENTSIZE = 16 := rfl
  have hB : BSIZE = 1024 := rfl
  have h32 := UInt32.toNat_lt (t ip.id).inner.size
  have hm : min DIRENTSIZE (BSIZE - DIRENTSIZE * k % BSIZE) = DIRENTSIZE := by
    rw [hD, hB]
    omega
  unfold fromInode Inode.read
  rw [wp_bind, wp_bind]
  refine getInner_wp h ?_
  rw [Nat.mod_eq_of_lt (show DIRENTSIZE < 2 ^ 32 by decide)]
  dsimp only
  refine wp_ite (fun hbad => absurd hbad (by omega)) fun _ => ?_
  rw [if_neg (show ¬(t ip.id).inner.size.toNat < DIRENTSIZE * k + DIRENTSIZE by omega)]
  unfold Inode.readLoop
  refine wp_ite (fun h0 => absurd h0 (by decide)) fun _ => ?_
  rw [wp_bind]
  refine Inode.map_wp hsb ⟨trivial, trivial, trivial⟩ hown hmax h ?_ ?_
  · intro b F v' t' s1 _ hgrown h1 hb0 hb
    rw [wp_bind]
    refine BCache.readData_wp h1 (hb ▸ (hgrown.own.owned.range _ (hb.symm ▸ hb0)).1) fun s2 h2 => ?_
    dsimp only
    rw [hm]
    refine wp_ite (fun _ => ?_) fun hacc => absurd rfl hacc
    rw [wp_bind]
    refine BCache.release_wp h2 fun s3 h3 => ?_
    rw [Nat.sub_self, hD]
    unfold Inode.readLoop
    refine wp_ite (fun _ => ?_) fun h0 => absurd rfl h0
    rw [wp_pure]
    refine wp_ite (fun hbad => absurd rfl hbad) fun _ => ?_
    have hbytes : contents v' t' ip = contents v t ip := funext hgrown.bytes
    have hload : DirEntry.load (blit (fun _ => 0) 0 16 fun i => v'.data b (DIRENTSIZE * k % BSIZE + i)) 0 =
        DirEntry.load (contents v t ip) (DIRENTSIZE * k) := by
      refine DirEntry.load_congr fun i hi => ?_
      rw [← hD, blit_inside hi, ← hbytes, ← hb]
      refine contents_block (by rwa [hb]) ?_
      rw [hD] at hi ⊢
      rw [hB]
      omega
    rw [wp_pure]
    obtain ⟨addrs, rfl⟩ := hgrown.table
    have := hQ v' _ s3 h3 hgrown.own hbytes (by rw [setAddrs_inner])
    rwa [← hload] at this
  · intro e F v' t' s1 _ _ h1 _ _
    rw [wp_pure]
    exact wp_ite (fun _ => trivial) fun hbad => absurd (by decide) hbad

theorem Directory.lookupIn_missing_wp (hsb : sb.Valid) (hown : Own sb (cur v t ip) v.bit v.data)
    {name : Name} {C : Bytes} {R : ℕ} (hC : contents v t ip = C)
    (hR : (t ip.id).inner.size.toNat = R) (hmax : R ≤ MAXFILE * BSIZE) {l : List ℕ}
    (hl : ∀ k ∈ l, DIRENTSIZE * k + DIRENTSIZE ≤ R)
    (hname : ∀ k ∈ l, (DirEntry.load C (DIRENTSIZE * k)).inum = 0 ∨
      (DirEntry.load C (DIRENTSIZE * k)).name ≠ name) (h : At sb v t s) :
    wp (lookupIn sb ip name (l.map (DIRENTSIZE * ·))) (fun r _ => ∀ p,
      r ≠ .ok (some p)) (fun _ => True) s := by
  induction l generalizing v t s with
  | nil =>
    intro p hp
    cases hp
  | cons k l ih =>
    rw [List.map_cons]
    unfold lookupIn
    rw [wp_bind]
    have hk := hl k (List.mem_cons_self ..)
    refine Directory.fromInode_hole_wp hsb hown (by rwa [hR]) ?_ h ?_
    · rw [Nat.div_lt_iff_lt_mul (by decide)]
      have : 0 < DIRENTSIZE := by decide
      omega
    intro v' t' s' hs' hown' hC' hR'
    rw [hC] at hC' ⊢
    have hrec := ih hown' hC' (by rw [hR', hR]) (fun k hk => hl k (List.mem_cons_of_mem _ hk))
      (fun k hk => hname k (List.mem_cons_of_mem _ hk)) hs'
    refine wp_ite (fun _ => hrec) fun h0 => wp_ite (fun heq => ?_) fun _ => hrec
    rcases hname k (List.mem_cons_self ..) with hzero | hne
    · exact absurd hzero h0
    · exact absurd heq hne

theorem Directory.lookupIn_found_wp (hown : Own sb (cur v t ip) v.bit v.data) {name : Name}
    {m n j : ℕ} (hn : n < j + m)
    (hblock : ∀ k ≤ n, DIRENTSIZE * k + DIRENTSIZE ≤ (t ip.id).inner.size.toNat ∧
      DIRENTSIZE * k / BSIZE < MAXFILE ∧
      places (cur v t ip) v.data (ip.inum, placeOf (DIRENTSIZE * k / BSIZE)) ≠ 0)
    (hj : j ≤ n)
    (hbefore : ∀ k < n, (DirEntry.load (contents v t ip) (DIRENTSIZE * k)).name ≠ name)
    {inum : UInt16} (hinum : inum ≠ 0)
    (hentry : DirEntry.load (contents v t ip) (DIRENTSIZE * n) = ⟨inum, name⟩)
    {Q : Except FsError (Option (ℕ × Inode)) → Fs → Prop} (h : At sb v t s)
    (hQ : ∀ s', At sb v t s' → wp (Inode.get inum.toNat) (fun r s' =>
      match r with
      | .error e => Q (.error e) s'
      | .ok found => Q (.ok (some (DIRENTSIZE * n, found))) s') E s') :
    wp (lookupIn sb ip name ((List.range' j m).map (DIRENTSIZE * ·))) Q E s := by
  induction m generalizing j s with
  | zero => omega
  | succ m ih =>
    obtain ⟨hsize, hmax, hne⟩ := hblock j hj
    rw [List.range'_succ, List.map_cons]
    unfold lookupIn
    rw [wp_bind]
    refine Directory.fromInode_found_wp hown hsize hmax hne h fun s' hs' => ?_
    by_cases hlast : j = n
    · subst hlast
      rw [hentry]
      refine wp_ite (fun h0 => absurd h0 hinum) fun _ => wp_ite (fun _ => ?_) fun hne => absurd rfl hne
      rw [wp_bind]
      refine wp_mono (hQ s' hs') (fun r s'' hr => ?_) fun _ h => h
      cases r with
      | error e => exact hr
      | ok found => exact hr
    · have hrec := ih (j := j + 1) (by omega) (by omega) hs'
      exact wp_ite (fun _ => hrec) fun _ => wp_ite (fun heq => absurd heq (hbefore j (by omega))) fun _ => hrec

end Dir

theorem nextComponent_file {name : Name} (hne : name ≠ []) (hslash : SLASH ∉ name) :
    Path.nextComponent (SLASH :: name) = some (name, []) := by
  obtain ⟨a, l, rfl⟩ := List.exists_cons_of_ne_nil hne
  have ha : a ≠ SLASH := fun e => hslash (e ▸ List.mem_cons_self ..)
  have hall : ∀ x ∈ a :: l, (decide (x ≠ SLASH)) = true := fun x hx => decide_eq_true fun e => hslash (e ▸ hx)
  have hdrop : (SLASH :: a :: l).dropWhile (· = SLASH) = a :: l := by
    simp [ha]
  unfold Path.nextComponent
  rw [hdrop]
  dsimp only
  rw [List.takeWhile_eq_self_iff.2 hall, List.dropWhile_eq_nil_iff.2 hall]
  rfl

section Mount

variable {files : List InputFile} {d : ℕ → Bytes} {t : Fin NINODE → Slot} {E : FsPanic → Prop} {s : Fs}
  {ip : Inode}

theorem Fits.storedName_eq (hfit : Fits files) {e : DirEntry} {k : ℕ}
    (hk : (rootEntries files)[k]? = some e) : storedName e.name = e.name := by
  rcases rootEntries_cases hk with ⟨-, hname⟩ | ⟨-, hname⟩ | ⟨j, f, -, hf, rfl⟩
  · rw [hname]
    rfl
  · rw [hname]
    rfl
  · exact Octopos.storedName_eq (hfit.short f (List.mem_of_getElem? hf)).le f.no_nul

theorem ImageOk.slots (hok : ImageOk files d) (hfit : Fits files) :
    ∃ n, ((mkfsSuper.view d).node ROOTINO).size.toNat = DIRENTSIZE * n ∧ files.length + 2 ≤ n ∧
    DIRENTSIZE * n ≤ MAXFILE * BSIZE := by
  have hD : DIRENTSIZE = 16 := rfl
  have hB : BSIZE = 1024 := rfl
  have hM : MAXFILE = 268 := rfl
  have hcount : files.length ≤ 198 := hfit.count
  refine ⟨(DIRENTSIZE * (files.length + 2) / BSIZE + 1) * 64, ?_, ?_, ?_⟩
  · rw [hok.size, hB, hD]
    ring
  · rw [hD, hB]
    omega
  · rw [hD, hB, hM]
    omega

theorem ImageOk.contents (hs : Synced (mkfsSuper.view d) t ip) (hip : ip.inum = ROOTINO)
    (hok : ImageOk files d) :
    Octopos.contents (mkfsSuper.view d) t ip =
      fun x => (entryBytes (rootEntries files)).getD x 0 := by
  rw [hs.contents, hip, hok.byte]

theorem ImageOk.lookup_missing_wp (hok : ImageOk files d) (hfit : Fits files)
    (hip : ip.inum = ROOTINO) (hs : Synced (mkfsSuper.view d) t ip) {name : Name}
    (hname : name ∉ files.map InputFile.name) (hdot : name ≠ DOT) (hdotdot : name ≠ DOTDOT)
    (h : At mkfsSuper (mkfsSuper.view d) t s) :
    wp (Directory.lookup mkfsSuper ip name) (fun r _ => ∀ p,
      r ≠ .ok (some p)) (fun _ => True) s := by
  obtain ⟨n, hn, -, hmax⟩ := hok.slots hfit
  have hsize : (t ip.id).inner.size.toNat = DIRENTSIZE * n := by rw [hs, hip, hn]
  unfold Directory.lookup
  rw [wp_bind]
  refine getInner_wp h (wp_ite (fun _ => trivial) fun _ => ?_)
  rw [hsize, show entryOffsets 0 (DIRENTSIZE * n) = entryOffsets (DIRENTSIZE * 0) (DIRENTSIZE * n) from
    rfl, entryOffsets_eq, Nat.sub_zero]
  refine Directory.lookupIn_missing_wp mkfsSuper_valid (by rw [hs.cur]; exact hok.own)
    (hok.contents hs hip) hsize hmax (fun k hk => ?_) (fun k _ => ?_) h
  · rw [List.mem_range'_1] at hk
    rw [← Nat.mul_succ]
    exact Nat.mul_le_mul_left _ (by omega)
  · cases he : (rootEntries files)[k]? with
    | none =>
      rw [List.getElem?_eq_none_iff] at he
      exact Or.inl (load_entryBytes_past he)
    | some e =>
      refine Or.inr ?_
      rw [load_entryBytes he, hfit.storedName_eq he]
      rcases rootEntries_cases he with ⟨-, hd⟩ | ⟨-, hd⟩ | ⟨j, f, -, hf, rfl⟩
      · exact fun e => hdot (e.symm.trans hd)
      · exact fun e => hdotdot (e.symm.trans hd)
      · rintro rfl
        exact hname (List.mem_map_of_mem (List.mem_of_getElem? hf))

theorem ImageOk.lookup_file_wp (hok : ImageOk files d) (hfit : Fits files)
    (hip : ip.inum = ROOTINO) (hs : Synced (mkfsSuper.view d) t ip) {j : ℕ} {f : InputFile}
    (hf : files[j]? = some f) {Q : Except FsError (Option (ℕ × Inode)) → Fs → Prop}
    (h : At mkfsSuper (mkfsSuper.view d) t s)
    (hQ : ∀ s', At mkfsSuper (mkfsSuper.view d) t s' → wp (Inode.get (j + 2)) (fun r s' =>
      match r with
      | .error e => Q (.error e) s'
      | .ok found => Q (.ok (some (DIRENTSIZE * (j + 2), found))) s') E s') :
    wp (Directory.lookup mkfsSuper ip f.name) Q E s := by
  have hD : DIRENTSIZE = 16 := rfl
  have hB : BSIZE = 1024 := rfl
  have hM : MAXFILE = 268 := rfl
  obtain ⟨hj, hfj⟩ := List.getElem?_eq_some_iff.1 hf
  have hcount : files.length ≤ 198 := hfit.count
  obtain ⟨n, hn, hle, hmax⟩ := hok.slots hfit
  have hsize : (t ip.id).inner.size.toNat = DIRENTSIZE * n := by rw [hs, hip, hn]
  have hinum : (UInt16.ofNat (j + 2)).toNat = j + 2 := by
    rw [UInt16.toNat_ofNat']
    exact Nat.mod_eq_of_lt (by omega)
  have hstored := hfit.storedName_eq (rootEntries_file hf)
  dsimp only at hstored
  unfold Directory.lookup
  rw [wp_bind]
  refine getInner_wp h (wp_ite (fun hdir => absurd ?_ hdir) fun _ => ?_)
  · rw [hs, hip]
    exact hok.type
  rw [hsize, show entryOffsets 0 (DIRENTSIZE * n) = entryOffsets (DIRENTSIZE * 0) (DIRENTSIZE * n) from
    rfl, entryOffsets_eq, Nat.sub_zero]
  have hinum0 : UInt16.ofNat (j + 2) ≠ 0 := by
    intro h0
    have := congrArg UInt16.toNat h0
    rw [hinum] at this
    simp at this
  refine Directory.lookupIn_found_wp (n := j + 2) (by rw [hs.cur]; exact hok.own) (by omega)
    (fun k hk => ⟨?_, ?_, ?_⟩) (Nat.zero_le _) (fun k hk => ?_) hinum0 ?_ h ?_
  · rw [hsize, ← Nat.mul_succ]
    exact Nat.mul_le_mul_left _ (by omega)
  · rw [hD, hB, hM]
    omega
  · rw [hs.cur, hip, hok.packed.blocks _ (by rw [hD, hB, hM]; omega), hD, hB]
    omega
  · -- the entries before it have other names
    have hlt : k < (rootEntries files).length := by
      rw [length_rootEntries]
      omega
    have he := List.getElem?_eq_getElem hlt
    rw [hok.contents hs hip, load_entryBytes he, hfit.storedName_eq he]
    rcases rootEntries_cases he with ⟨-, hd⟩ | ⟨-, hd⟩ | ⟨j', f', hk', hf', hd⟩
    · exact fun e => f.ne_dot (e.symm.trans hd)
    · exact fun e => f.ne_dotdot (e.symm.trans hd)
    · rw [hd]
      obtain ⟨hj', hfj'⟩ := List.getElem?_eq_some_iff.1 hf'
      intro e
      have hidx := (@List.Nodup.getElem_inj_iff _ _ hfit.names j' (by simpa using hj') j
        (by simpa using hj)).1 (by simpa [hfj, hfj'] using e)
      omega
  · rw [hok.contents hs hip, load_entryBytes (rootEntries_file hf), hstored]
  · intro s' hs'
    rw [hinum]
    exact hQ s' hs'

end Mount

end Octopos
