import Octopos.Fs.ContentProof

/-!
# Consistent file systems

A file system is consistent if it owns its blocks and no file has a hole below its size. `write` and
`trunc` take a consistent file system to a consistent one and change one inode only.
-/

namespace Octopos

/-- The file system owns its blocks, and no file has a hole below its size. -/
structure DiskOk (sb : SuperBlock) (v : View) : Prop where
  own : Own sb v.node v.bit v.data
  found : ∀ i k, k * BSIZE < (v.node i).size.toNat →
    k < MAXFILE ∧ places v.node v.data (i, placeOf k) ≠ 0

/-- The contents of inode `i`. -/
def View.byte (v : View) (i : ℕ) : Bytes := byteAt (places v.node v.data) v.data i

/-- Disk `v'` differs from `v` in inode `i` only. -/
def OnlyNode (i : ℕ) (v v' : View) : Prop :=
  ∀ j ≠ i, v'.node j = v.node j ∧ v'.byte j = v.byte j ∧
    ∀ p, places v'.node v'.data (j, p) = places v.node v.data (j, p)

/-- The copy of inode `ip` in memory agrees with the disk. -/
def Synced (v : View) (t : Fin NINODE → Slot) (ip : Inode) : Prop :=
  (t ip.id).inner = v.node ip.inum

/-- The inode table with another copy of inode `ip`. -/
def setInner (t : Fin NINODE → Slot) (ip : Inode) (n : InodeInner) : Fin NINODE → Slot :=
  upd t ip.id { t ip.id with inner := n }

section Consistent

variable {sb : SuperBlock} {ip : Inode} {v v' : View} {t : Fin NINODE → Slot} {E : FsPanic → Prop}
  {s : Fs} {i : ℕ} {n : InodeInner}

theorem Synced.cur (h : Synced v t ip) : cur v t ip = v.node := by
  rw [Octopos.cur, h]
  exact upd_eq_self ..

theorem Synced.contents (h : Synced v t ip) : contents v t ip = v.byte ip.inum := by
  rw [Octopos.contents, h.cur]
  rfl

theorem DiskOk.own_cur (h : DiskOk sb v) (hs : Synced v t ip) :
    Own sb (cur v t ip) v.bit v.data := by
  rw [hs.cur]
  exact h.own

theorem DiskOk.noHole (h : DiskOk sb v) (hs : Synced v t ip) : NoHole v t ip := by
  intro k hk
  rw [hs.cur]
  exact h.found ip.inum k (by rwa [← hs])

theorem places_congr {node node' : ℕ → InodeInner} (h : ∀ i, (node' i).addrs = (node i).addrs)
    (data : ℕ → Bytes) : places node' data = places node data := by
  funext ⟨i, p⟩
  exact InodeInner.ptr_congr (h i) (fun _ => rfl) p

theorem OnlyNode.trans {v'' : View} (h : OnlyNode i v v') (h' : OnlyNode i v' v'') :
    OnlyNode i v v'' :=
  fun j hj => ⟨(h' j hj).1.trans (h j hj).1, (h' j hj).2.1.trans (h j hj).2.1,
    fun p => ((h' j hj).2.2 p).trans ((h j hj).2.2 p)⟩

theorem View.places_setNode (haddrs : n.addrs = (v.node i).addrs) :
    places (v.setNode i n).node (v.setNode i n).data = places v.node v.data := by
  refine places_congr (fun j => ?_) v.data
  rw [View.setNode_node]
  by_cases hj : j = i
  · rw [hj, upd_self, haddrs]
  · rw [upd_of_ne hj]

theorem View.byte_setNode (haddrs : n.addrs = (v.node i).addrs) :
    (v.setNode i n).byte = v.byte := by
  funext j
  unfold View.byte
  rw [View.places_setNode haddrs, View.setNode_data]

theorem OnlyNode.setNode (haddrs : n.addrs = (v.node i).addrs) : OnlyNode i v (v.setNode i n) :=
  fun j hj => ⟨by rw [View.setNode_node, upd_of_ne hj], by rw [View.byte_setNode haddrs],
    fun p => by rw [View.places_setNode haddrs]⟩

theorem DiskOk.setNode (h : DiskOk sb v) (haddrs : n.addrs = (v.node i).addrs)
    (hsize : n.size = (v.node i).size) : DiskOk sb (v.setNode i n) := by
  have hpl := View.places_setNode haddrs
  refine ⟨⟨hpl.symm ▸ h.own.owned, h.own.reserved⟩, fun j k hk => ?_⟩
  rw [hpl]
  refine h.found j k ?_
  rw [View.setNode_node] at hk
  by_cases hj : j = i
  · rwa [hj, upd_self, hsize, ← hj] at hk
  · rwa [upd_of_ne hj] at hk

/-! ## Truncating -/

theorem Inode.trunc_ok (hsb : sb.Valid) (hE : LogPanics E) (hi : ip.inum < sb.ninodes)
    (hd : DiskOk sb v) (hs : Synced v t ip) {Q : PUnit → Fs → Prop} (h : At sb v t s)
    (hQ : ∀ v' s', DiskOk sb v' → OnlyNode ip.inum v v' →
      v'.node ip.inum = (v.node ip.inum).cleared → freeBlocks sb v.bit ≤ freeBlocks sb v'.bit →
      At sb v' (setInner t ip (v'.node ip.inum)) s' → Q ⟨⟩ s') : wp (trunc sb ip) Q E s := by
  refine Inode.trunc_wp hsb hE hi (hd.own_cur hs) h fun bit' s' hs' hown hbit => ?_
  rw [hs] at hs' hown
  have hself : ((v.withBit bit').setNode ip.inum (v.node ip.inum).cleared).node ip.inum =
      (v.node ip.inum).cleared := upd_self ..
  have hothers (j : ℕ) (hj : j ≠ ip.inum) :
      ((v.withBit bit').setNode ip.inum (v.node ip.inum).cleared).node j = v.node j := upd_of_ne hj
  refine hQ _ s' ⟨hown, fun j k hk => ?_⟩ (fun j hj => ⟨hothers j hj, ?_, fun p => ?_⟩) hself
    (freeBlocks_le hbit) (by rwa [hself])
  · by_cases hj : j = ip.inum
    · rw [hj, hself] at hk
      exact absurd hk (Nat.not_lt_zero _)
    · rw [hothers j hj] at hk
      rw [places, hothers j hj]
      exact hd.found j k hk
  · funext x
    unfold View.byte byteAt places
    rw [hothers j hj]
    rfl
  · unfold places
    rw [hothers j hj]
    rfl

/-- The places of the blocks that meet `[offset, offset + len)`, with that of the indirect block if
one of them is listed there. -/
def touchedPlaces (offset len : ℕ) : Finset ℕ :=
  ((Finset.range MAXFILE).filter fun k => offset / BSIZE ≤ k ∧ k * BSIZE < offset + len).biUnion
    fun k => if NDIRECT ≤ k then {NDIRECT, placeOf k} else {placeOf k}

theorem mem_touchedPlaces {offset len k : ℕ} (hmax : offset + len ≤ MAXFILE * BSIZE)
    (hk : offset / BSIZE ≤ k) (hk' : k * BSIZE < offset + len) :
    placeOf k ∈ touchedPlaces offset len ∧ (NDIRECT ≤ k → NDIRECT ∈ touchedPlaces offset len) := by
  have hlt : k < MAXFILE := lt_of_mul_lt_mul_right (hk'.trans_le hmax) (Nat.zero_le _)
  have hmem : k ∈ (Finset.range MAXFILE).filter fun k => offset / BSIZE ≤ k ∧ k * BSIZE < offset + len := by
    simp [hlt, hk, hk']
  refine ⟨Finset.mem_biUnion.2 ⟨k, hmem, ?_⟩, fun hle => Finset.mem_biUnion.2 ⟨k, hmem, ?_⟩⟩
  · split_ifs <;> simp
  · rw [if_pos hle]
    simp

/-- What `Inode::write` does to a consistent file system when its loop stops at `reached`. -/
structure Written (sb : SuperBlock) (ip : Inode) (T : Finset ℕ) (src : Src) (offset : ℕ)
    (v v' : View) (reached : ℕ) : Prop where
  disk : DiskOk sb v'
  others : OnlyNode ip.inum v v'
  node : ∃ addrs, v'.node ip.inum = { v.node ip.inum with
    addrs := addrs, size := UInt32.ofNat (max (v.node ip.inum).size.toNat reached) }
  le : offset ≤ reached
  copied : ∃ n ≤ src.length, reached ≤ offset + n ∧
    v'.byte ip.inum = blit (v.byte ip.inum) offset n src.data ∧
    WriteStop (fun p => places v'.node v'.data (ip.inum, p)) src offset src.length 0 reached n
  kernel : src.user = none → (reached = offset ∧ v'.byte ip.inum = v.byte ip.inum) ∨
    reached = offset + src.length
  complete : (T.filter fun p => places v.node v.data (ip.inum, p) = 0).card ≤ freeBlocks sb v.bit →
    (∀ a, src.user = some a → src.length ≤ a) → reached = offset + src.length ∧
      v'.byte ip.inum = blit (v.byte ip.inum) offset src.length src.data
  cost : freeBlocks sb v.bit ≤ freeBlocks sb v'.bit + T.card

/-- The inode after a write up to `reached`. -/
def InodeInner.extended (n : InodeInner) (reached : ℕ) : InodeInner :=
  { n with size := UInt32.ofNat (max n.size.toNat reached) }

theorem InodeInner.extended_eq_self {reached : ℕ} (h : reached ≤ n.size.toNat) :
    n.extended reached = n := by
  unfold extended
  rw [max_eq_left h, UInt32.ofNat_toNat]

theorem MAXFILE_mul_BSIZE : MAXFILE * BSIZE < 2 ^ 32 := by decide

theorem WroteTo.written {T : Finset ℕ} {src : Src} {offset reached : ℕ} {v1 : View}
    {t1 : Fin NINODE → Slot} (hd : DiskOk sb v) (hs : Synced v t ip)
    (hoffset : offset ≤ (v.node ip.inum).size.toNat)
    (hmax : offset + src.length ≤ MAXFILE * BSIZE)
    (h : WroteTo sb ip T src offset src.length 0 v t v1 t1 reached) :
    Written sb ip T src offset v (v1.setNode ip.inum ((t1 ip.id).inner.extended reached))
      reached := by
  obtain ⟨F, hF, hwrote⟩ := h.wrote
  obtain ⟨addrs, rfl⟩ := hwrote.table
  have hnode := hwrote.node
  have hB : BSIZE = 1024 := rfl
  have h32 := MAXFILE_mul_BSIZE
  set n := (setAddrs t ip addrs ip.id).inner.extended reached with hn
  have hinner : (setAddrs t ip addrs ip.id).inner = { v.node ip.inum with addrs := addrs } := by
    rw [setAddrs_inner, hs]
  have hpl : places (upd v1.node ip.inum n) v1.data = places (Octopos.cur v1 (setAddrs t ip addrs) ip) v1.data := by
    refine places_congr (fun i => ?_) v1.data
    by_cases hi : i = ip.inum
    · rw [hi, upd_self, cur_inum]
      rfl
    · rw [upd_of_ne hi, Octopos.cur, upd_of_ne hi]
  have hbyte (j : ℕ) : (v1.setNode ip.inum n).byte j =
      byteAt (places (Octopos.cur v1 (setAddrs t ip addrs) ip) v1.data) v1.data j := by
    unfold View.byte
    rw [View.setNode_node, View.setNode_data, hpl]
  obtain ⟨m, hm, hreached, hcopied, hstop⟩ := h.copied
  have hsize : n.size.toNat = max (v.node ip.inum).size.toNat reached := by
    rw [hn, hinner]
    refine Nat.mod_eq_of_lt (max_lt (UInt32.toNat_lt _) ?_)
    omega
  refine ⟨⟨⟨?_, hwrote.own.reserved⟩, ?_⟩, ?_, ⟨addrs, ?_⟩, h.le, ⟨m, hm, hreached, ?_, ?_⟩, fun hu => ?_, ?_, ?_⟩
  · rw [View.setNode_node, View.setNode_data, hpl]
    exact hwrote.own.owned
  · intro i k hk
    rw [View.setNode_node] at hk
    rw [View.setNode_node, View.setNode_data, hpl]
    by_cases hi : i = ip.inum
    · subst hi
      rw [upd_self, hsize] at hk
      by_cases hold : k * BSIZE < (v.node ip.inum).size.toNat
      · have := hd.found _ k hold
        rw [← hs.cur] at this
        exact ⟨this.1, hwrote.ne_zero this.2⟩
      · have hlt : k * BSIZE < reached := by omega
        refine ⟨?_, h.found (by omega) k ?_ hlt⟩
        · exact lt_of_mul_lt_mul_right (show k * BSIZE < MAXFILE * BSIZE by omega) (Nat.zero_le _)
        · exact Nat.div_le_of_le_mul (by rw [mul_comm]; omega)
    · rw [upd_of_ne hi, hnode] at hk
      have := hd.found i k hk
      rw [← hs.cur] at this
      exact ⟨this.1, hwrote.ne_zero this.2⟩
  · intro j hj
    refine ⟨by rw [View.setNode_node, upd_of_ne hj, hnode], ?_, fun p => ?_⟩
    · rw [hbyte, funext (hwrote.others j hj), hs.cur]
      rfl
    · rw [View.setNode_node, View.setNode_data, hpl, hwrote.keep (j, p) (Or.inl hj), hs.cur]
  · rw [View.setNode_node, upd_self, hn, hinner]
    rfl
  · simp only [zero_add] at hcopied
    rw [hbyte, ← hs.contents]
    exact hcopied
  · rw [View.setNode_node, View.setNode_data, hpl]
    exact hstop
  · rw [hbyte, ← hs.contents]
    exact h.kernel hu
  · intro hfree haccess
    obtain ⟨hend, hall⟩ := h.complete (by rwa [missing, hs.cur]) (by simpa using haccess)
    simp only [zero_add] at hall
    rw [hbyte, ← hs.contents]
    exact ⟨hend, hall⟩
  · have := hwrote.cost
    have := Finset.card_le_card hF
    rw [View.setNode_bit]
    omega

theorem Inode.write_wp (hsb : sb.Valid) (hE : LogPanics E) (hi : ip.inum < sb.ninodes)
    (hd : DiskOk sb v) (hs : Synced v t ip) {T : Finset ℕ} {src : Src} {offset : ℕ}
    (hlen : src.length < 2 ^ 32) (hkernel : src.user = none → offset % BSIZE + src.length ≤ BSIZE)
    (hT : offset + src.length ≤ MAXFILE * BSIZE → ∀ k, offset / BSIZE ≤ k →
      k * BSIZE < offset + src.length → placeOf k ∈ T ∧ (NDIRECT ≤ k → NDIRECT ∈ T))
    {Q : Except FsError ℕ → Fs → Prop} (h : At sb v t s)
    (hok : ∀ v' reached s', offset ≤ (v.node ip.inum).size.toNat →
      offset + src.length ≤ MAXFILE * BSIZE → Written sb ip T src offset v v' reached →
      At sb v' (setInner t ip (v'.node ip.inum)) s' → Q (.ok (reached - offset)) s')
    (herr : ∀ s', ((v.node ip.inum).size.toNat < offset ∨ MAXFILE * BSIZE < offset + src.length) →
      At sb v t s' → Q (.error .write) s') : wp (write sb ip offset src) Q E s := by
  have h32 := MAXFILE_mul_BSIZE
  unfold write
  rw [wp_bind]
  refine getInner_wp h ?_
  rw [hs]
  simp only [Nat.mod_eq_of_lt hlen]
  refine wp_ite (fun hbad => herr s (by omega) h) fun hgood => ?_
  refine wp_ite (fun hbad => herr s (by omega) h) fun hmax => ?_
  rw [wp_bind]
  refine wp_mono (Inode.writeLoop_wp hsb hE (Nat.lt_succ_self _) (hd.own_cur hs) (by omega) hkernel
    (hT (by omega)) h) ?_ fun _ h => h
  rintro reached s1 ⟨v1, t1, h1, hto⟩
  have hwritten := hto.written hd hs (by omega) (by omega)
  obtain ⟨F, hF, hwrote⟩ := hto.wrote
  obtain ⟨addrs, rfl⟩ := hwrote.table
  have hsize : (setAddrs t ip addrs ip.id).inner.size = (v.node ip.inum).size := by
    rw [setAddrs_inner, hs]
  -- the copy in memory gets its size, and is written back
  have hend (s2 : Fs) (h2 : At sb v1 (setInner (setAddrs t ip addrs) ip
      ((setAddrs t ip addrs ip.id).inner.extended reached)) s2) :
      wp (update sb ip) (fun _ s' => Q (.ok (reached - offset)) s') E s2 := by
    refine Inode.update_wp hsb hE hi h2 fun s3 h3 => ?_
    have hinner : (setInner (setAddrs t ip addrs) ip
        ((setAddrs t ip addrs ip.id).inner.extended reached) ip.id).inner =
        (setAddrs t ip addrs ip.id).inner.extended reached := by
      simp [setInner]
    rw [hinner] at h3
    refine hok _ reached s3 (by omega) (by omega) hwritten ?_
    rw [View.setNode_node, upd_self]
    simpa [setInner, setAddrs] using h3
  refine wp_ite (fun hgrow => ?_) fun hkeep => ?_
  · rw [wp_bind]
    refine modifyInner_wp h1 fun s2 h2 => ?_
    rw [wp_bind]
    refine hend s2 ?_
    rw [InodeInner.extended, hsize, max_eq_right (by omega)]
    exact h2
  · rw [wp_bind]
    refine hend s1 ?_
    rw [InodeInner.extended_eq_self (by rw [hsize]; omega)]
    simpa [setInner] using h1

end Consistent

/-- The bytes of inode `i`. -/
def Fs.content (sb : SuperBlock) (s : Fs) (i : ℕ) : Bytes := (sb.view s.disk).byte i

/-- The size of inode `i`. -/
def Fs.fileSize (sb : SuperBlock) (s : Fs) (i : ℕ) : ℕ := ((sb.view s.disk).node i).size.toNat

/-- The file system is consistent, and the loaded inodes of the table agree with the disk. -/
structure Consistent (sb : SuperBlock) (s : Fs) : Prop where
  disk : DiskOk sb (sb.view s.disk)
  inum_lt : ∀ id, 0 < (s.itable id).ref → (s.itable id).inum < sb.ninodes
  synced : ∀ id, 0 < (s.itable id).ref → (s.itable id).valid = true →
    (s.itable id).inner = (sb.view s.disk).node (s.itable id).inum

/-- The slot of inode `ip` holds the inode, loaded (after `Inode::lock`). -/
def Fs.Loaded (s : Fs) (ip : Inode) : Prop :=
  0 < (s.itable ip.id).ref ∧ (s.itable ip.id).inum = ip.inum ∧ (s.itable ip.id).valid = true

instance (s : Fs) (ip : Inode) : Decidable (s.Loaded ip) := by
  unfold Fs.Loaded
  infer_instance

theorem Consistent.synced_of_loaded {sb : SuperBlock} {s : Fs} {ip : Inode} (hc : Consistent sb s)
    (hip : s.Loaded ip) :
    Synced (sb.view s.disk) s.itable ip := by
  rw [Synced, hc.synced ip.id hip.1 hip.2.2, hip.2.1]

end Octopos
