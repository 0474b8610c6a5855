import Octopos.Fs.Places

/-!
# What `Inode::map` does

`map` may give an inode new blocks, which hold zeros: no byte of any inode changes, no place that
holds a block changes, and the file system still owns its blocks (`Grown`). While an inode is being
changed, its copy in the inode table is ahead of the disk (`cur`).
-/

namespace Octopos

theorem placeOf_ne (k : ℕ) : placeOf k ≠ NDIRECT := by
  unfold placeOf
  split_ifs <;> omega

theorem placeOf_inj {k l : ℕ} (h : placeOf k = placeOf l) : k = l := by
  unfold placeOf at h
  split_ifs at h <;> omega

/-- The byte of inode `j` at an offset, in terms of the places. -/
def byteAt (place : ℕ × ℕ → ℕ) (data : ℕ → Bytes) (j offset : ℕ) : UInt8 :=
  let b := place (j, placeOf (offset / BSIZE))
  if b = 0 then 0 else data b (offset % BSIZE)

theorem byteAt_insert {place : ℕ × ℕ → ℕ} {data data' : ℕ → Bytes} {x : ℕ × ℕ} {b : ℕ}
    (hx : place x = 0) (hzero : data' b = fun _ => 0)
    (hsame : ∀ j k, place (j, placeOf k) ≠ 0 →
      data' (place (j, placeOf k)) = data (place (j, placeOf k))) (j offset : ℕ) :
    byteAt (upd place x b) data' j offset = byteAt place data j offset := by
  unfold byteAt
  by_cases h : (j, placeOf (offset / BSIZE)) = x
  · rw [h, upd_self, hx]
    dsimp only
    rw [hzero]
    simp
  · rw [upd_of_ne h]
    dsimp only
    split_ifs with h0
    · rfl
    · rw [hsame _ _ h0]

def freeBlocks (sb : SuperBlock) (bit : ℕ → Bool) : ℕ :=
  ((Finset.range sb.size).filter fun b => bit b = false).card

theorem freeBlocks_upd {sb : SuperBlock} {bit : ℕ → Bool} {b : ℕ} (hb : b < sb.size)
    (hfree : bit b = false) : freeBlocks sb (upd bit b true) + 1 = freeBlocks sb bit := by
  unfold freeBlocks
  have hmem : b ∈ (Finset.range sb.size).filter fun b => bit b = false := by simp [hb, hfree]
  rw [← Finset.card_erase_add_one hmem]
  congr 2
  ext c
  by_cases hc : c = b
  · subst hc; simp
  · simp [hc, upd_of_ne hc]

theorem freeBlocks_le {sb : SuperBlock} {bit bit' : ℕ → Bool}
    (h : ∀ b, bit' b = true → bit b = true) : freeBlocks sb bit ≤ freeBlocks sb bit' := by
  refine Finset.card_le_card (Finset.monotone_filter_right _ fun b _ hb => ?_)
  by_contra hb'
  rw [h b (by simpa using hb')] at hb
  cases hb

/-- The inodes, with inode `ip` as it is in memory. -/
def cur (v : View) (t : Fin NINODE → Slot) (ip : Inode) : ℕ → InodeInner :=
  upd v.node ip.inum (t ip.id).inner

/-- The inode table with other addresses for inode `ip`. -/
def setAddrs (t : Fin NINODE → Slot) (ip : Inode) (addrs : Fin (NDIRECT + 1) → UInt32) :
    Fin NINODE → Slot :=
  upd t ip.id { t ip.id with inner := { (t ip.id).inner with addrs := addrs } }

/-- Only inode `ip` may have changed: its contents, and the places `F`, which got new blocks. -/
structure Wrote (sb : SuperBlock) (ip : Inode) (F : Finset ℕ) (v : View) (t : Fin NINODE → Slot)
    (v' : View) (t' : Fin NINODE → Slot) : Prop where
  node : v'.node = v.node
  table : ∃ addrs, t' = setAddrs t ip addrs
  own : Own sb (cur v' t' ip) v'.bit v'.data
  filled : ∀ p ∈ F, places (cur v t ip) v.data (ip.inum, p) = 0 ∧
    places (cur v' t' ip) v'.data (ip.inum, p) ≠ 0
  keep : ∀ x, x.1 ≠ ip.inum ∨ x.2 ∉ F → places (cur v' t' ip) v'.data x = places (cur v t ip) v.data x
  others : ∀ j ≠ ip.inum, ∀ offset, byteAt (places (cur v' t' ip) v'.data) v'.data j offset =
    byteAt (places (cur v t ip) v.data) v.data j offset
  cost : freeBlocks sb v'.bit + F.card = freeBlocks sb v.bit

/-- Inode `ip` may have got new blocks, at the places `F`; no byte changed. -/
structure Grown (sb : SuperBlock) (ip : Inode) (F : Finset ℕ) (v : View) (t : Fin NINODE → Slot)
    (v' : View) (t' : Fin NINODE → Slot) : Prop extends Wrote sb ip F v t v' t' where
  bytes : ∀ offset, byteAt (places (cur v' t' ip) v'.data) v'.data ip.inum offset =
    byteAt (places (cur v t ip) v.data) v.data ip.inum offset

section Map

variable {sb : SuperBlock} {ip : Inode} {F F' : Finset ℕ} {v v' v'' : View}
  {t t' t'' : Fin NINODE → Slot} {E : FsPanic → Prop} {s : Fs}
variable {id : Fin NINODE} {Q : Except FsError ℕ → Fs → Prop} {b k : ℕ}

theorem setAddrs_inner (t : Fin NINODE → Slot) (ip : Inode) (addrs : Fin (NDIRECT + 1) → UInt32) :
    (setAddrs t ip addrs ip.id).inner = { (t ip.id).inner with addrs := addrs } := by
  simp [setAddrs]

theorem Grown.refl (h : Own sb (cur v t ip) v.bit v.data) : Grown sb ip ∅ v t v t where
  node := rfl
  table := ⟨(t ip.id).inner.addrs, by simp [setAddrs]⟩
  own := h
  filled := by simp
  keep := fun _ _ => rfl
  others := fun _ _ _ => rfl
  bytes := fun _ => rfl
  cost := by simp

theorem Wrote.ne_zero (h : Wrote sb ip F v t v' t') {x : ℕ × ℕ}
    (hx : places (cur v t ip) v.data x ≠ 0) : places (cur v' t' ip) v'.data x ≠ 0 := by
  by_cases hmem : x.1 = ip.inum ∧ x.2 ∈ F
  · obtain ⟨h1, h2⟩ := hmem
    have := (h.filled x.2 h2).2
    rwa [← h1] at this
  · rwa [h.keep x (by tauto)]

theorem Wrote.trans (h : Wrote sb ip F v t v' t') (h' : Wrote sb ip F' v' t' v'' t'') :
    Wrote sb ip (F ∪ F') v t v'' t'' := by
  have hdisj : Disjoint F F' := by
    rw [Finset.disjoint_left]
    intro p hp hp'
    exact (h.filled p hp).2 (h'.filled p hp').1
  refine ⟨h'.node.trans h.node, ?_, h'.own, ?_, ?_, ?_, ?_⟩
  · obtain ⟨a, rfl⟩ := h.table
    obtain ⟨a', rfl⟩ := h'.table
    exact ⟨a', by simp [setAddrs]⟩
  · intro p hp
    rcases Finset.mem_union.1 hp with hp | hp
    · exact ⟨(h.filled p hp).1, h'.ne_zero (h.filled p hp).2⟩
    · refine ⟨?_, (h'.filled p hp).2⟩
      rw [← h.keep (ip.inum, p) (Or.inr fun hF => Finset.disjoint_left.1 hdisj hF hp)]
      exact (h'.filled p hp).1
  · intro x hx
    rw [h'.keep x (by rw [Finset.mem_union] at hx; tauto), h.keep x (by rw [Finset.mem_union] at hx; tauto)]
  · intro j hj offset
    rw [h'.others j hj, h.others j hj]
  · rw [Finset.card_union_of_disjoint hdisj]
    have := h.cost
    have := h'.cost
    omega

theorem Grown.trans (h : Grown sb ip F v t v' t') (h' : Grown sb ip F' v' t' v'' t'') :
    Grown sb ip (F ∪ F') v t v'' t'' :=
  ⟨h.toWrote.trans h'.toWrote, fun offset => by rw [h'.bytes, h.bytes]⟩

/-! ## Rules for the inode table -/

theorem getInner_wp {Q : InodeInner → Fs → Prop} (h : At sb v t s) (hQ : Q (t id).inner s) :
    wp (getInner id) Q E s := by
  unfold getInner
  rw [wp_bind, wp_get, wp_pure, h.table]
  exact hQ

theorem modifySlot_wp {f : Slot → Slot} {Q : PUnit → Fs → Prop} (h : At sb v t s)
    (hQ : ∀ s', At sb v (upd t id (f (t id))) s' → Q ⟨⟩ s') : wp (modifySlot id f) Q E s :=
  hQ _ ⟨h.view, by rw [← h.table]; rfl⟩

theorem modifyInner_wp {f : InodeInner → InodeInner} {Q : PUnit → Fs → Prop} (h : At sb v t s)
    (hQ : ∀ s', At sb v (upd t id { t id with inner := f (t id).inner }) s' → Q ⟨⟩ s') :
    wp (modifyInner id f) Q E s :=
  modifySlot_wp h hQ

/-! ## Giving an inode a block -/

theorem cur_inum (v : View) (t : Fin NINODE → Slot) (ip : Inode) :
    cur v t ip ip.inum = (t ip.id).inner := upd_self ..

theorem Grown.of_insert (hown : Own sb (cur v t ip) v.bit v.data) {p : ℕ}
    (hp : places (cur v t ip) v.data (ip.inum, p) = 0) (hlo : sb.dataStart ≤ b)
    (hhi : b < sb.size) (hb : v.bit b = false) (hnode : v'.node = v.node)
    (htable : ∃ addrs, t' = setAddrs t ip addrs) (hbit : v'.bit = upd v.bit b true)
    (hpl : places (cur v' t' ip) v'.data = upd (places (cur v t ip) v.data) (ip.inum, p) b)
    (hzero : v'.data b = fun _ => 0)
    (hsame : ∀ j k, places (cur v t ip) v.data (j, placeOf k) ≠ 0 →
      v'.data (places (cur v t ip) v.data (j, placeOf k)) =
        v.data (places (cur v t ip) v.data (j, placeOf k))) : Grown sb ip {p} v t v' t' := by
  have hpos := hown.owned.pos
  have hbytes (j offset : ℕ) : byteAt (places (cur v' t' ip) v'.data) v'.data j offset =
      byteAt (places (cur v t ip) v.data) v.data j offset := by
    rw [hpl]
    exact byteAt_insert hp hzero hsame j offset
  refine ⟨⟨hnode, htable, ⟨?_, ?_⟩, ?_, ?_, fun j _ => hbytes j, ?_⟩, hbytes ip.inum⟩
  · rw [hpl, hbit]
    exact hown.owned.insert hp hlo hhi hb
  · intro c hc hc'
    rw [hbit, upd_of_ne (by omega)]
    exact hown.reserved c hc hc'
  · intro q hq
    rw [Finset.mem_singleton] at hq
    subst hq
    rw [hpl, upd_self]
    exact ⟨hp, by omega⟩
  · rintro ⟨j, q⟩ hx
    rw [hpl, upd_of_ne]
    rintro ⟨⟩
    simp at hx
  · rw [Finset.card_singleton, hbit]
    exact freeBlocks_upd hhi hb

theorem Grown.setAddr (hsb : sb.Valid) (hown : Own sb (cur v t ip) v.bit v.data)
    (k : Fin (NDIRECT + 1)) (hk : (t ip.id).inner.addrs k = 0) (hlo : sb.dataStart ≤ b)
    (hhi : b < sb.size) (hb : v.bit b = false) :
    Grown sb ip {k.val} v t ((v.setBit b true).setData b fun _ => 0)
      (setAddrs t ip (upd (t ip.id).inner.addrs k (UInt32.ofNat b))) := by
  refine Grown.of_insert hown ?_ hlo hhi hb rfl ⟨_, rfl⟩ rfl ?_ (upd_self ..) fun j l hl => ?_
  · rw [places_addr, cur_inum, hk]
    rfl
  · rw [View.setData_data, View.setBit_data, ← hown.places_setAddr hsb hb hlo hhi k (by rw [cur_inum]; exact hk) (n :=
        { (t ip.id).inner with addrs := upd (t ip.id).inner.addrs k (UInt32.ofNat b) })
        (by rw [cur_inum])]
    simp [cur, setAddrs_inner]
  · exact upd_of_ne (hown.owned.ne_of_free hb hl)

theorem Grown.setListed (hsb : sb.Valid) (hown : Own sb (cur v t ip) v.bit v.data)
    (hk : k < NINDIRECT) {ind : ℕ} (hind : ind = ((t ip.id).inner.addrs (Fin.last NDIRECT)).toNat)
    (hind0 : ind ≠ 0) (h0 : get32 (v.data ind) (4 * k) = 0) (hlo : sb.dataStart ≤ b)
    (hhi : b < sb.size) (hb : v.bit b = false) :
    Grown sb ip {NDIRECT + 1 +
        k} v t
      (((v.setBit b true).setData b fun _ => 0).setData ind
        (set32 (v.data ind) (4 * k) (UInt32.ofNat b))) t := by
  have hne : (cur v t ip ip.inum).addrs (Fin.last NDIRECT) ≠ 0 := by
    rw [cur_inum]
    exact ne_zero_of_toNat (by rwa [← hind])
  have hindeq : ((cur v t ip ip.inum).addrs (Fin.last NDIRECT)).toNat = ind := by
    rw [cur_inum, hind]
  have hlast : places (cur v t ip) v.data (ip.inum, NDIRECT) = ind := by
    rw [places_indirect, hindeq]
  refine Grown.of_insert hown ?_ hlo hhi hb rfl ⟨(t ip.id).inner.addrs, by simp [setAddrs]⟩ rfl ?_ ?_ fun j l hl => ?_
  · rw [places_mk, InodeInner.ptr_listed _ hk hne, hindeq, h0]
    rfl
  · have := hown.places_setListed hsb hb hhi hk hne (i := ip.inum) rfl
    rwa [hindeq] at this
  · have hbi : b ≠ ind := by
      rw [← hlast]
      exact (hown.owned.ne_of_free hb (hlast.symm ▸ hind0)).symm
    rw [View.setData_data, View.setData_data, upd_of_ne hbi, upd_self]
  · -- a data block of a file is not an indirect block
    have hl' : places (cur v t ip) v.data (j, placeOf l) ≠ ind := by
      intro e
      have := hown.owned.inj _ _ hl (e.trans hlast.symm)
      exact placeOf_ne l (congrArg Prod.snd this)
    rw [View.setData_data, View.setData_data, View.setBit_data, upd_of_ne hl',
      upd_of_ne (hown.owned.ne_of_free hb hl)]

theorem Inode.mapDirect_wp (hsb : sb.Valid) (hE : LogPanics E)
    (hown : Own sb (cur v t ip) v.bit v.data) (k : Fin (NDIRECT + 1)) (h : At sb v t s)
    (hok : ∀ b F v' t' s', F ⊆ {k.val} → Grown sb ip F v t v' t' → At sb v' t' s' → b ≠ 0 →
      places (cur v' t' ip) v'.data (ip.inum, k.val) = b → Q (.ok b) s')
    (herr : ∀ e s', At sb v t s' → (∀ b < sb.size, v.bit b = true) →
      places (cur v t ip) v.data (ip.inum, k.val) = 0 → Q (.error e) s') :
    wp (mapDirect sb ip k) Q E s := by
  have hplace : places (cur v t ip) v.data (ip.inum, k.val) = ((t ip.id).inner.addrs k).toNat := by
    rw [places_addr, cur_inum]
  unfold mapDirect
  rw [wp_bind]
  refine getInner_wp h (wp_ite (fun hk => ?_) fun hk => ?_)
  · rw [wp_bind]
    refine Block.alloc_wp hsb hE hown.reserved h (fun b s' hlo hhi hb hs' => ?_) ?_
    · rw [wp_bind]
      refine modifyInner_wp hs' fun s'' hs'' => ?_
      have hgrown := Grown.setAddr hsb hown k hk hlo hhi hb
      have hpos := hown.owned.pos
      refine hok b _ _ _ s'' subset_rfl hgrown hs'' (by omega) ?_
      rw [places_addr, cur_inum, setAddrs_inner]
      change (upd (t ip.id).inner.addrs k (UInt32.ofNat b) k).toNat = b
      rw [upd_self]
      exact toNat_ofNat_of_lt hsb.size_lt.le hhi
    · intro s' hall hs'
      exact herr _ s' hs' hall (by rw [hplace, hk]; rfl)
  · refine hok _ ∅ v t s (Finset.empty_subset _) (Grown.refl hown) h ?_ hplace
    exact toNat_ne_zero hk

theorem MAXFILE_eq : MAXFILE = NDIRECT + NINDIRECT := rfl

/-- `Inode::map` of a block in range returns the block at its place, which it allocates if there is
none; it only fails when all blocks are in use. -/
theorem Inode.map_wp (hsb : sb.Valid) (hE : LogPanics E) (hown : Own sb (cur v t ip) v.bit v.data)
    (hk : k < MAXFILE) (h : At sb v t s)
    (hok : ∀ b F v' t' s', (∀ p ∈ F, p = placeOf k ∨ p = NDIRECT ∧ NDIRECT ≤ k) →
      Grown sb ip F v t v' t' → At sb v' t' s' → b ≠ 0 →
      places (cur v' t' ip) v'.data (ip.inum, placeOf k) = b → Q (.ok b) s')
    (herr : ∀ e F v' t' s', (∀ p ∈ F, p = NDIRECT ∧ NDIRECT ≤ k) → Grown sb ip F v t v' t' →
      At sb v' t' s' → (∀ b < sb.size, v'.bit b = true) →
      (places (cur v' t' ip) v'.data (ip.inum, placeOf k) = 0 ∨ NDIRECT ≤ k ∧
        places (cur v' t' ip) v'.data (ip.inum, NDIRECT) = 0) → Q (.error e) s') :
    wp (map sb ip k) Q E s := by
  unfold map
  split_ifs with hdirect hind
  · have hplace : placeOf k = k := if_pos hdirect
    refine Inode.mapDirect_wp hsb hE hown ⟨k, by omega⟩ h ?_ ?_
    · intro b F v' t' s' hF hgrown hs' hb hpl
      refine hok b F v' t' s' (fun p hp => Or.inl ?_) hgrown hs' hb (by rwa [hplace])
      rw [hplace]
      exact Finset.mem_singleton.1 (hF hp)
    · intro e s' hs' hall hpl
      exact herr e ∅ v t s' (by simp) (Grown.refl hown) hs' hall (Or.inl (by rwa [hplace]))
  · have hplace : placeOf k = NDIRECT + 1 + (k - NDIRECT) := by
      rw [placeOf, if_neg hdirect]
      omega
    rw [wp_bind]
    refine Inode.mapDirect_wp hsb hE hown (Fin.last NDIRECT) h ?_ ?_
    · intro ind F v1 t1 s1 hF hgrown h1 hind0 hpl
      have hF' : ∀ p ∈ F, p = NDIRECT ∧ NDIRECT ≤ k := fun p hp => ⟨by simpa using hF hp, by omega⟩
      have hindeq : ind = ((t1 ip.id).inner.addrs (Fin.last NDIRECT)).toNat := by
        rw [← hpl, places_addr, cur_inum]
      have hne : (cur v1 t1 ip ip.inum).addrs (Fin.last NDIRECT) ≠ 0 := by
        rw [cur_inum]
        exact ne_zero_of_toNat (by rwa [← hindeq])
      have hlisted : places (cur v1 t1 ip) v1.data (ip.inum, placeOf k) =
          (get32 (v1.data ind) (4 * (k - NDIRECT))).toNat := by
        rw [places_mk, hplace, InodeInner.ptr_listed _ hind hne, cur_inum, hindeq]
      have hlo : sb.dataStart ≤ ind :=
        hpl ▸ (hgrown.own.owned.range _ (by rw [hpl]; exact hind0)).1
      rw [wp_bind]
      refine BCache.readData_wp h1 hlo fun s2 h2 => ?_
      refine wp_ite (fun h0 => ?_) fun h0 => ?_
      · rw [wp_bind]
        refine Block.alloc_wp hsb hE hgrown.own.reserved h2 (fun b s3 hlob hhib hb h3 => ?_) ?_
        · have hbi : ind ≠ b := by
            rw [← hpl]
            exact hgrown.own.owned.ne_of_free hb (by rw [hpl]; exact hind0)
          have hgrown' := Grown.setListed hsb hgrown.own hind hindeq hind0 h0 hlob hhib hb
          rw [wp_bind]
          refine BCache.editData_wp hsb h3 hlo fun s4 h4 => ?_
          rw [View.setData_data, View.setBit_data, upd_of_ne hbi] at h4
          rw [wp_bind]
          refine Log.write_wp hE h4 fun s5 h5 => ?_
          rw [wp_bind]
          refine BCache.release_wp h5 fun s6 h6 => ?_
          have hpos := hown.owned.pos
          refine hok b _ _ _ s6 (fun p hp => ?_) (hgrown.trans hgrown') h6 (by omega) ?_
          · rcases Finset.mem_union.1 hp with hp | hp
            · exact Or.inr (hF' p hp)
            · rw [Finset.mem_singleton] at hp
              exact Or.inl (hp.trans hplace.symm)
          · change (cur v1 t1 ip ip.inum).ptr _ _ = b
            rw [hplace, InodeInner.ptr_listed _ hind hne, cur_inum, ← hindeq, View.setData_data,
              upd_self, get32_set32]
            exact toNat_ofNat_of_lt hsb.size_lt.le hhib
        · intro s3 hall h3
          refine herr _ F v1 t1 s3 hF' hgrown h3 hall (Or.inl ?_)
          rw [hlisted, h0]
          rfl
      · rw [wp_bind]
        refine BCache.release_wp h2 fun s3 h3 => ?_
        exact hok _ F v1 t1 s3 (fun p hp => Or.inr (hF' p hp)) hgrown h3 (toNat_ne_zero h0) hlisted
    · intro e s' hs' hall hpl
      exact herr e ∅ v t s' (by simp) (Grown.refl hown) hs' hall (Or.inr ⟨by omega, hpl⟩)
  · exact absurd hk (by rw [MAXFILE_eq]; omega)

theorem Inode.mapDirect_found_wp (k : Fin (NDIRECT + 1)) (hk : (t ip.id).inner.addrs k ≠ 0)
    (h : At sb v t s) (hQ : Q (.ok ((t ip.id).inner.addrs k).toNat) s) :
    wp (mapDirect sb ip k) Q E s := by
  unfold mapDirect
  rw [wp_bind]
  exact getInner_wp h (wp_ite (fun h0 => absurd h0 hk) fun _ => hQ)

theorem Inode.map_found_wp (hown : Own sb (cur v t ip) v.bit v.data) (hk : k < MAXFILE)
    (hne : places (cur v t ip) v.data (ip.inum, placeOf k) ≠ 0) (h : At sb v t s)
    (hQ : ∀ s', At sb v t s' → Q (.ok (places (cur v t ip) v.data (ip.inum, placeOf k))) s') :
    wp (map sb ip k) Q E s := by
  unfold map
  split_ifs with hdirect hind
  · have hplace : places (cur v t ip) v.data (ip.inum, placeOf k) = ((t ip.id).inner.addrs ⟨k, by omega⟩).toNat := by
      rw [placeOf, if_pos hdirect, places_addr _ _ _ (⟨k, by omega⟩ : Fin (NDIRECT + 1)), cur_inum]
    refine Inode.mapDirect_found_wp ⟨k, by omega⟩ (ne_zero_of_toNat (hplace ▸ hne)) h ?_
    rw [← hplace]
    exact hQ s h
  · have hpk : placeOf k = NDIRECT + 1 + (k - NDIRECT) := by
      rw [placeOf, if_neg hdirect]
      omega
    have hind0 : (t ip.id).inner.addrs (Fin.last NDIRECT) ≠ 0 := by
      intro h0
      refine hne ?_
      rw [places_mk, cur_inum, InodeInner.ptr_listed_zero _ (by omega) h0]
    have hplace : places (cur v t ip) v.data (ip.inum, placeOf k) =
        (get32 (v.data ((t ip.id).inner.addrs (Fin.last NDIRECT)).toNat)
          (4 * (k - NDIRECT))).toNat := by
      rw [hpk, places_mk, cur_inum, InodeInner.ptr_listed _ hind hind0]
    have hlast := hown.owned.range (ip.inum, NDIRECT)
    rw [places_indirect, cur_inum] at hlast
    rw [wp_bind]
    refine Inode.mapDirect_found_wp (Fin.last NDIRECT) hind0 h ?_
    rw [wp_bind]
    refine BCache.readData_wp h (hlast (toNat_ne_zero hind0)).1 fun s h => ?_
    refine wp_ite (fun h0 => absurd (by rw [hplace, h0]; rfl) hne) fun _ => ?_
    rw [wp_bind]
    refine BCache.release_wp h fun s h => ?_
    rw [wp_pure, ← hplace]
    exact hQ s h
  · exact absurd hk (by rw [MAXFILE_eq]; omega)

end Map

end Octopos
