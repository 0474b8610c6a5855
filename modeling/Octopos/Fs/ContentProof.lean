import Octopos.Fs.TruncProof

/-!
# What `Inode::read` and `Inode::write` do

The contents of an inode are the bytes at its places. A file has no holes below its size, so `read`
finds all of its blocks. The loop of `write` copies the source block by block; it stops early if no
block is free or the source is not accessible (`WroteTo`).
-/

namespace Octopos

/-- The contents of inode `ip`, as it is in memory. -/
def contents (v : View) (t : Fin NINODE → Slot) (ip : Inode) : Bytes :=
  byteAt (places (cur v t ip) v.data) v.data ip.inum

section Content

variable {sb : SuperBlock} {ip : Inode} {v v' v'' : View} {t t' t'' : Fin NINODE → Slot}
  {E : FsPanic → Prop} {s : Fs}
variable {dst : Dst} {n fuel : ℕ} {Q : Except FsError (ℕ × Bytes) → Fs → Prop} {f : Bytes}

/-! ## Reading -/

theorem Dst.accepts_mono {m : ℕ} (hmn : m ≤ n) (h : dst.accepts n = true) :
    dst.accepts m = true := by
  cases dst with
  | kernel => rfl
  | user accessible =>
    simp only [Dst.accepts, decide_eq_true_eq] at h ⊢
    omega

theorem contents_block {offset i : ℕ}
    (hne : places (cur v t ip) v.data (ip.inum, placeOf (offset / BSIZE)) ≠ 0)
    (hi : offset % BSIZE + i < BSIZE) :
    v.data (places (cur v t ip) v.data (ip.inum, placeOf (offset / BSIZE))) (offset % BSIZE + i) =
      contents v t ip (offset + i) := by
  have hdiv : (offset + i) / BSIZE = offset / BSIZE := by
    have hB : BSIZE = 1024 := rfl
    rw [hB] at hi ⊢
    omega
  have hmod : (offset + i) % BSIZE = offset % BSIZE + i := by
    have hB : BSIZE = 1024 := rfl
    rw [hB] at hi ⊢
    omega
  unfold contents byteAt
  rw [hdiv, hmod]
  exact (if_neg hne).symm

theorem div_BSIZE_step (offset : ℕ) {rest m : ℕ} (hm : m = min rest (BSIZE - offset % BSIZE))
    (hrest : rest ≠ 0) :
    0 < m ∧ m ≤ rest ∧ offset % BSIZE + m ≤ BSIZE ∧ offset / BSIZE * BSIZE ≤ offset ∧
    offset < offset / BSIZE * BSIZE + BSIZE ∧
    (m < rest → (offset + m) % BSIZE = 0 ∧ (offset + m) / BSIZE = offset / BSIZE + 1) := by
  have hB : BSIZE = 1024 := rfl
  rw [hB] at hm ⊢
  omega

theorem Inode.readLoop_wp (hown : Own sb (cur v t ip) v.bit v.data) {offset rest total : ℕ}
    {out : Bytes} (hfuel : rest < fuel)
    (hfound : ∀ k, offset / BSIZE ≤ k → k * BSIZE < offset + rest → k < MAXFILE ∧
      places (cur v t ip) v.data (ip.inum, placeOf k) ≠ 0) (h : At sb v t s)
    (hok : ∀ s', At sb v t s' → dst.accepts (total + rest) = true ∨ rest = 0 →
      Q (.ok (total + rest, blit out total rest fun i => contents v t ip (offset + i))) s')
    (herr : ∀ s', At sb v t s' → dst.accepts (total + rest) = false → Q (.error .read) s') :
    wp (readLoop sb ip dst fuel offset rest total out) Q E s := by
  induction fuel generalizing offset rest total out s with
  | zero => omega
  | succ fuel ih =>
    unfold readLoop
    refine wp_ite (fun hrest => ?_) fun hrest => ?_
    · have := hok s h (Or.inr hrest)
      rw [hrest, blit_zero] at this
      exact this
    obtain ⟨hm0, hmr, hmB, hlo, hhi, hnext⟩ := div_BSIZE_step offset rfl hrest
    generalize hm : min rest (BSIZE - offset % BSIZE) = m at *
    obtain ⟨hk, hne⟩ := hfound (offset / BSIZE) le_rfl (by omega)
    rw [wp_bind]
    refine Inode.map_found_wp hown hk hne h fun s h => ?_
    rw [wp_bind]
    refine BCache.readData_wp h (hown.owned.range _ hne).1 fun s h => ?_
    dsimp only
    refine wp_ite (fun hacc => ?_) fun hacc => ?_
    · rw [wp_bind]
      refine BCache.release_wp h fun s h => ?_
      have hsplit : total + m + (rest - m) = total + rest := by omega
      refine ih (by omega) (fun k hk hk' => ?_) h ?_ ?_
      · refine hfound k (le_trans (Nat.div_le_div_right (Nat.le_add_right _ _)) hk) (by omega)
      · intro s' hs' hall
        have hacc' : dst.accepts (total + rest) = true := by
          rcases hall with hall | hall
          · rwa [hsplit] at hall
          · rwa [show total + rest = total + m by omega]
        have hcopy : blit out total m (fun i => v.data (places (cur v t ip) v.data
            (ip.inum, placeOf (offset / BSIZE))) (offset % BSIZE + i)) =
            blit out total m fun i => contents v t ip (offset + i) := by
          funext i
          unfold blit
          split_ifs with hi
          · exact contents_block hne (by omega)
          · rfl
        rw [hcopy, hsplit, blit_blit out (contents v t ip) total m (rest - m) offset, Nat.add_sub_cancel' hmr]
        exact hok s' hs' (Or.inl hacc')
      · intro s' hs' hacc'
        rw [hsplit] at hacc'
        exact herr s' hs' hacc'
    · rw [wp_bind]
      refine BCache.release_wp h fun s h => herr s h ?_
      by_contra hall
      rw [Bool.not_eq_false] at hall
      exact hacc (Dst.accepts_mono (by omega) hall)

/-- The inode has all blocks below its size. -/
def NoHole (v : View) (t : Fin NINODE → Slot) (ip : Inode) : Prop :=
  ∀ k, k * BSIZE < (t ip.id).inner.size.toNat →
    k < MAXFILE ∧ places (cur v t ip) v.data (ip.inum, placeOf k) ≠ 0

theorem Inode.read_mod (sb : SuperBlock) (ip : Inode) (offset len : ℕ) (dst : Dst) :
    read sb ip offset (len % 2 ^ 32) dst = read sb ip offset len dst := by
  unfold read
  rw [Nat.mod_mod]

theorem Inode.read_wp (hown : Own sb (cur v t ip) v.bit v.data) (hhole : NoHole v t ip)
    {offset len : ℕ} (hlen : len < 2 ^ 32) (h : At sb v t s)
    (hok : ∀ n s', n = min len ((t ip.id).inner.size.toNat - offset) →
      offset ≤ (t ip.id).inner.size.toNat → offset + len < 2 ^ 32 → At sb v t s' →
      Q (.ok (n, blit (fun _ => 0) 0 n fun i => contents v t ip (offset + i))) s')
    (herr : ∀ s', At sb v t s' →
      ((t ip.id).inner.size.toNat < offset ∨ 2 ^ 32 ≤ offset + len ∨
        dst.accepts (min len ((t ip.id).inner.size.toNat - offset)) = false) →
      Q (.error .read) s') : wp (read sb ip offset len dst) Q E s := by
  unfold read
  rw [wp_bind]
  refine getInner_wp h ?_
  simp only [Nat.mod_eq_of_lt hlen]
  refine wp_ite (fun hbad => herr s h ?_) fun hgood => ?_
  · omega
  rw [not_or, not_lt, not_le] at hgood
  have hn : (if (t ip.id).inner.size.toNat < offset + len then (t ip.id).inner.size.toNat - offset
      else len) = min len ((t ip.id).inner.size.toNat - offset) := by
    split_ifs <;> omega
  rw [hn]
  generalize hmin : min len ((t ip.id).inner.size.toNat - offset) = n at *
  refine Inode.readLoop_wp hown (Nat.lt_succ_self n) (fun k _ hk => hhole k (by omega)) h ?_ ?_
  · intro s' hs' _
    rw [zero_add]
    exact hok n s' rfl hgood.1 hgood.2 hs'
  · intro s' hs' hacc
    rw [zero_add] at hacc
    exact herr s' hs' (Or.inr (Or.inr hacc))

theorem Own.places_setData {node : ℕ → InodeInner} {bit : ℕ → Bool} {data : ℕ → Bytes}
    (h : Own sb node bit data) (i k : ℕ) (c : Bytes) :
    places node (upd data (places node data (i, placeOf k)) c) = places node data := by
  funext ⟨j, p⟩
  refine InodeInner.ptr_congr rfl (fun hj => ?_) p
  rw [upd_of_ne]
  rw [← places_indirect node data]
  intro e
  have := h.owned.inj _ _ (by rw [places_indirect]; exact toNat_ne_zero hj) e
  exact placeOf_ne k (congrArg Prod.snd this).symm

theorem mem_range_block {offset m x : ℕ} (hm : offset % BSIZE + m ≤ BSIZE) :
    offset ≤ x ∧ x < offset + m ↔ x / BSIZE = offset / BSIZE ∧ offset % BSIZE ≤ x % BSIZE ∧
    x % BSIZE < offset % BSIZE + m := by
  have hB : BSIZE = 1024 := rfl
  rw [hB] at hm ⊢
  omega

theorem mod_sub_mod_BSIZE {offset x : ℕ} (hdiv : x / BSIZE = offset / BSIZE) :
    x % BSIZE - offset % BSIZE = x - offset := by
  have hB : BSIZE = 1024 := rfl
  rw [hB] at hdiv ⊢
  omega

theorem byteAt_blit {place : ℕ × ℕ → ℕ}
    (hinj : ∀ x y, place x ≠ 0 → place x = place y → x = y) (data : ℕ → Bytes) {i offset m : ℕ}
    (hne : place (i, placeOf (offset / BSIZE)) ≠ 0) (hm : offset % BSIZE + m ≤ BSIZE) (j x : ℕ) :
    byteAt place (upd data (place (i, placeOf (offset / BSIZE)))
        (blit (data (place (i, placeOf (offset / BSIZE)))) (offset % BSIZE) m f)) j x =
      if j = i then blit (byteAt place data i) offset m f x else byteAt place data j x := by
  by_cases hblock : place (j, placeOf (x / BSIZE)) = place (i, placeOf (offset / BSIZE))
  · have hx := hinj _ _ (hblock.symm ▸ hne) hblock
    obtain rfl : j = i := congrArg Prod.fst hx
    have hdiv : x / BSIZE = offset / BSIZE := placeOf_inj (congrArg Prod.snd hx)
    have hrange := mem_range_block (x := x) hm
    rw [if_pos rfl]
    unfold blit byteAt
    dsimp only
    rw [hblock, if_neg hne, upd_self, mod_sub_mod_BSIZE hdiv, if_neg hne]
    simp only [hrange, hdiv, true_and]
  · have hout : ¬(j = i ∧ offset ≤ x ∧ x < offset + m) := by
      rintro ⟨rfl, hin⟩
      rw [((mem_range_block hm).1 hin).1] at hblock
      exact hblock rfl
    have hsame : byteAt place (upd data (place (i, placeOf (offset / BSIZE)))
        (blit (data (place (i, placeOf (offset / BSIZE)))) (offset % BSIZE) m f)) j x =
        byteAt place data j x := by
      unfold byteAt
      dsimp only
      rw [upd_of_ne hblock]
    rw [hsame]
    split_ifs with hj
    · subst hj
      rw [blit_outside (by omega)]
    · rfl

theorem Wrote.copy (hown : Own sb (cur v t ip) v.bit v.data) {offset m b : ℕ}
    (hb : places (cur v t ip) v.data (ip.inum, placeOf (offset / BSIZE)) = b) (hb0 : b ≠ 0)
    (hm : offset % BSIZE + m ≤ BSIZE) :
    Wrote sb ip ∅ v t (v.setData b (blit (v.data b) (offset % BSIZE) m f)) t ∧
    contents (v.setData b (blit (v.data b) (offset % BSIZE) m f)) t ip =
      blit (contents v t ip) offset m f := by
  subst hb
  have hpl := hown.places_setData ip.inum (offset / BSIZE) (blit (v.data (places (cur v t ip) v.data
    (ip.inum, placeOf (offset / BSIZE)))) (offset % BSIZE) m f)
  have hbytes := byteAt_blit hown.owned.inj v.data hb0 hm (f := f)
  refine ⟨⟨rfl, ⟨(t ip.id).inner.addrs, by simp [setAddrs]⟩, ⟨?_, hown.reserved⟩, by simp,
    fun x _ => ?_, fun j hj x => ?_, by simp⟩, funext fun x => ?_⟩
  · exact hpl.symm ▸ hown.owned
  · exact congrFun hpl x
  · refine Eq.trans ?_ ((hbytes j x).trans (if_neg hj))
    exact congrArg (fun q => byteAt q _ j x) hpl
  · refine Eq.trans ?_ ((hbytes ip.inum x).trans (if_pos rfl))
    exact congrArg (fun q => byteAt q _ ip.inum x) hpl

/-- Why the loop of `Inode::write` stops at `reached` when it has copied `n` bytes: it is at its
end, it finds no block for the next byte, or the source cannot be read further. In the last case the
bytes behind the last full block are copied and not counted. -/
inductive WriteStop (place : ℕ → ℕ) (src : Src) (offset rest total reached n : ℕ) : Prop
  | done (hn : n = rest) (haccess : ∀ a, src.user = some a → n ≤ a - total) (h : reached = offset + rest)
  | full (hn : reached = offset + n) (haccess : ∀ a, src.user = some a → n ≤ a - total)
      (h : place (placeOf (reached / BSIZE)) = 0)
  | fault (a : ℕ) (hu : src.user = some a) (ha : a < total + rest) (hn : n = a - total)
      (h : reached = max offset ((offset + n) / BSIZE * BSIZE))

/-- What the loop of `Inode::write` has done when it stops at `reached`: it has filled the places
`F`, all of them in `T`, and copied `n` bytes. -/
structure WroteTo (sb : SuperBlock) (ip : Inode) (T : Finset ℕ) (src : Src) (offset rest total : ℕ)
    (v : View) (t : Fin NINODE → Slot) (v' : View) (t' : Fin NINODE → Slot) (reached : ℕ) :
    Prop where
  wrote : ∃ F ⊆ T, Wrote sb ip F v t v' t'
  copied : ∃ n ≤ rest, reached ≤ offset + n ∧
    contents v' t' ip = blit (contents v t ip) offset n (fun i => src.data (total + i)) ∧
    WriteStop (fun p => places (cur v' t' ip) v'.data (ip.inum, p)) src offset rest total reached n
  kernel : src.user = none → (reached = offset ∧ contents v' t' ip = contents v t ip) ∨
    reached = offset + rest
  le : offset ≤ reached
  found : offset < reached → ∀ k, offset / BSIZE ≤ k → k * BSIZE < reached →
    places (cur v' t' ip) v'.data (ip.inum, placeOf k) ≠ 0
  short : reached < offset + rest →
    ((∀ b < sb.size, v'.bit b = true) ∧ ∃ p ∈ T, places (cur v' t' ip) v'.data (ip.inum, p) = 0) ∨
      ∃ a, src.user = some a ∧ a < total + rest

section Loop

variable {T F : Finset ℕ} {src : Src} {offset rest total reached m : ℕ}

/-- The loop stops at `offset` after `n` bytes of a block that will not be counted. -/
theorem WroteTo.stop (hF : F ⊆ T) (hwrote : Wrote sb ip F v t v' t') (hn : n ≤ rest)
    (hcopied : contents v' t' ip = blit (contents v t ip) offset n fun i => src.data (total + i))
    (hstop : WriteStop (fun p => places (cur v' t' ip) v'.data (ip.inum, p)) src offset rest total
        offset n) (hkernel : src.user = none → n = 0)
    (hshort : rest ≠ 0 →
      ((∀ b < sb.size, v'.bit b = true) ∧ ∃ p ∈ T, places (cur v' t' ip) v'.data (ip.inum, p) = 0) ∨
      ∃ a, src.user = some a ∧ a < total + rest) :
    WroteTo sb ip T src offset rest total v t v' t' offset := by
  refine ⟨⟨F, hF, hwrote⟩, ⟨n, hn, Nat.le_add_right _ _, hcopied, hstop⟩, fun hu => Or.inl ⟨rfl, ?_⟩,
    le_rfl, fun h => absurd h (lt_irrefl _), fun h => hshort (by omega)⟩
  rw [hcopied, hkernel hu, blit_zero]

theorem WriteStop.step {place : ℕ → ℕ} (hm : m = min rest (BSIZE - offset % BSIZE))
    (hrest : rest ≠ 0) (haccess : ∀ a, src.user = some a → total + m ≤ a)
    (h : WriteStop place src (offset + m) (rest - m) (total + m) reached n) :
    WriteStop place src offset rest total reached (m + n) := by
  obtain ⟨hm0, hmr, hmB, hlo, hhi, hnext⟩ := div_BSIZE_step offset hm hrest
  cases h with
  | done hn hacc h =>
    refine .done (by omega) (fun a ha => ?_) (by omega)
    have := hacc a ha
    have := haccess a ha
    omega
  | full hn hacc h =>
    refine .full (by omega) (fun a ha => ?_) h
    have := hacc a ha
    have := haccess a ha
    omega
  | fault a hu ha hn h =>
    have hacc := haccess a hu
    have hblock := (hnext (by omega)).1
    refine .fault a hu (by omega) (by omega) ?_
    have hB : BSIZE = 1024 := rfl
    rw [hB] at hblock h ⊢
    omega

theorem WroteTo.step (hF : F ⊆ T) (hwrote : Wrote sb ip F v t v' t')
    (hm : m = min rest (BSIZE - offset % BSIZE)) (hrest : rest ≠ 0)
    (hkernel : src.user = none → rest = m) (haccess : ∀ a, src.user = some a → total + m ≤ a)
    (hcopied : contents v' t' ip = blit (contents v t ip) offset m fun i => src.data (total + i))
    (hfound : places (cur v' t' ip) v'.data (ip.inum, placeOf (offset / BSIZE)) ≠ 0)
    (hrec : WroteTo sb ip T src (offset + m) (rest - m) (total + m) v' t' v'' t'' reached) :
    WroteTo sb ip T src offset rest total v t v'' t'' reached := by
  obtain ⟨hm0, hmr, hmB, hlo, hhi, hnext⟩ := div_BSIZE_step offset hm hrest
  obtain ⟨F', hF', hwrote'⟩ := hrec.wrote
  obtain ⟨n, hn, hreached, hcopied', hstop⟩ := hrec.copied
  have hle := hrec.le
  refine ⟨⟨F ∪ F', Finset.union_subset hF hF', hwrote.trans hwrote'⟩,
    ⟨m + n, by omega, by omega, ?_, hstop.step hm hrest haccess⟩, fun hu => Or.inr ?_, by omega, fun _ k hk hk' => ?_,
    fun hlt => ?_⟩
  · rw [hcopied', hcopied, blit_blit]
  · have := hkernel hu
    omega
  · by_cases hk0 : k = offset / BSIZE
    · subst hk0
      exact hwrote'.ne_zero hfound
    · have hmul : (offset / BSIZE + 1) * BSIZE ≤ k * BSIZE := Nat.mul_le_mul_right _ (by omega)
      rw [add_mul, one_mul] at hmul
      have hlast : offset + m ≤ offset / BSIZE * BSIZE + BSIZE := by
        have := Nat.div_add_mod' offset BSIZE
        omega
      refine hrec.found (by omega) k ?_ hk'
      rw [(hnext (by omega)).2]
      omega
  · rcases hrec.short (by omega) with hfull | ⟨a, ha, hlt'⟩
    · exact Or.inl hfull
    · exact Or.inr ⟨a, ha, by omega⟩

theorem Inode.writeLoop_wp (hsb : sb.Valid) (hE : LogPanics E) (hfuel : rest < fuel)
    (hown : Own sb (cur v t ip) v.bit v.data) (hmax : offset + rest ≤ MAXFILE * BSIZE)
    (hkernel : src.user = none → offset % BSIZE + rest ≤ BSIZE)
    (hT : ∀ k, offset / BSIZE ≤ k → k * BSIZE < offset + rest → placeOf k ∈ T ∧
      (NDIRECT ≤ k → NDIRECT ∈ T)) (h : At sb v t s) :
    wp (writeLoop sb ip src fuel offset rest total) (fun reached s' => ∃ v' t', At sb v' t' s' ∧
      WroteTo sb ip T src offset rest total v t v' t' reached) E s := by
  induction fuel generalizing offset rest total v t s with
  | zero => omega
  | succ fuel ih =>
    unfold writeLoop
    refine wp_ite (fun hrest => ?_) fun hrest => ?_
    · exact ⟨v, t, h, .stop (Finset.empty_subset _) (Grown.refl hown).toWrote (Nat.zero_le _)
        (blit_zero ..).symm (.done hrest.symm (fun _ _ => Nat.zero_le _) (by omega)) (fun _ => rfl) (absurd hrest)⟩
    obtain ⟨hm0, hmr, hmB, hlo, hhi, hnext⟩ := div_BSIZE_step offset rfl hrest
    generalize hm : min rest (BSIZE - offset % BSIZE) = m at *
    obtain ⟨hk, hkT⟩ := hT (offset / BSIZE) le_rfl (by omega)
    rw [wp_bind]
    refine Inode.map_wp hsb hE hown (k := offset / BSIZE) ?_ h ?_ ?_
    · rw [Nat.div_lt_iff_lt_mul (by decide)]
      omega
    · intro b F v1 t1 s1 hF hgrown h1 hb0 hb
      have hFT : F ⊆ T := by
        intro p hp
        rcases hF p hp with rfl | ⟨rfl, hle⟩
        · exact hk
        · exact hkT hle
      have hdata := (hgrown.own.owned.range _ (hb.symm ▸ hb0)).1
      rw [hb] at hdata
      -- after the copy of `n` bytes into the block
      have hcopy (n : ℕ) (hn : n ≤ m) := Wrote.copy hgrown.own hb hb0
        (f := fun i => src.data (total + i)) (show offset % BSIZE + n ≤ BSIZE by omega)
      have hcontents : contents v1 t1 ip = contents v t ip := funext hgrown.bytes
      rw [hcontents] at hcopy
      -- the rest of the loop after a full copy
      have hrec (haccess : ∀ a, src.user = some a → total + m ≤ a) (s2 : Fs)
          (h2 : At sb (v1.setData b (blit (v1.data b) (offset % BSIZE) m
            fun i => src.data (total + i))) t1 s2) :
          wp (writeLoop sb ip src fuel (offset + m) (rest - m) (total + m)) (fun reached s' =>
            ∃ v' t', At sb v' t' s' ∧ WroteTo sb ip T src offset rest total v t v' t' reached) E s2 := by
        obtain ⟨hw, hc⟩ := hcopy m le_rfl
        refine wp_mono (ih (by omega) hw.own (by omega) (fun hu => ?_) (fun k hk hk' => ?_) h2) ?_ fun _ h => h
        · have := hkernel hu
          by_cases hlast : m < rest
          · omega
          · rw [show rest - m = 0 by omega]
            exact (Nat.mod_lt _ (by decide)).le
        · exact hT k (le_trans (Nat.div_le_div_right (Nat.le_add_right _ _)) hk) (by omega)
        · rintro reached s' ⟨v', t', h', hto⟩
          refine ⟨v', t', h', .step hFT ?_ hm.symm hrest (fun hu => ?_) haccess hc (hw.ne_zero (hb.symm ▸ hb0)) hto⟩
          · have := hgrown.toWrote.trans hw
            rwa [Finset.union_empty] at this
          · have := hkernel hu
            omega
      rw [wp_bind]
      refine BCache.readData_wp h1 hdata fun s2 h2 => ?_
      dsimp only
      cases hu : src.user with
      | some accessible =>
        refine wp_ite (fun hacc => ?_) fun hacc => ?_
        · rw [wp_bind]
          refine BCache.editData_wp hsb h2 hdata fun s3 h3 => ?_
          rw [wp_bind]
          refine Log.write_wp hE h3 fun s4 h4 => ?_
          rw [wp_bind]
          exact BCache.release_wp h4 (hrec fun a ha => Option.some.inj (hu.symm.trans ha) ▸ hacc)
        · rw [wp_bind]
          refine BCache.editData_wp hsb h2 hdata fun s3 h3 => ?_
          rw [wp_bind]
          refine BCache.release_wp h3 fun s4 h4 => ⟨_, _, h4, ?_⟩
          obtain ⟨hw, hc⟩ := hcopy (accessible - total) (by omega)
          have hw' := hgrown.toWrote.trans hw
          rw [Finset.union_empty] at hw'
          refine .stop hFT hw' (by omega) hc (.fault accessible hu (by omega) rfl ?_)
            (fun hn => by rw [hu] at hn; cases hn) fun _ => Or.inr ⟨accessible, hu, by omega⟩
          have hB : BSIZE = 1024 := rfl
          rw [hB] at hmB ⊢
          omega
      | none =>
        have hlast : rest = m := by
          have := hkernel hu
          omega
        refine wp_ite (fun hne => absurd hlast hne) fun _ => ?_
        rw [wp_bind]
        refine BCache.editData_wp hsb h2 hdata fun s3 h3 => ?_
        rw [wp_bind]
        refine Log.write_wp hE h3 fun s4 h4 => ?_
        rw [wp_bind]
        exact BCache.release_wp h4 (hrec fun a ha => by rw [hu] at ha; cases ha)
    · intro e F v1 t1 s1 hF hgrown h1 hall hzero
      have hFT : F ⊆ T := by
        intro p hp
        obtain ⟨rfl, hle⟩ := hF p hp
        exact hkT hle
      have hplace : places (cur v1 t1 ip) v1.data (ip.inum, placeOf (offset / BSIZE)) = 0 := by
        rcases hzero with hzero | ⟨hle, hzero⟩
        · exact hzero
        · rw [places_mk]
          rw [places_indirect] at hzero
          exact InodeInner.ptr_listed_zero _ (by unfold placeOf; rw [if_neg (by omega)]; omega)
            (UInt32.toNat_inj.1 hzero)
      refine ⟨v1, t1, h1, .stop hFT hgrown.toWrote (Nat.zero_le _) ?_
        (.full rfl (fun _ _ => Nat.zero_le _) hplace) (fun _ => rfl)
        fun _ => Or.inl ⟨hall, ?_⟩⟩
      · rw [blit_zero]
        exact funext hgrown.bytes
      · rcases hzero with hzero | ⟨hle, hzero⟩
        · exact ⟨_, hk, hzero⟩
        · exact ⟨_, hkT hle, hzero⟩

/-- Number of the places in `T` that have no block. -/
def missing (v : View) (t : Fin NINODE → Slot) (ip : Inode) (T : Finset ℕ) : ℕ :=
  (T.filter fun p => places (cur v t ip) v.data (ip.inum, p) = 0).card

/-- With enough free blocks and an accessible source the loop gets to its end. -/
theorem WroteTo.complete (h : WroteTo sb ip T src offset rest total v t v' t' reached)
    (hfree : missing v t ip T ≤ freeBlocks sb v.bit)
    (haccess : ∀ a, src.user = some a → total + rest ≤ a) :
    reached = offset + rest ∧ contents v' t' ip = blit (contents v t ip) offset rest fun i =>
        src.data (total + i) := by
  obtain ⟨n, hn, hreached, hcopied, -⟩ := h.copied
  have hend : reached = offset + rest := by
    by_contra hne
    rcases h.short (by omega) with ⟨hall, p, hp, hp0⟩ | ⟨a, ha, hlt⟩
    · obtain ⟨F, hF, hwrote⟩ := h.wrote
      have hpF : p ∉ F := fun hpF => (hwrote.filled p hpF).2 hp0
      have hzero : places (cur v t ip) v.data (ip.inum, p) = 0 := by
        rw [← hwrote.keep _ (Or.inr hpF), hp0]
      have hsub : insert p F ⊆ T.filter fun p => places (cur v t ip) v.data (ip.inum, p) = 0 := by
        intro q hq
        rw [Finset.mem_filter]
        rcases Finset.mem_insert.1 hq with rfl | hq
        · exact ⟨hp, hzero⟩
        · exact ⟨hF hq, (hwrote.filled q hq).1⟩
      have hcard := Finset.card_le_card hsub
      rw [Finset.card_insert_of_notMem hpF] at hcard
      have hnone : freeBlocks sb v'.bit = 0 := by
        rw [freeBlocks, Finset.card_eq_zero, Finset.filter_eq_empty_iff]
        intro b hb
        simp [hall b (Finset.mem_range.1 hb)]
      have hcost := hwrote.cost
      unfold missing at hfree
      omega
    · have := haccess a ha
      omega
  obtain rfl : n = rest := by omega
  exact ⟨hend, hcopied⟩

end Loop

end Content

end Octopos
