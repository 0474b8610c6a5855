import Octopos.Fs.MapProof

/-!
# What `Inode::update` and `Inode::trunc` do

`update` makes the disk agree with the inode table. `trunc` frees the blocks of an inode one by one;
the blocks freed so far are those held by a set of places (`Freed`), and the inode gives up all of
its places in the end.
-/

namespace Octopos

section Trunc

variable {sb : SuperBlock} {ip : Inode} {v : View} {t : Fin NINODE → Slot} {E : FsPanic → Prop}
  {s : Fs} {Q : PUnit → Fs → Prop}

theorem Inode.update_wp (hsb : sb.Valid) (hE : LogPanics E) (hi : ip.inum < sb.ninodes)
    (h : At sb v t s) (hQ : ∀ s', At sb (v.setNode ip.inum (t ip.id).inner) t s' → Q ⟨⟩ s') :
    wp (update sb ip) Q E s := by
  unfold update
  rw [wp_bind]
  refine getInner_wp h ?_
  rw [wp_bind]
  refine BCache.read_wp h fun s hd h => ?_
  rw [wp_bind]
  refine BCache.edit_wp (v.setNode ip.inum (t ip.id).inner) h ?_ fun s h => ?_
  · exact (view_storeInode hsb hi _).trans (by rw [h.view])
  · rw [wp_bind]
    exact Log.write_wp hE h fun s h => BCache.release_wp h hQ

def View.withBit (v : View) (bit : ℕ → Bool) : View := { v with bit := bit }

theorem View.withBit_setBit (v : View) (bit : ℕ → Bool) (b : ℕ) (x : Bool) :
    (v.withBit bit).setBit b x = v.withBit (upd bit b x) := rfl

section Free

variable {bit : ℕ → Bool} {S : ℕ × ℕ → Prop}

theorem Inode.freeDirect_wp (hsb : sb.Valid) (hE : LogPanics E)
    (hown : Own sb (cur v t ip) v.bit v.data) {addrs : Fin (NDIRECT + 1) → UInt32}
    (k : Fin (NDIRECT + 1)) (hk : addrs k = (t ip.id).inner.addrs k) (hS : ¬S (ip.inum, k.val))
    (hfree : Freed (places (cur v t ip) v.data) v.bit bit S)
    (h : At sb (v.withBit bit) (setAddrs t ip addrs) s)
    (hQ : ∀ bit' s', At sb (v.withBit bit') (setAddrs t ip (upd addrs k 0)) s' →
      Freed (places (cur v t ip) v.data) v.bit bit' (fun x => S x ∨ x = (ip.inum, k.val)) →
      Q ⟨⟩ s') : wp (freeDirect sb ip k) Q E s := by
  have hplace : places (cur v t ip) v.data (ip.inum, k.val) = (addrs k).toNat := by
    rw [places_addr, cur_inum, hk]
  unfold freeDirect
  rw [wp_bind]
  refine getInner_wp h ?_
  rw [setAddrs_inner]
  refine wp_ite (fun h0 => ?_) fun h0 => ?_
  · change addrs k ≠ 0 at h0
    have hne : places (cur v t ip) v.data (ip.inum, k.val) ≠ 0 := by
      rw [hplace]
      exact toNat_ne_zero h0
    rw [wp_bind]
    refine Block.free_wp hsb hE h ?_ fun s h => ?_
    · have := hfree.used hown.owned hne hS
      rwa [hplace] at this
    · refine modifyInner_wp h fun s h => hQ _ s ?_ (hfree.insert hne)
      rw [View.withBit_setBit, setAddrs_inner] at h
      rw [hplace]
      have : setAddrs t ip (upd addrs k 0) = upd (setAddrs t ip addrs) ip.id
          { setAddrs t ip addrs ip.id with
            inner := { (t ip.id).inner with addrs := upd addrs k 0 } } := by
        simp [setAddrs]
      rw [this]
      exact h
  · change ¬addrs k ≠ 0 at h0
    rw [not_not] at h0
    refine hQ bit s ?_ (hfree.congr fun x hx => ⟨Or.inl, ?_⟩)
    · rwa [← h0, upd_eq_self]
    · rintro (hx | rfl)
      · exact hx
      · exact absurd (by rw [hplace, h0]; rfl) hx

theorem Inode.freeListed_wp (hsb : sb.Valid) (hE : LogPanics E)
    (hown : Own sb (cur v t ip) v.bit v.data) {buf : Bytes} {k p : ℕ}
    (hp : places (cur v t ip) v.data (ip.inum, p) = (get32 buf (4 * k)).toNat)
    (hS : ¬S (ip.inum, p)) (hfree : Freed (places (cur v t ip) v.data) v.bit bit S)
    {t' : Fin NINODE → Slot} (h : At sb (v.withBit bit) t' s)
    (hQ : ∀ bit' s', At sb (v.withBit bit') t' s' →
      Freed (places (cur v t ip) v.data) v.bit bit' (fun x => S x ∨ x = (ip.inum, p)) → Q ⟨⟩ s') :
    wp (freeListed sb buf k) Q E s := by
  unfold freeListed
  refine wp_ite (fun h0 => ?_) fun h0 => ?_
  · have hne : places (cur v t ip) v.data (ip.inum, p) ≠ 0 := by
      rw [hp]
      exact toNat_ne_zero h0
    refine Block.free_wp hsb hE h ?_ fun s h => hQ _ s h ?_
    · have := hfree.used hown.owned hne hS
      rwa [hp] at this
    · have := hfree.insert hne
      rwa [hp] at this
  · rw [not_not] at h0
    refine hQ bit s h (hfree.congr fun x hx => ⟨Or.inl, ?_⟩)
    rintro (hx | rfl)
    · exact hx
    · exact absurd (by rw [hp, h0]; rfl) hx

end Free

/-- An inode without blocks and contents. -/
def InodeInner.cleared (n : InodeInner) : InodeInner := { n with addrs := fun _ => 0, size := 0 }

theorem InodeInner.ptr_cleared (n : InodeInner) (data : ℕ → Bytes) (p : ℕ) :
    n.cleared.ptr data p = 0 := by
  unfold ptr cleared
  split_ifs with h1 h2
  · rfl
  · exact absurd rfl h2.2
  · rfl

theorem Inode.freeDirects_wp (hsb : sb.Valid) (hE : LogPanics E)
    (hown : Own sb (cur v t ip) v.bit v.data) (h : At sb v t s)
    (hQ : ∀ bit' addrs s', At sb (v.withBit bit') (setAddrs t ip addrs) s' →
      (∀ k : Fin NDIRECT, addrs k.castSucc = 0) →
      addrs (Fin.last NDIRECT) = (t ip.id).inner.addrs (Fin.last NDIRECT) →
      Freed (places (cur v t ip) v.data) v.bit bit' (fun x => x.1 = ip.inum ∧ x.2 < NDIRECT) →
      Q ⟨⟩ s') : wp ((List.finRange NDIRECT).forM fun k => freeDirect sb ip k.castSucc) Q E s := by
  -- the addresses of the blocks freed so far are zero
  let addrs (pre : List (Fin NDIRECT)) (i : Fin (NDIRECT + 1)) : UInt32 :=
    if i ∈ pre.map Fin.castSucc then 0 else (t ip.id).inner.addrs i
  let I (pre : List (Fin NDIRECT)) (s : Fs) : Prop :=
    ∃ bit', At sb (v.withBit bit') (setAddrs t ip (addrs pre)) s ∧
      Freed (places (cur v t ip) v.data) v.bit bit' fun x => x.1 = ip.inum ∧ ∃ k ∈ pre, x.2 = k.val
  have hnodup := List.nodup_finRange NDIRECT
  have hloop : wp ((List.finRange NDIRECT).forM fun k => freeDirect sb ip k.castSucc)
      (fun _ s' => I (List.finRange NDIRECT) s') E s := by
    refine wp_forM (I := I) ?_ ?_
    · rintro pre k post hl s ⟨bit', hat, hfree⟩
      have hnot : k ∉ pre := by
        rw [hl, List.nodup_append] at hnodup
        exact fun hk => hnodup.2.2 k hk k (by simp) rfl
      refine Inode.freeDirect_wp hsb hE hown k.castSucc ?_ ?_ hfree hat fun bit'' s' hs' hfree' => ?_
      · exact if_neg (by simpa using hnot)
      · rintro ⟨-, l, hl, hkl⟩
        rw [Fin.val_castSucc] at hkl
        exact hnot (Fin.ext hkl ▸ hl)
      · refine ⟨bit'', ?_, hfree'.congr fun x _ => ?_⟩
        · have : upd (addrs pre) k.castSucc 0 = addrs (pre ++ [k]) := by
            funext i
            simp only [addrs, upd_apply, List.map_append, List.mem_append, List.map_cons,
              List.map_nil, List.mem_singleton]
            split_ifs <;> tauto
          rwa [← this]
        · obtain ⟨j, p⟩ := x
          simp only [Prod.mk.injEq, Fin.val_castSucc, List.mem_append, List.mem_singleton]
          constructor
          · rintro (⟨rfl, l, hl, rfl⟩ | ⟨rfl, rfl⟩)
            · exact ⟨rfl, l, Or.inl hl, rfl⟩
            · exact ⟨rfl, k, Or.inr rfl, rfl⟩
          · rintro ⟨rfl, l, hl | rfl, rfl⟩
            · exact Or.inl ⟨rfl, l, hl, rfl⟩
            · exact Or.inr ⟨rfl, rfl⟩
    · refine ⟨v.bit, ?_, (Freed.refl _ _).congr fun x _ => by simp⟩
      have : setAddrs t ip (addrs []) = t := by simp [setAddrs, addrs]
      rwa [this]
  refine wp_mono hloop ?_ fun _ h => h
  rintro ⟨⟩ s' ⟨bit', hat, hfree⟩
  refine hQ bit' _ s' hat (fun k => if_pos (by simp)) (if_neg (by simp)) (hfree.congr fun x _ => ?_)
  refine and_congr_right fun _ => ⟨?_, fun hx => ⟨⟨x.2, hx⟩, by simp, rfl⟩⟩
  rintro ⟨k, -, hk⟩
  exact hk ▸ k.isLt

theorem Inode.freeListeds_wp (hsb : sb.Valid) (hE : LogPanics E)
    (hown : Own sb (cur v t ip) v.bit v.data)
    (hind : (t ip.id).inner.addrs (Fin.last NDIRECT) ≠ 0) {bit : ℕ → Bool}
    (hfree : Freed (places (cur v t ip) v.data) v.bit bit fun x => x.1 = ip.inum ∧ x.2 < NDIRECT)
    {t' : Fin NINODE → Slot} (h : At sb (v.withBit bit) t' s)
    (hQ : ∀ bit' s', At sb (v.withBit bit') t' s' →
      Freed (places (cur v t ip) v.data) v.bit bit' (fun x => x.1 = ip.inum ∧ x.2 ≠ NDIRECT) →
      Q ⟨⟩ s') :
    wp
      ((List.range NINDIRECT).forM
        (freeListed sb (v.data ((t ip.id).inner.addrs (Fin.last NDIRECT)).toNat))) Q E s := by
  let I (k : ℕ) (s : Fs) : Prop := ∃ bit', At sb (v.withBit bit') t' s ∧
    Freed (places (cur v t ip) v.data) v.bit bit' fun x =>
      x.1 = ip.inum ∧ x.2 ≠ NDIRECT ∧ x.2 < NDIRECT + 1 + k
  refine wp_mono (wp_forM_range (I := I) ?_ ⟨bit, h, hfree.congr fun x _ => ?_⟩) ?_ fun _ h => h
  · rintro k hk s ⟨bit', hat, hfree⟩
    refine Inode.freeListed_wp hsb hE hown (p := NDIRECT + 1 + k) ?_ (by simp) hfree hat
      fun bit'' s' hs' hfree' => ⟨bit'', hs', hfree'.congr fun x _ => ?_⟩
    · rw [places_mk, cur_inum, InodeInner.ptr_listed _ hk hind]
    · obtain ⟨j, p⟩ := x
      simp only [Prod.mk.injEq]
      omega
  · omega
  · rintro ⟨⟩ s' ⟨bit', hat, hfree⟩
    refine hQ bit' s' hat (hfree.congr fun x hx => and_congr_right fun hj => ?_)
    refine ⟨And.left, fun h => ⟨h, ?_⟩⟩
    by_contra hlarge
    refine hx ?_
    unfold places InodeInner.ptr
    rw [dif_neg (by omega), if_neg (by omega)]

theorem Inode.trunc_wp (hsb : sb.Valid) (hE : LogPanics E) (hi : ip.inum < sb.ninodes)
    (hown : Own sb (cur v t ip) v.bit v.data) (h : At sb v t s)
    (hQ : ∀ bit' s', At sb ((v.withBit bit').setNode ip.inum (t ip.id).inner.cleared)
        (upd t ip.id { t ip.id with inner := (t ip.id).inner.cleared }) s' →
      Own sb (upd v.node ip.inum (t ip.id).inner.cleared) bit' v.data →
      (∀ b, bit' b = true → v.bit b = true) → Q ⟨⟩ s') :
    wp (trunc sb ip) Q E s := by
  -- the end of `trunc`, when all blocks of the inode are free
  have hend (bit' : ℕ → Bool) (s' : Fs) (hs' : At sb (v.withBit bit') (setAddrs t ip fun _ => 0) s')
      (hfree : Freed (places (cur v t ip) v.data) v.bit bit' fun x => x.1 = ip.inum) :
      wp (do modifyInner ip.id fun n => { n with size := 0 }
             update sb ip : FsM PUnit) Q E s' := by
    rw [wp_bind]
    refine modifyInner_wp hs' fun s h => Inode.update_wp hsb hE hi h fun s h => hQ bit' s ?_ ⟨?_, ?_⟩
      fun b hb => ((hfree b).1 hb).1
    · simpa [setAddrs, InodeInner.cleared] using h
    · refine hown.owned.remove (fun x hx => ?_) (fun x hx => ?_) hfree
      · rw [places, hx, upd_self, InodeInner.ptr_cleared]
      · rw [places, places, cur, upd_of_ne hx, upd_of_ne hx]
    · intro b hb hb'
      refine (hfree b).2 ⟨hown.reserved b hb hb', fun x _ hx => ?_⟩
      have := (hown.owned.range x hx).1
      omega
  unfold trunc
  rw [wp_bind]
  refine Inode.freeDirects_wp hsb hE hown h fun bit1 addrs s1 h1 hzero hlast hfree1 => ?_
  rw [wp_bind]
  refine getInner_wp h1 ?_
  rw [setAddrs_inner]
  refine wp_ite (fun hind => ?_) fun hind => ?_
  · change addrs (Fin.last NDIRECT) ≠ 0 at hind
    have hplace : places (cur v t ip) v.data (ip.inum, NDIRECT) = (addrs (Fin.last NDIRECT)).toNat := by
      rw [places_indirect, cur_inum, hlast]
    have hlo := (hown.owned.range _ (hplace.symm ▸ toNat_ne_zero hind)).1
    rw [hplace] at hlo
    rw [wp_bind]
    refine BCache.readData_wp h1 hlo fun s2 h2 => ?_
    rw [wp_bind]
    change wp ((List.range NINDIRECT).forM (freeListed sb (v.data (addrs (Fin.last NDIRECT)).toNat))) _ E s2
    rw [hlast]
    refine Inode.freeListeds_wp hsb hE hown (hlast ▸ hind) hfree1 h2 fun bit3 s3 h3 hfree3 => ?_
    rw [wp_bind]
    refine BCache.release_wp h3 fun s4 h4 => ?_
    rw [wp_bind]
    refine Inode.freeDirect_wp hsb hE hown (Fin.last NDIRECT) hlast (by simp) hfree3 h4
      fun bit5 s5 h5 hfree5 => hend bit5 s5 ?_ (hfree5.congr fun x _ => ?_)
    · have : upd addrs (Fin.last NDIRECT) 0 = fun _ => 0 := by
        funext i
        refine Fin.lastCases ?_ (fun k => ?_) i
        · rw [upd_self]
        · rw [upd_of_ne (Fin.castSucc_lt_last k).ne, hzero]
      rwa [← this]
    · obtain ⟨j, p⟩ := x
      simp only [Prod.mk.injEq, Fin.val_last]
      omega
  · change ¬addrs (Fin.last NDIRECT) ≠ 0 at hind
    rw [not_not] at hind
    refine hend bit1 s1 ?_ (hfree1.congr fun x hx => ⟨And.left, fun hj => ⟨hj, ?_⟩⟩)
    · have : addrs = fun _ => 0 := by
        funext i
        refine Fin.lastCases hind hzero i
      rwa [← this]
    · by_contra hlarge
      refine hx ?_
      rw [places, hj, cur_inum]
      by_cases hp : x.2 = NDIRECT
      · rw [hp]
        exact (InodeInner.ptr_addr _ _ (Fin.last NDIRECT)).trans (by rw [← hlast, hind]; rfl)
      · exact InodeInner.ptr_listed_zero _ (by omega) (by rw [← hlast, hind])

end Trunc

end Octopos
