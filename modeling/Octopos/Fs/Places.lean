import Octopos.Fs.BlockProof
import Octopos.Lib.Ownership

/-!
# Places of block numbers

The places that hold block numbers are the addresses of the inodes and the entries of their indirect
blocks. A file system owns its blocks if the data blocks in use are those that places hold, each
once (`Own`). The contents of an inode follow its places; a place without a block reads as zeros.
-/

namespace Octopos

/-- The place of block `k` of a file; the address of the indirect block is not one of them. -/
def placeOf (k : ℕ) : ℕ := if k < NDIRECT then k else k + 1

namespace InodeInner

/-- The block number at place `p` of an inode: the addresses come first, then the entries of the
indirect block. -/
def ptr (n : InodeInner) (data : ℕ → Bytes) (p : ℕ) : ℕ :=
  if h : p < NDIRECT + 1 then (n.addrs ⟨p, h⟩).toNat
  else if p < NDIRECT + 1 + NINDIRECT ∧ n.addrs (Fin.last NDIRECT) ≠ 0 then
    (get32 (data (n.addrs (Fin.last NDIRECT)).toNat) (4 * (p - (NDIRECT + 1)))).toNat
  else 0

theorem ptr_addr (n : InodeInner) (data : ℕ → Bytes) (k : Fin (NDIRECT + 1)) :
    n.ptr data k.val = (n.addrs k).toNat := by
  unfold ptr
  rw [dif_pos k.isLt]

theorem ptr_listed {n : InodeInner} (data : ℕ → Bytes) {k : ℕ} (hk : k < NINDIRECT)
    (h : n.addrs (Fin.last NDIRECT) ≠ 0) :
    n.ptr data (NDIRECT + 1 + k) =
      (get32 (data (n.addrs (Fin.last NDIRECT)).toNat) (4 * k)).toNat := by
  unfold ptr
  rw [dif_neg (by omega), if_pos ⟨by omega, h⟩, Nat.add_sub_cancel_left]

theorem ptr_listed_zero {n : InodeInner} (data : ℕ → Bytes) {p : ℕ} (hp : NDIRECT < p)
    (h : n.addrs (Fin.last NDIRECT) = 0) : n.ptr data p = 0 := by
  unfold ptr
  rw [dif_neg (by omega), if_neg (by simp [h])]

/-- The block numbers of an inode depend on its addresses and its indirect block only. -/
theorem ptr_congr {n m : InodeInner} {data data' : ℕ → Bytes} (haddrs : n.addrs = m.addrs)
    (hdata : m.addrs (Fin.last NDIRECT) ≠ 0 →
      data (m.addrs (Fin.last NDIRECT)).toNat = data' (m.addrs (Fin.last NDIRECT)).toNat) (p : ℕ) :
    n.ptr data p = m.ptr data' p := by
  unfold ptr
  rw [haddrs]
  split_ifs with h1 h2
  · rfl
  · rw [hdata h2.2]
  · rfl

end InodeInner

/-- The block numbers at all places of all inodes. -/
def places (node : ℕ → InodeInner) (data : ℕ → Bytes) (x : ℕ × ℕ) : ℕ := (node x.1).ptr data x.2

theorem places_mk (node : ℕ → InodeInner) (data : ℕ → Bytes) (i p : ℕ) :
    places node data (i, p) = (node i).ptr data p := rfl

/-- The data blocks in use are those that places hold, each once, and the blocks before them are in
use. -/
structure Own (sb : SuperBlock) (node : ℕ → InodeInner) (bit : ℕ → Bool) (data : ℕ → Bytes) :
    Prop where
  owned : Owned (places node data) bit sb.dataStart sb.size
  reserved : ∀ b < sb.dataStart, b < sb.size → bit b = true

theorem toNat_ofNat_of_lt {b n : ℕ} (hn : n ≤ 2 ^ 32) (hb : b < n) :
    (UInt32.ofNat b).toNat = b := by
  rw [UInt32.toNat_ofNat']
  exact Nat.mod_eq_of_lt (by omega)

theorem ne_zero_of_toNat {x : UInt32} (h : x.toNat ≠ 0) : x ≠ 0 := fun e => h (by rw [e]; rfl)

theorem toNat_ne_zero {x : UInt32} (h : x ≠ 0) : x.toNat ≠ 0 :=
  fun e => h (UInt32.toNat_inj.1 e)

section Insert

variable {sb : SuperBlock} {node : ℕ → InodeInner} {bit : ℕ → Bool} {data : ℕ → Bytes} {i b : ℕ}

theorem places_addr (node : ℕ → InodeInner) (data : ℕ → Bytes) (i : ℕ) (k : Fin (NDIRECT + 1)) :
    places node data (i, k.val) = ((node i).addrs k).toNat :=
  (node i).ptr_addr data k

theorem places_indirect (node : ℕ → InodeInner) (data : ℕ → Bytes) (i : ℕ) :
    places node data (i, NDIRECT) = ((node i).addrs (Fin.last NDIRECT)).toNat :=
  places_addr node data i (Fin.last NDIRECT)

theorem Own.indirect_ne (h : Own sb node bit data) (hb : bit b = false) {j : ℕ} (hj : (node j).addrs
    (Fin.last NDIRECT) ≠ 0) : ((node j).addrs (Fin.last NDIRECT)).toNat ≠ b := by
  have hne := toNat_ne_zero hj
  rw [← places_addr node data j (Fin.last NDIRECT)] at hne ⊢
  exact h.owned.ne_of_free hb hne

theorem Own.places_setAddr (hsb : sb.Valid) (h : Own sb node bit data) (hb : bit b = false)
    (hlo : sb.dataStart ≤ b) (hhi : b < sb.size) (k : Fin (NDIRECT + 1))
    (hk : (node i).addrs k = 0) {n : InodeInner}
    (hn : n.addrs = upd (node i).addrs k (UInt32.ofNat b)) :
    places (upd node i n) (upd data b fun _ => 0) = upd (places node data) (i, k.val) b := by
  have hpos := h.owned.pos
  have hb32 : (UInt32.ofNat b).toNat = b := toNat_ofNat_of_lt hsb.size_lt.le hhi
  funext ⟨j, p⟩
  rw [places_mk]
  by_cases hj : j = i
  · subst hj
    rw [upd_self]
    by_cases hp : p < NDIRECT + 1
    · by_cases hpk : p = k.val
      · subst hpk
        rw [upd_self, InodeInner.ptr_addr, hn, upd_self, hb32]
      · rw [upd_of_ne (by simp [hpk]), places_mk, InodeInner.ptr_addr n _ ⟨p, hp⟩,
          InodeInner.ptr_addr (node j) _ ⟨p, hp⟩, hn, upd_of_ne (fun e => hpk (congrArg Fin.val e))]
    · have hpk : (j, p) ≠ (j, k.val) := fun e => by
        have := congrArg Prod.snd e
        have := k.isLt
        simp only at *
        omega
      rw [upd_of_ne hpk, places_mk]
      by_cases hlast : k = Fin.last NDIRECT
      · -- the new block is the indirect block, whose entries are zero
        subst hlast
        rw [InodeInner.ptr_listed_zero (n := node j) data (by omega) hk]
        by_cases hp' : p < NDIRECT + 1 + NINDIRECT
        · obtain ⟨q, rfl⟩ : ∃ q, p = NDIRECT + 1 + q := ⟨p - (NDIRECT + 1), by omega⟩
          have hne : n.addrs (Fin.last NDIRECT) ≠ 0 := by
            rw [hn, upd_self]
            exact ne_zero_of_toNat (by omega)
          rw [InodeInner.ptr_listed _ (by omega) hne, hn, upd_self, hb32, upd_self]
          rfl
        · unfold InodeInner.ptr
          rw [dif_neg hp, if_neg (fun h => hp' h.1)]
      · have hsame : n.addrs (Fin.last NDIRECT) = (node j).addrs (Fin.last NDIRECT) := by
          rw [hn, upd_of_ne (Ne.symm hlast)]
        unfold InodeInner.ptr
        rw [dif_neg hp, dif_neg hp, hsame]
        split_ifs with h2
        · rw [upd_of_ne (h.indirect_ne hb h2.2)]
        · rfl
  · rw [upd_of_ne hj, upd_of_ne (by simp [hj])]
    exact InodeInner.ptr_congr rfl (fun hne => by rw [upd_of_ne (h.indirect_ne hb hne)]) p

theorem Own.places_setListed (hsb : sb.Valid) (h : Own sb node bit data) (hb : bit b = false)
    (hhi : b < sb.size) {k : ℕ} (hk : k < NINDIRECT)
    (hind : (node i).addrs (Fin.last NDIRECT) ≠ 0) {c : Bytes}
    (hc : c = set32 (data ((node i).addrs (Fin.last NDIRECT)).toNat) (4 * k) (UInt32.ofNat b)) :
    places node (upd (upd data b fun _ => 0) ((node i).addrs (Fin.last NDIRECT)).toNat c) =
      upd (places node data) (i, NDIRECT + 1 + k) b := by
  have hb32 : (UInt32.ofNat b).toNat = b := toNat_ofNat_of_lt hsb.size_lt.le hhi
  funext ⟨j, p⟩
  rw [places_mk]
  by_cases hj : j = i
  · subst hj
    by_cases hp : NDIRECT < p ∧ p < NDIRECT + 1 + NINDIRECT
    · obtain ⟨q, rfl⟩ : ∃ q, p = NDIRECT + 1 + q := ⟨p - (NDIRECT + 1), by omega⟩
      rw [InodeInner.ptr_listed _ (by omega) hind, upd_self]
      by_cases hqk : q = k
      · subst hqk
        rw [upd_self, hc, get32_set32, hb32]
      · rw [upd_of_ne (by simp only [ne_eq, Prod.mk.injEq, true_and]; omega), places_mk, hc, set32,
          get32_blit_of_disjoint (by omega), InodeInner.ptr_listed _ (by omega) hind]
    · rw [upd_of_ne (by simp only [ne_eq, Prod.mk.injEq, true_and]; omega), places_mk]
      unfold InodeInner.ptr
      split_ifs with h1 h2
      · rfl
      · omega
      · rfl
  · rw [upd_of_ne (by simp [hj]), places_mk]
    refine InodeInner.ptr_congr rfl (fun hne => ?_) p
    have hij : ((node j).addrs (Fin.last NDIRECT)).toNat ≠ ((node i).addrs (Fin.last NDIRECT)).toNat := by
      intro e
      rw [← places_addr node data, ← places_addr node data] at e
      have hx := h.owned.inj _ _ (by rw [places_addr]; exact toNat_ne_zero hne) e
      exact hj (congrArg Prod.fst hx)
    rw [upd_of_ne hij, upd_of_ne (h.indirect_ne hb hne)]

end Insert

end Octopos
