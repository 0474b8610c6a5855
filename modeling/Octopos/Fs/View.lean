import Octopos.Fs.Inode
import Mathlib.Data.Nat.Bitwise

/-!
# The disk as bitmap, inodes and data

What the blocks of the disk mean: the bitmap, the inodes and the data blocks, which lie in disjoint
parts of the disk (`SuperBlock.Valid`). Every change the file system makes to a block changes one
bit, one inode or one data block (`view_setBit`, `view_storeInode`, `view_setData`), although
bitmap and inode blocks are shared.
-/

namespace Octopos

def SuperBlock.dataStart (sb : SuperBlock) : ℕ := sb.size - sb.nblocks

/-- The layout of the disk: inode blocks, bitmap blocks and data blocks follow each other, and block
and inode numbers fit their fields. -/
structure SuperBlock.Valid (sb : SuperBlock) : Prop where
  inodes : ∀ i < sb.ninodes, sb.inodeBlock i < sb.bmapstart
  bitmap : ∀ b < sb.size, sb.bmapstart + b / BPB < sb.dataStart
  bmapstart_le : sb.bmapstart ≤ sb.dataStart
  size_lt : sb.size < 2 ^ 32
  ninodes_le : sb.ninodes ≤ 2 ^ 16
  root : ROOTINO < sb.ninodes

instance : Inhabited InodeInner := ⟨.free, 0, 0, 0, 0, fun _ => 0⟩

/-- The meaning of the disk. -/
structure View where
  bit : ℕ → Bool
  node : ℕ → InodeInner
  data : ℕ → Bytes

namespace View

def setBit (v : View) (b : ℕ) (x : Bool) : View := { v with bit := upd v.bit b x }

def setNode (v : View) (i : ℕ) (n : InodeInner) : View := { v with node := upd v.node i n }

def setData (v : View) (b : ℕ) (c : Bytes) : View := { v with data := upd v.data b c }

section

variable (v : View)
include v

@[simp] theorem setBit_bit (b : ℕ) (x : Bool) : (v.setBit b x).bit = upd v.bit b x := rfl

@[simp] theorem setBit_node (b : ℕ) (x : Bool) : (v.setBit b x).node = v.node := rfl

@[simp] theorem setBit_data (b : ℕ) (x : Bool) : (v.setBit b x).data = v.data := rfl

@[simp] theorem setNode_bit (i : ℕ) (n : InodeInner) : (v.setNode i n).bit = v.bit := rfl

@[simp] theorem setNode_node (i : ℕ) (n : InodeInner) :
    (v.setNode i n).node = upd v.node i n := rfl

@[simp] theorem setNode_data (i : ℕ) (n : InodeInner) : (v.setNode i n).data = v.data :=
  rfl

@[simp] theorem setData_bit (b : ℕ) (c : Bytes) : (v.setData b c).bit = v.bit := rfl

@[simp] theorem setData_node (b : ℕ) (c : Bytes) : (v.setData b c).node = v.node := rfl

@[simp] theorem setData_data (b : ℕ) (c : Bytes) :
    (v.setData b c).data = upd v.data b c := rfl

end

end View

/-- The meaning of the blocks `d`; outside of their ranges bits, inodes and data are trivial. -/
def SuperBlock.view (sb : SuperBlock) (d : ℕ → Bytes) : View where
  bit b := b < sb.size && !(d (sb.bmapstart + b / BPB) (b % BPB / 8) &&& bitMask (b % BPB) == 0)
  node i := if i < sb.ninodes then InodeInner.load (d (sb.inodeBlock i)) (inodeOffset i) else default
  data b := if sb.dataStart ≤ b then d b else fun _ => 0

/-! ## One inode -/

theorem InodeType.ofU16_toU16 (t : InodeType) : ofU16 t.toU16 = t := by
  cases t <;> rfl

theorem get16_of_leBytes {b : Bytes} {o : ℕ} {v : UInt16}
    (h : ∀ i < 2, b (o + i) = leBytes v.toNat i) : get16 b o = v := by
  rw [get16_eq_leNat, leNat_of_bytes h, Nat.mod_eq_of_lt (by simpa using v.toNat_lt)]
  exact UInt16.ofNat_toNat

theorem get32_of_leBytes {b : Bytes} {o : ℕ} {v : UInt32}
    (h : ∀ i < 4, b (o + i) = leBytes v.toNat i) : get32 b o = v := by
  rw [get32_eq_leNat, leNat_of_bytes h, Nat.mod_eq_of_lt (by simpa using v.toNat_lt)]
  exact UInt32.ofNat_toNat

namespace InodeInner

theorem bytes_addrs (n : InodeInner) (k : Fin (NDIRECT + 1)) {i : ℕ} (hi : i < 4) :
    n.bytes (12 + 4 * k.val + i) = leBytes (n.addrs k).toNat i := by
  have hk : (12 + 4 * k.val + i - 12) / 4 = k.val := by omega
  have hmod : (12 + 4 * k.val + i) % 4 = i := by omega
  unfold bytes
  rw [if_neg (by omega), if_neg (by omega), if_neg (by omega), if_neg (by omega),
    if_neg (by omega), dif_pos (by rw [hk]; exact k.isLt), hmod]
  congr 3
  exact Fin.ext hk

theorem load_store (n : InodeInner) (b : Bytes) (o : ℕ) : load (n.store b o) o = n := by
  have hat (i : ℕ) (hi : i < DINODESIZE) : n.store b o (o + i) = n.bytes i := blit_inside hi
  have h64 : DINODESIZE = 64 := rfl
  have h16 (f : ℕ) (v : UInt16) (hf : f + 2 ≤ 64) (hv : ∀ i < 2, n.bytes (f + i) = leBytes v.toNat i) :
      get16 (n.store b o) (o + f) = v :=
    get16_of_leBytes fun i hi => by rw [add_assoc, hat _ (by omega), hv i hi]
  have h32 (f : ℕ) (v : UInt32) (hf : f + 4 ≤ 64) (hv : ∀ i < 4, n.bytes (f + i) = leBytes v.toNat i) :
      get32 (n.store b o) (o + f) = v :=
    get32_of_leBytes fun i hi => by rw [add_assoc, hat _ (by omega), hv i hi]
  have htype : get16 (n.store b o) o = n.type.toU16 :=
    h16 0 _ (by omega) fun i hi => by unfold bytes; rw [if_pos (by omega), zero_add]
  have hmajor : get16 (n.store b o) (o + 2) = n.major := h16 2 _ (by omega) fun i hi => by
    unfold bytes; rw [if_neg (by omega), if_pos (by omega), Nat.add_sub_cancel_left]
  have hminor : get16 (n.store b o) (o + 4) = n.minor := h16 4 _ (by omega) fun i hi => by
    unfold bytes
    rw [if_neg (by omega), if_neg (by omega), if_pos (by omega), Nat.add_sub_cancel_left]
  have hnlink : get16 (n.store b o) (o + 6) = n.nlink := h16 6 _ (by omega) fun i hi => by
    unfold bytes
    rw [if_neg (by omega), if_neg (by omega), if_neg (by omega), if_pos (by omega), Nat.add_sub_cancel_left]
  have hsize : get32 (n.store b o) (o + 8) = n.size := h32 8 _ (by omega) fun i hi => by
    unfold bytes
    rw [if_neg (by omega), if_neg (by omega), if_neg (by omega), if_neg (by omega),
      if_pos (by omega), Nat.add_sub_cancel_left]
  have haddrs : (fun k : Fin (NDIRECT + 1) => get32 (n.store b o) (o + 12 + 4 * k.val)) = n.addrs := by
    funext k
    have hk : k.val < 13 := k.isLt
    rw [add_assoc]
    exact h32 (12 + 4 * k.val) _ (by omega) fun i hi => bytes_addrs n k hi
  unfold load
  rw [htype, hmajor, hminor, hnlink, hsize, haddrs, InodeType.ofU16_toU16]

theorem load_congr {b c : Bytes} {o : ℕ} (h : ∀ i < DINODESIZE, b (o + i) = c (o + i)) :
    load b o = load c o := by
  have h64 : DINODESIZE = 64 := rfl
  have h16 (f : ℕ) (hf : f + 2 ≤ 64) : get16 b (o + f) = get16 c (o + f) :=
    get16_congr fun i hi => by rw [add_assoc]; exact h (f + i) (by omega)
  have h32 (f : ℕ) (hf : f + 4 ≤ 64) : get32 b (o + f) = get32 c (o + f) :=
    get32_congr fun i hi => by rw [add_assoc]; exact h (f + i) (by omega)
  have haddrs : (fun k : Fin (NDIRECT + 1) => get32 b (o + 12 + 4 * k.val)) =
      fun k : Fin (NDIRECT + 1) => get32 c (o + 12 + 4 * k.val) := by
    funext k
    have hk : k.val < 13 := k.isLt
    rw [add_assoc]
    exact h32 _ (by omega)
  unfold load
  rw [show get16 b o = get16 c o from h16 0 (by omega), h16 2 (by omega), h16 4 (by omega),
    h16 6 (by omega), h32 8 (by omega), haddrs]

theorem load_set16 (b : Bytes) (o : ℕ) (t : UInt16) :
    load (set16 b o t) o = { load b o with type := InodeType.ofU16 t } := by
  have h16 (f : ℕ) (hf : 2 ≤ f) : get16 (set16 b o t) (o + f) = get16 b (o + f) :=
    get16_blit_of_disjoint (by omega)
  have h32 (f : ℕ) (hf : 2 ≤ f) : get32 (set16 b o t) (o + f) = get32 b (o + f) :=
    get32_blit_of_disjoint (by omega)
  unfold load
  rw [get16_set16, h16 2 le_rfl, h16 4 (by omega), h16 6 (by omega), h32 8 (by omega)]
  congr 1
  funext k
  change _ = get32 b (o + 12 + 4 * k.val)
  rw [add_assoc]
  exact h32 (12 + 4 * k.val) (by omega)

end InodeInner

/-! ## One bit -/

theorem toNat_bitMask (i : ℕ) : (bitMask i).toNat = 2 ^ (i % 8) := by
  have hi : i % 8 < 8 := Nat.mod_lt _ (by decide)
  unfold bitMask
  generalize i % 8 = k at hi ⊢
  interval_cases k <;> rfl

theorem and_bitMask_eq_zero (x : UInt8) (i : ℕ) :
    x &&& bitMask i = 0 ↔ x.toNat.testBit (i % 8) = false := by
  rw [← UInt8.toNat_inj, UInt8.toNat_and, toNat_bitMask, Nat.and_two_pow]
  cases x.toNat.testBit (i % 8) <;> simp

theorem or_bitMask_and_bitMask_eq_zero (x : UInt8) (i j : ℕ) :
    (x ||| bitMask i) &&& bitMask j = 0 ↔ i % 8 ≠ j % 8 ∧ x &&& bitMask j = 0 := by
  rw [and_bitMask_eq_zero, and_bitMask_eq_zero, UInt8.toNat_or, Nat.testBit_or, toNat_bitMask, Nat.testBit_two_pow]
  simp [and_comm]

theorem toNat_not_testBit (x : UInt8) {k : ℕ} (hk : k < 8) :
    (~~~x).toNat.testBit k = !x.toNat.testBit k := by
  have h : (~~~x).toNat = (~~~x.toBitVec).toNat := rfl
  rw [h, ← BitVec.getLsbD, BitVec.getLsbD_not]
  simp [hk, BitVec.getLsbD]

theorem andNot_bitMask_and_bitMask_eq_zero (x : UInt8) (i j : ℕ) :
    (x &&& ~~~bitMask i) &&& bitMask j = 0 ↔ i % 8 = j % 8 ∨ x &&& bitMask j = 0 := by
  have hj : j % 8 < 8 := Nat.mod_lt _ (by decide)
  rw [and_bitMask_eq_zero, and_bitMask_eq_zero, UInt8.toNat_and, Nat.testBit_and,
    toNat_not_testBit _ hj, toNat_bitMask, Nat.testBit_two_pow]
  by_cases h : i % 8 = j % 8 <;> simp [h]

theorem mod_BPB_mod (b : ℕ) : b % BPB % 8 = b % 8 := by
  have h : BPB = 8192 := rfl
  rw [h]
  omega

theorem bit_place_inj {b c : ℕ} (hblock : b / BPB = c / BPB) (hbyte : b % BPB / 8 = c % BPB / 8)
    (hbit : b % 8 = c % 8) : b = c := by
  have h : BPB = 8192 := rfl
  rw [h] at hblock hbyte
  omega

section Change

variable {sb : SuperBlock} (hsb : sb.Valid) {d : ℕ → Bytes}

include hsb

theorem view_editInode {i : ℕ} (hi : i < sb.ninodes) {c : Bytes}
    (hout : ∀ j, j < inodeOffset i ∨ inodeOffset i + DINODESIZE ≤ j → c j = d (sb.inodeBlock i) j) :
    sb.view (upd d (sb.inodeBlock i) c) =
      (sb.view d).setNode i (InodeInner.load c (inodeOffset i)) := by
  have hblock := hsb.inodes i hi
  have hdata := hsb.bmapstart_le
  simp only [SuperBlock.view, View.setNode, View.mk.injEq]
  refine ⟨?_, ?_, ?_⟩
  · funext b
    have hlt : sb.inodeBlock i < sb.bmapstart + b / BPB := hblock.trans_le (Nat.le_add_right _ _)
    rw [upd_of_ne hlt.ne']
  · funext j
    by_cases hji : j = i
    · subst hji
      rw [upd_self, if_pos hi, upd_self]
    · rw [upd_of_ne hji]
      by_cases hj : j < sb.ninodes
      · rw [if_pos hj, if_pos hj]
        by_cases hb : sb.inodeBlock j = sb.inodeBlock i
        · -- another inode of the same block
          rw [hb, upd_self]
          have hoff : inodeOffset j ≠ inodeOffset i := by
            have h16 : IPB = 16 := rfl
            have h64 : DINODESIZE = 64 := rfl
            simp only [SuperBlock.inodeBlock, inodeOffset, h16, h64] at hb ⊢
            omega
          refine InodeInner.load_congr fun k hk => hout _ ?_
          have h16 : IPB = 16 := rfl
          have h64 : DINODESIZE = 64 := rfl
          simp only [inodeOffset, h16, h64] at hk hoff ⊢
          omega
        · rw [upd_of_ne hb]
      · rw [if_neg hj, if_neg hj]
  · funext b
    by_cases hb : sb.dataStart ≤ b
    · rw [if_pos hb, if_pos hb, upd_of_ne (by omega)]
    · rw [if_neg hb, if_neg hb]

theorem view_storeInode {i : ℕ} (hi : i < sb.ninodes) (n : InodeInner) :
    sb.view (upd d (sb.inodeBlock i) (n.store (d (sb.inodeBlock i)) (inodeOffset i))) =
      (sb.view d).setNode i n := by
  have h := view_editInode hsb hi (d := d) (c := n.store (d (sb.inodeBlock i)) (inodeOffset i))
    fun j hj => blit_outside hj
  rw [h, InodeInner.load_store]

theorem view_editBit {b : ℕ} (hb : b < sb.size) {x : UInt8} {v : Bool}
    (hx : ∀ j, x &&& bitMask j = 0 ↔ if b % 8 = j % 8 then v = false else
      d (sb.bmapstart + b / BPB) (b % BPB / 8) &&& bitMask j = 0) :
    sb.view (upd d (sb.bmapstart + b / BPB)
        (upd (d (sb.bmapstart + b / BPB)) (b % BPB / 8) x)) =
      (sb.view d).setBit b v := by
  have hblock := hsb.bitmap b hb
  simp only [SuperBlock.view, View.setBit, View.mk.injEq]
  refine ⟨?_, ?_, ?_⟩
  · funext j
    by_cases hjb : j = b
    · subst hjb
      rw [upd_self, upd_self, upd_self]
      have := hx (j % BPB)
      rw [if_pos (mod_BPB_mod j).symm] at this
      cases v <;> simp_all
    · rw [upd_of_ne hjb]
      by_cases hblk : sb.bmapstart + j / BPB = sb.bmapstart + b / BPB
      · rw [hblk, upd_self]
        by_cases hbyte : j % BPB / 8 = b % BPB / 8
        · -- another bit of the same byte
          rw [hbyte, upd_self]
          have := hx (j % BPB)
          rw [mod_BPB_mod, if_neg fun h => hjb (bit_place_inj (by omega) hbyte h.symm)] at this
          congr 2
          simp only [Bool.beq_eq_decide_eq]
          exact decide_eq_decide.mpr this
        · rw [upd_of_ne hbyte]
      · rw [upd_of_ne hblk]
  · funext i
    by_cases hi : i < sb.ninodes
    · have hlt : sb.inodeBlock i < sb.bmapstart + b / BPB :=
        (hsb.inodes i hi).trans_le (Nat.le_add_right _ _)
      rw [if_pos hi, if_pos hi, upd_of_ne hlt.ne]
    · rw [if_neg hi, if_neg hi]
  · funext c
    by_cases hc : sb.dataStart ≤ c
    · rw [if_pos hc, if_pos hc, upd_of_ne (by omega)]
    · rw [if_neg hc, if_neg hc]

theorem view_setData {b : ℕ} (hb : sb.dataStart ≤ b) (c : Bytes) :
    sb.view (upd d b c) = (sb.view d).setData b c := by
  have hdata := hsb.bmapstart_le
  simp only [SuperBlock.view, View.setData, View.mk.injEq]
  refine ⟨?_, ?_, ?_⟩
  · funext x
    by_cases hx : x < sb.size
    · have := hsb.bitmap x hx
      rw [upd_of_ne (by omega)]
    · simp [hx]
  · funext i
    by_cases hi : i < sb.ninodes
    · have := hsb.inodes i hi
      rw [if_pos hi, if_pos hi, upd_of_ne (by omega)]
    · rw [if_neg hi, if_neg hi]
  · funext x
    by_cases hx : x = b
    · subst hx
      rw [if_pos hb, upd_self, upd_self]
    · rw [upd_of_ne hx, upd_of_ne hx]

end Change

end Octopos
