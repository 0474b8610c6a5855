import Octopos.Param

/-!
# Addresses and page table entries

The bit operations of `riscv.rs` on virtual addresses and page table entries. An entry is a machine
word with ten flag bits and the number of a physical page; addresses are numbers below `2 ^ 64`.
-/

namespace Octopos

/-- Number of bits to offset within a page. -/
def PGSHIFT : ℕ := 12

/-- One beyond the highest possible virtual address. -/
def MAXVA : ℕ := 1 <<< (9 + 9 + 9 + 12 - 1)

/-- The highest page of every address space. -/
def TRAMPOLINE : ℕ := MAXVA - PGSIZE

def TRAPFRAME : ℕ := TRAMPOLINE - PGSIZE

/-- Physical RAM resides from `KERNBASE` to `PHYSTOP`. -/
def KERNBASE : ℕ := 0x80000000

def PHYSTOP : ℕ := KERNBASE + 128 * 1024 * 1024

/-- `addr & !(PGSIZE - 1)` -/
def pgRoundDown (addr : ℕ) : ℕ :=
  (BitVec.ofNat 64 addr &&& ~~~BitVec.ofNat 64 (PGSIZE - 1)).toNat

def PXMASK : ℕ := 0x1FF

/-- Returns the amount to shift to get to the page table index of a level. -/
def pxShift (level : ℕ) : ℕ := PGSHIFT + 9 * level

theorem px_lt (a : ℕ) : a &&& PXMASK < 512 := Nat.lt_succ_of_le Nat.and_le_right

/-- Returns the page table index of the address for a level. -/
def px (level va : ℕ) : Fin 512 := ⟨(va >>> pxShift level) &&& PXMASK, px_lt _⟩

abbrev Pte := BitVec 64

def PTE_V : Pte := 1 <<< 0

def PTE_R : Pte := 1 <<< 1

def PTE_W : Pte := 1 <<< 2

def PTE_X : Pte := 1 <<< 3

def PTE_U : Pte := 1 <<< 4

def PTE_COW : Pte := 1 <<< 8

/-- `PA::as_pte` -/
def paToPte (pa : ℕ) : Pte := (BitVec.ofNat 64 pa >>> 12) <<< 10

namespace Pte

/-- The physical address that the entry points to. -/
def asPa (e : Pte) : ℕ := ((e >>> 10) <<< 12).toNat

def flags (e : Pte) : Pte := e &&& 0x3FF

def isV (e : Pte) : Bool := e &&& PTE_V != 0

def isR (e : Pte) : Bool := e &&& PTE_R != 0

def isU (e : Pte) : Bool := e &&& PTE_U != 0

def isW (e : Pte) : Bool := e &&& PTE_W != 0

def isCow (e : Pte) : Bool := e &&& PTE_COW != 0

def isLeaf (e : Pte) : Bool := e &&& (PTE_X ||| PTE_W ||| PTE_R) != 0

end Pte

/-- The entry of a page that is shared between a parent and its child. -/
def Pte.shared (e : Pte) : Pte := if e.isW then (e &&& ~~~PTE_W) ||| PTE_COW else e

/-! ## Numbers -/

theorem pgRoundDown_eq {addr : ℕ} (h : addr < 2 ^ 64) :
    pgRoundDown addr = addr / PGSIZE * PGSIZE := by
  have hmask : BitVec.ofNat 64 addr &&& ~~~BitVec.ofNat 64 (PGSIZE - 1) = (BitVec.ofNat 64 addr >>> 12) <<< 12 := by
    have hlow : PGSIZE - 1 = 2 ^ 12 - 1 := rfl
    refine BitVec.eq_of_getLsbD_eq fun i hi => ?_
    rw [hlow, BitVec.getLsbD_and, BitVec.getLsbD_not, BitVec.getLsbD_ofNat, BitVec.getLsbD_ofNat,
      BitVec.getLsbD_shiftLeft, BitVec.getLsbD_ushiftRight, BitVec.getLsbD_ofNat,
      Nat.testBit_two_pow_sub_one]
    by_cases hi12 : i < 12
    · simp [hi12]
    · have hadd : 12 + (i - 12) = i := by omega
      simp [hi12, hadd, hi]
  rw [pgRoundDown, hmask, BitVec.toNat_shiftLeft, BitVec.toNat_ushiftRight, BitVec.toNat_ofNat,
    Nat.mod_eq_of_lt h, Nat.shiftLeft_eq, Nat.shiftRight_eq_div_pow]
  exact Nat.mod_eq_of_lt (lt_of_le_of_lt (Nat.div_mul_le_self addr (2 ^ 12)) h)

theorem px_val (level va : ℕ) : (px level va).val = va / 2 ^ pxShift level % 512 := by
  change (va >>> pxShift level) &&& (2 ^ 9 - 1) = _
  rw [Nat.and_two_pow_sub_one_eq_mod, Nat.shiftRight_eq_div_pow]

theorem px_inj {va va' : ℕ} (h : va < MAXVA) (h' : va' < MAXVA) (ha : va % PGSIZE = 0)
    (ha' : va' % PGSIZE = 0) (h2 : px 2 va = px 2 va') (h1 : px 1 va = px 1 va')
    (h0 : px 0 va = px 0 va') : va = va' := by
  have hmax : MAXVA = 2 ^ 38 := rfl
  have hpg : PGSIZE = 4096 := rfl
  rw [hpg] at ha ha'
  have hdiv : ∀ a : ℕ, a / 2097152 = a / 4096 / 512 ∧ a / 1073741824 = a / 4096 / 512 / 512 :=
    fun a => by omega
  rw [Fin.ext_iff, px_val, px_val] at h2 h1 h0
  simp only [pxShift, PGSHIFT] at h2 h1 h0
  norm_num [hdiv] at h2 h1 h0
  have hpage : va / 4096 = va' / 4096 := by
    have hlt : va / 4096 < 2 ^ 26 := by omega
    have hlt' : va' / 4096 < 2 ^ 26 := by omega
    generalize va / 4096 = x at h2 h1 h0 hlt ⊢
    generalize va' / 4096 = y at h2 h1 h0 hlt' ⊢
    omega
  omega

theorem px_two_lt {va : ℕ} (h : va < MAXVA) : (px 2 va).val < 256 := by
  have hmax : MAXVA = 2 ^ 38 := rfl
  have hshift : 2 ^ pxShift 2 = 2 ^ 30 := rfl
  rw [px_val, hshift]
  omega

theorem px_page (level va : ℕ) : px level (va / PGSIZE * PGSIZE) = px level va := by
  have hpg : PGSIZE = 2 ^ 12 := rfl
  have hshift : (2 : ℕ) ^ pxShift level = 2 ^ 12 * 2 ^ (9 * level) := pow_add 2 12 (9 * level)
  rw [Fin.ext_iff, px_val, px_val, hshift, hpg, ← Nat.div_div_eq_div_mul, ← Nat.div_div_eq_div_mul,
    Nat.mul_div_cancel _ (by decide)]

theorem asPa_paToPte {pa : ℕ} {f : Pte} (hpa : pa < 2 ^ 54) (ha : pa % PGSIZE = 0)
    (hf : f.toNat < 2 ^ 10) : Pte.asPa (paToPte pa ||| f) = pa := by
  have hpg : PGSIZE = 4096 := rfl
  rw [hpg] at ha
  have hzero : f >>> 10 = 0#64 := by
    refine BitVec.eq_of_toNat_eq ?_
    rw [BitVec.toNat_ushiftRight, Nat.shiftRight_eq_div_pow]
    exact Nat.div_eq_of_lt hf
  rw [Pte.asPa, BitVec.ushiftRight_or_distrib, hzero, BitVec.or_zero, paToPte]
  simp only [BitVec.toNat_shiftLeft, BitVec.toNat_ushiftRight, BitVec.toNat_ofNat,
    Nat.shiftLeft_eq, Nat.shiftRight_eq_div_pow]
  omega

section Flags

variable {e f : Pte}

theorem and_bit (e : Pte) {i : ℕ} (hi : i < 64) :
    (e &&& BitVec.twoPow 64 i != 0) = e.getLsbD i := by
  rw [BitVec.and_twoPow]
  split_ifs with h
  · rw [h, bne_iff_ne]
    intro hzero
    have hbit := congrArg (fun b : BitVec 64 => b.getLsbD i) hzero
    simp [hi] at hbit
  · rw [Bool.not_eq_true] at h
    rw [h]
    rfl

theorem Pte.isV_eq (e : Pte) : e.isV = e.getLsbD 0 := and_bit e (by decide)

theorem Pte.isW_eq (e : Pte) : e.isW = e.getLsbD 2 := and_bit e (by decide)

theorem Pte.isR_eq (e : Pte) : e.isR = e.getLsbD 1 := and_bit e (by decide)

theorem Pte.isU_eq (e : Pte) : e.isU = e.getLsbD 4 := and_bit e (by decide)

theorem Pte.isCow_eq (e : Pte) : e.isCow = e.getLsbD 8 := and_bit e (by decide)

theorem or_ne_zero (a b : Pte) : (a ||| b != 0) = (a != 0 || b != 0) := by
  have hor : a ||| b = 0 ↔ a = 0 ∧ b = 0 := BitVec.or_eq_zero_iff
  rw [Bool.eq_iff_iff, Bool.or_eq_true, bne_iff_ne, bne_iff_ne, bne_iff_ne, ne_eq, hor, not_and_or]

theorem Pte.isLeaf_eq (e : Pte) : e.isLeaf = (e.getLsbD 3 || e.getLsbD 2 || e.getLsbD 1) := by
  have hx : (e &&& PTE_X != 0) = e.getLsbD 3 := and_bit e (by decide)
  have hw : (e &&& PTE_W != 0) = e.getLsbD 2 := and_bit e (by decide)
  have hr : (e &&& PTE_R != 0) = e.getLsbD 1 := and_bit e (by decide)
  rw [Pte.isLeaf, BitVec.and_or_distrib_left, BitVec.and_or_distrib_left, or_ne_zero, or_ne_zero, hx, hw, hr]

theorem Pte.isV_zero : Pte.isV 0 = false := by decide

theorem Pte.isLeaf_zero : Pte.isLeaf 0 = false := by decide

theorem getLsbD_paToPte (pa : ℕ) {i : ℕ} (hi : i < 10) : (paToPte pa).getLsbD i = false := by
  simp [paToPte, hi]

theorem getLsbD_of_flags (hf : f.toNat < 2 ^ 10) {i : ℕ} (hi : 10 ≤ i) : f.getLsbD i = false := by
  rw [← BitVec.testBit_toNat]
  exact Nat.testBit_lt_two_pow (hf.trans_le (Nat.pow_le_pow_right (by decide) hi))

theorem flags_paToPte (pa : ℕ) (hf : f.toNat < 2 ^ 10) : Pte.flags (paToPte pa ||| f) = f := by
  have hmask : (0x3FF : Pte) = BitVec.ofNat 64 (2 ^ 10 - 1) := rfl
  refine BitVec.eq_of_getLsbD_eq fun i hi => ?_
  rw [Pte.flags, hmask, BitVec.getLsbD_and, BitVec.getLsbD_or, BitVec.getLsbD_ofNat, Nat.testBit_two_pow_sub_one]
  by_cases hi10 : i < 10
  · rw [getLsbD_paToPte pa hi10]
    simp [hi10, hi]
  · simp [hi10, getLsbD_of_flags hf (not_lt.1 hi10)]

theorem getLsbD_install (pa : ℕ) (f : Pte) {i : ℕ} (hi : i < 10) :
    (paToPte pa ||| f).getLsbD i = f.getLsbD i := by
  rw [BitVec.getLsbD_or, getLsbD_paToPte pa hi, Bool.false_or]

theorem isV_install (pa : ℕ) (f : Pte) : Pte.isV (paToPte pa ||| f) = f.isV := by
  rw [Pte.isV_eq, Pte.isV_eq, getLsbD_install pa f (by decide)]

theorem isW_install (pa : ℕ) (f : Pte) : Pte.isW (paToPte pa ||| f) = f.isW := by
  rw [Pte.isW_eq, Pte.isW_eq, getLsbD_install pa f (by decide)]

theorem isU_install (pa : ℕ) (f : Pte) : Pte.isU (paToPte pa ||| f) = f.isU := by
  rw [Pte.isU_eq, Pte.isU_eq, getLsbD_install pa f (by decide)]

theorem isCow_install (pa : ℕ) (f : Pte) : Pte.isCow (paToPte pa ||| f) = f.isCow := by
  rw [Pte.isCow_eq, Pte.isCow_eq, getLsbD_install pa f (by decide)]

theorem isLeaf_install (pa : ℕ) (f : Pte) : Pte.isLeaf (paToPte pa ||| f) = f.isLeaf := by
  rw [Pte.isLeaf_eq, Pte.isLeaf_eq, getLsbD_install pa f (by decide), getLsbD_install pa f (by decide),
    getLsbD_install pa f (by decide)]

theorem isR_install (pa : ℕ) (f : Pte) : Pte.isR (paToPte pa ||| f) = f.isR := by
  rw [Pte.isR_eq, Pte.isR_eq, getLsbD_install pa f (by decide)]

theorem isR_or (e f : Pte) : Pte.isR (e ||| f) = (e.isR || f.isR) := by
  rw [Pte.isR_eq, Pte.isR_eq, Pte.isR_eq, BitVec.getLsbD_or]

theorem Pte.isLeaf_of_isR (h : e.isR = true) : e.isLeaf = true := by
  rw [Pte.isR_eq] at h
  rw [Pte.isLeaf_eq, h, Bool.or_true]

theorem paToPte_mask (pa : ℕ) (hf : f.toNat < 2 ^ 10) : paToPte pa &&& ~~~f = paToPte pa := by
  refine BitVec.eq_of_getLsbD_eq fun i hi => ?_
  rw [BitVec.getLsbD_and]
  by_cases hi10 : i < 10
  · rw [getLsbD_paToPte pa hi10, Bool.false_and]
  · rw [BitVec.getLsbD_not, getLsbD_of_flags hf (not_lt.1 hi10)]
    simp [hi]

theorem Pte.isV_and_not (e : Pte) {m : Pte} (hm : m.getLsbD 0 = false) :
    (e &&& ~~~m).isV = e.isV := by
  rw [Pte.isV_eq, Pte.isV_eq, BitVec.getLsbD_and, BitVec.getLsbD_not, hm]
  simp

theorem Pte.isR_and_not (e : Pte) {m : Pte} (hm : m.getLsbD 1 = false) :
    (e &&& ~~~m).isR = e.isR := by
  rw [Pte.isR_eq, Pte.isR_eq, BitVec.getLsbD_and, BitVec.getLsbD_not, hm]
  simp

theorem Pte.getLsbD_shared (e : Pte) {n : ℕ} (hn : n < 64) (hw : PTE_W.getLsbD n = false)
    (hc : PTE_COW.getLsbD n = false) : e.shared.getLsbD n = e.getLsbD n := by
  unfold Pte.shared
  split_ifs
  · rw [BitVec.getLsbD_or, BitVec.getLsbD_and, BitVec.getLsbD_not, hw, hc]
    simp [hn]
  · rfl

theorem Pte.isR_shared (e : Pte) : e.shared.isR = e.isR := by
  rw [Pte.isR_eq, Pte.isR_eq, e.getLsbD_shared (by decide) (by decide) (by decide)]

theorem Pte.isV_shared (e : Pte) : e.shared.isV = e.isV := by
  rw [Pte.isV_eq, Pte.isV_eq, e.getLsbD_shared (by decide) (by decide) (by decide)]

theorem Pte.isU_shared (e : Pte) : e.shared.isU = e.isU := by
  rw [Pte.isU_eq, Pte.isU_eq, e.getLsbD_shared (by decide) (by decide) (by decide)]

theorem Pte.isCow_shared (e : Pte) : e.shared.isCow = (e.isCow || e.isW) := by
  unfold Pte.shared
  split_ifs with hw
  · rw [hw, Bool.or_true, Pte.isCow_eq, BitVec.getLsbD_or, show PTE_COW.getLsbD 8 = true by decide, Bool.or_true]
  · rw [Bool.eq_false_of_not_eq_true hw, Bool.or_false]

theorem Pte.isW_shared (e : Pte) : e.shared.isW = false := by
  unfold Pte.shared
  split_ifs with hw
  · rw [Pte.isW_eq, BitVec.getLsbD_or, BitVec.getLsbD_and, BitVec.getLsbD_not]
    rw [show PTE_W.getLsbD 2 = true by decide, show PTE_COW.getLsbD 2 = false by decide]
    simp
  · rwa [Bool.not_eq_true] at hw

theorem shared_install (pa : ℕ) (f : Pte) :
    Pte.shared (paToPte pa ||| f) = paToPte pa ||| f.shared := by
  unfold Pte.shared
  rw [isW_install]
  split_ifs
  · rw [BitVec.and_or_distrib_right, paToPte_mask pa (by decide), BitVec.or_assoc]
  · rfl

theorem toNat_and_lt (hf : f.toNat < 2 ^ 10) (m : Pte) : (f &&& m).toNat < 2 ^ 10 := by
  rw [BitVec.toNat_and]
  exact lt_of_le_of_lt Nat.and_le_left hf

theorem toNat_or_lt {g : Pte} (hf : f.toNat < 2 ^ 10) (hg : g.toNat < 2 ^ 10) :
    (f ||| g).toNat < 2 ^ 10 := by
  rw [BitVec.toNat_or]
  exact Nat.or_lt_two_pow hf hg

theorem toNat_shared_lt (hf : f.toNat < 2 ^ 10) : f.shared.toNat < 2 ^ 10 := by
  unfold Pte.shared
  split_ifs
  · exact toNat_or_lt (toNat_and_lt hf _) (by decide)
  · exact hf

theorem asPa_congr (h : ∀ n, 10 ≤ n → e.getLsbD n = f.getLsbD n) : e.asPa = f.asPa := by
  have hshift : e >>> 10 = f >>> 10 := by
    refine BitVec.eq_of_getLsbD_eq fun i _ => ?_
    rw [BitVec.getLsbD_ushiftRight, BitVec.getLsbD_ushiftRight]
    exact h _ (Nat.le_add_right 10 i)
  rw [Pte.asPa, hshift, Pte.asPa]

theorem Pte.asPa_and_not (e : Pte) {m : Pte} (hm : m.toNat < 2 ^ 10) :
    (e &&& ~~~m).asPa = e.asPa := by
  refine asPa_congr fun n hn => ?_
  rw [BitVec.getLsbD_and, BitVec.getLsbD_not, getLsbD_of_flags hm hn]
  by_cases hn64 : n < 64
  · simp [hn64]
  · rw [BitVec.getLsbD_of_ge e n (not_lt.1 hn64), Bool.false_and]

theorem Pte.asPa_shared (e : Pte) : e.shared.asPa = e.asPa := by
  unfold Pte.shared
  split_ifs
  · rw [← Pte.asPa_and_not e (m := PTE_W) (by decide)]
    refine asPa_congr fun n hn => ?_
    rw [BitVec.getLsbD_or, getLsbD_of_flags (f := PTE_COW) (by decide) hn, Bool.or_false]
  · rfl

theorem toNat_flags (e : Pte) : e.flags.toNat < 2 ^ 10 := by
  rw [Pte.flags, BitVec.toNat_and]
  exact lt_of_le_of_lt Nat.and_le_right (by decide)

theorem getLsbD_flags (e : Pte) {n : ℕ} (hn : n < 10) : e.flags.getLsbD n = e.getLsbD n := by
  have hmask : (0x3FF : Pte) = BitVec.ofNat 64 (2 ^ 10 - 1) := rfl
  rw [Pte.flags, BitVec.getLsbD_and, hmask, BitVec.getLsbD_ofNat, Nat.testBit_two_pow_sub_one]
  simp [hn, show n < 64 by omega]

end Flags

end Octopos
