import Mathlib.Tactic
import Mathlib.Data.List.GetD

/-!
# Updates, byte sequences and little-endian fields

Contents of blocks and pages are functions from offsets to bytes. `blit` overwrites a range, and
`leNat` reads a little-endian number; reading back what was written gives the number up to the width
of the field (`leNat_blit`), and a field only depends on its own bytes (`leNat_congr`).
-/

namespace Octopos

/-! ## Pointwise updates -/

section Upd

variable {α β : Type*} [DecidableEq α]

/-- Change `f` at `a`; unlike `Function.update` this is not dependent, so it computes without
transport. -/
def upd (f : α → β) (a : α) (v : β) : α → β := fun x => if x = a then v else f x

@[simp] theorem upd_self (f : α → β) (a : α) (v : β) : upd f a v a = v := if_pos rfl

theorem upd_of_ne {f : α → β} {a x : α} {v : β} (h : x ≠ a) : upd f a v x = f x := if_neg h

theorem upd_apply (f : α → β) (a : α) (v : β) (x : α) :
    upd f a v x = if x = a then v else f x := rfl

@[simp] theorem upd_eq_self (f : α → β) (a : α) : upd f a (f a) = f := by
  funext x
  by_cases h : x = a
  · rw [h, upd_self]
  · rw [upd_of_ne h]

@[simp] theorem upd_idem (f : α → β) (a : α) (v w : β) : upd (upd f a v) a w = upd f a w := by
  funext x
  by_cases h : x = a
  · rw [h, upd_self, upd_self]
  · rw [upd_of_ne h, upd_of_ne h, upd_of_ne h]

end Upd

abbrev Bytes := ℕ → UInt8

/-- Overwrite the `n` bytes from offset `o` on by the bytes of `src` from offset `0` on. -/
def blit (b : Bytes) (o n : ℕ) (src : Bytes) : Bytes :=
  fun i => if o ≤ i ∧ i < o + n then src (i - o) else b i

theorem blit_inside {b src : Bytes} {o n i : ℕ} (h : i < n) : blit b o n src (o + i) = src i := by
  simp [blit, h]

theorem blit_start {b s : Bytes} {n i : ℕ} (h : i < n) : blit b 0 n s i = s i := by
  simp [blit, h]

theorem blit_outside {b src : Bytes} {o n i : ℕ} (h : i < o ∨ o + n ≤ i) :
    blit b o n src i = b i := by
  unfold blit
  rw [if_neg (by omega)]

@[simp] theorem blit_zero (b src : Bytes) (o : ℕ) : blit b o 0 src = b := by
  funext i
  exact blit_outside (by omega)

theorem blit_blit (b src : Bytes) (o m n x : ℕ) :
    blit (blit b o m fun i => src (x + i)) (o + m) n (fun i => src (x + m + i)) =
      blit b o (m + n) fun i => src (x + i) := by
  funext i
  unfold blit
  by_cases h : o + m ≤ i ∧ i < o + m + n
  · rw [if_pos h, if_pos (by omega)]
    exact congrArg src (by omega)
  · rw [if_neg h]
    by_cases h' : o ≤ i ∧ i < o + m
    · rw [if_pos h', if_pos (by omega)]
    · rw [if_neg h', if_neg (by omega)]

theorem blit_append (l m : List UInt8) :
    blit (fun i => l.getD i 0) l.length m.length (fun i => m.getD i 0) =
      fun i => (l ++ m).getD i 0 := by
  funext i
  unfold blit
  dsimp only
  by_cases hi : i < l.length
  · rw [if_neg (by omega), List.getD_append _ _ _ _ hi]
  · rw [List.getD_append_right _ _ _ _ (by omega)]
    split_ifs with hin
    · rfl
    · rw [List.getD_eq_default _ _ (by omega), List.getD_eq_default _ _ (by omega)]

/-! ## Little-endian numbers -/

/-- The little-endian number in the `k` bytes from offset `o` on. -/
def leNat (b : Bytes) (o : ℕ) : ℕ → ℕ
  | 0 => 0
  | k + 1 => (b o).toNat + 256 * leNat b (o + 1) k

/-- The little-endian bytes of `v`. -/
def leBytes (v : ℕ) : Bytes := fun i => UInt8.ofNat (v / 256 ^ i)

theorem leNat_lt (b : Bytes) (o k : ℕ) : leNat b o k < 256 ^ k := by
  induction k generalizing o with
  | zero => simp [leNat]
  | succ k ih =>
    have h1 := (b o).toNat_lt
    have h2 := ih (o + 1)
    rw [leNat, pow_succ]
    omega

theorem leNat_congr {b c : Bytes} {o p k : ℕ} (h : ∀ i < k, b (o + i) = c (p + i)) :
    leNat b o k = leNat c p k := by
  induction k generalizing o p with
  | zero => rfl
  | succ k ih =>
    have h0 := h 0 (by omega)
    simp only [add_zero] at h0
    rw [leNat, leNat, h0, ih]
    intro i hi
    have := h (i + 1) (by omega)
    rwa [show o + 1 + i = o + (i + 1) by omega, show p + 1 + i = p + (i + 1) by omega]

/-- Bytes that spell `v` from offset `o` on are read back as `v`, up to the width. -/
theorem leNat_of_bytes {b : Bytes} {o k v : ℕ} (h : ∀ i < k, b (o + i) = leBytes v i) :
    leNat b o k = v % 256 ^ k := by
  induction k generalizing o v with
  | zero => simp [leNat, Nat.mod_one]
  | succ k ih =>
    have h0 := h 0 (by omega)
    simp only [add_zero, leBytes, pow_zero, Nat.div_one] at h0
    have hrest : ∀ i < k, b (o + 1 + i) = leBytes (v / 256) i := by
      intro i hi
      have := h (i + 1) (by omega)
      rw [show o + 1 + i = o + (i + 1) by omega, this, leBytes, leBytes, Nat.div_div_eq_div_mul,
        pow_succ']
    rw [leNat, ih hrest, h0, pow_succ', Nat.mod_mul]
    simp

theorem leNat_blit (b : Bytes) (o k v : ℕ) : leNat (blit b o k (leBytes v)) o k = v % 256 ^ k :=
  leNat_of_bytes fun _ hi => blit_inside hi

theorem leNat_blit_of_disjoint {b src : Bytes} {o n p k : ℕ} (h : p + k ≤ o ∨ o + n ≤ p) :
    leNat (blit b o n src) p k = leNat b p k :=
  leNat_congr fun i hi => blit_outside (by omega)

/-! ## Fields of 16 and 32 bits -/

def get16 (b : Bytes) (o : ℕ) : UInt16 := UInt16.ofNat ((b o).toNat + 256 * (b (o + 1)).toNat)

def set16 (b : Bytes) (o : ℕ) (v : UInt16) : Bytes := blit b o 2 (leBytes v.toNat)

def get32 (b : Bytes) (o : ℕ) : UInt32 :=
  UInt32.ofNat ((b o).toNat + 256 * ((b (o + 1)).toNat + 256 * ((b (o + 2)).toNat +
    256 * (b (o + 3)).toNat)))

def set32 (b : Bytes) (o : ℕ) (v : UInt32) : Bytes := blit b o 4 (leBytes v.toNat)

theorem get16_eq_leNat (b : Bytes) (o : ℕ) : get16 b o = UInt16.ofNat (leNat b o 2) := by
  simp [get16, leNat]

theorem get32_eq_leNat (b : Bytes) (o : ℕ) : get32 b o = UInt32.ofNat (leNat b o 4) := by
  simp [get32, leNat]

theorem get16_congr {b c : Bytes} {o p : ℕ} (h : ∀ i < 2, b (o + i) = c (p + i)) :
    get16 b o = get16 c p := by
  rw [get16_eq_leNat, get16_eq_leNat, leNat_congr h]

theorem get32_congr {b c : Bytes} {o p : ℕ} (h : ∀ i < 4, b (o + i) = c (p + i)) :
    get32 b o = get32 c p := by
  rw [get32_eq_leNat, get32_eq_leNat, leNat_congr h]

@[simp] theorem get16_set16 (b : Bytes) (o : ℕ) (v : UInt16) : get16 (set16 b o v) o = v := by
  rw [get16_eq_leNat, set16, leNat_blit, Nat.mod_eq_of_lt (by simpa using v.toNat_lt)]
  exact UInt16.ofNat_toNat

@[simp] theorem get32_set32 (b : Bytes) (o : ℕ) (v : UInt32) : get32 (set32 b o v) o = v := by
  rw [get32_eq_leNat, set32, leNat_blit, Nat.mod_eq_of_lt (by simpa using v.toNat_lt)]
  exact UInt32.ofNat_toNat

theorem get16_blit_of_disjoint {b src : Bytes} {o n p : ℕ} (h : p + 2 ≤ o ∨ o + n ≤ p) :
    get16 (blit b o n src) p = get16 b p := by
  rw [get16_eq_leNat, get16_eq_leNat, leNat_blit_of_disjoint h]

theorem get32_blit_of_disjoint {b src : Bytes} {o n p : ℕ} (h : p + 4 ≤ o ∨ o + n ≤ p) :
    get32 (blit b o n src) p = get32 b p := by
  rw [get32_eq_leNat, get32_eq_leNat, leNat_blit_of_disjoint h]

end Octopos
