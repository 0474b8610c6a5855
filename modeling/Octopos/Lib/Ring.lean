import Octopos.Lib.Bytes

/-!
# A ring that keeps a window of a stream

Element `k` of a stream is written to slot `k % N` of a ring. `Keeps N ring r l` says that the ring
holds the stream `l` from position `r` on. Writing the next element keeps the window if it has fewer
than `N` elements (`Keeps.push`), and the window may be shortened from the front (`Keeps.drop`).
-/

namespace Octopos

section Ring

variable {α : Type*} {N : ℕ} [NeZero N] {ring : Fin N → α} {r : ℕ} {l : List α}

/-- The ring holds the elements of the stream `l` from position `r` on. -/
def Keeps (N : ℕ) [NeZero N] (ring : Fin N → α) (r : ℕ) (l : List α) : Prop :=
  ∀ k, r ≤ k → ∀ h : k < l.length, ring (Fin.ofNat N k) = l.get ⟨k, h⟩

theorem Keeps.nil : Keeps N ring r [] := fun _ _ h => absurd h (Nat.not_lt_zero _)

theorem ofNat_ne_of_lt {k m : ℕ} (hkm : k < m) (hm : m < k + N) :
    Fin.ofNat N k ≠ Fin.ofNat N m := by
  intro h
  have hmod : k % N = m % N := congrArg Fin.val h
  have hdvd : N ∣ m - k := (Nat.modEq_iff_dvd' hkm.le).1 hmod
  have := Nat.le_of_dvd (by omega) hdvd
  omega

theorem Keeps.push (h : Keeps N ring r l) (hlen : l.length < r + N) (a : α) :
    Keeps N (upd ring (Fin.ofNat N l.length) a) r (l ++ [a]) := by
  intro k hk hlt
  rw [List.length_append, List.length_singleton] at hlt
  by_cases heq : k = l.length
  · subst heq
    simp
  · have hkl : k < l.length := by omega
    rw [upd_of_ne (ofNat_ne_of_lt hkl (by omega)), h k hk hkl]
    simp [List.getElem_append_left hkl]

theorem Keeps.drop (h : Keeps N ring r l) {q : ℕ} (hq : r ≤ q) : Keeps N ring q l :=
  fun k hk hlt => h k (hq.trans hk) hlt

/-- The elements in the slots of the positions from `i` to `j`. -/
def window (ring : Fin N → α) (i j : ℕ) : List α :=
  (List.range' i (j - i)).map fun k => ring (Fin.ofNat N k)

@[simp]
theorem length_window (i j : ℕ) : (window ring i j).length = j - i := by
  simp [window]

@[simp]
theorem window_self (i : ℕ) : window ring i i = [] := by
  simp [window]

theorem window_succ (i : ℕ) : window ring i (i + 1) = [ring (Fin.ofNat N i)] := by
  simp [window]

theorem Keeps.append_window (h : Keeps N ring r l) (j : ℕ) :
    Keeps N ring r (l ++ window ring l.length j) := by
  intro k hk hlt
  by_cases hkl : k < l.length
  · rw [h k hk hkl]
    simp [List.getElem_append_left hkl]
  · have hle : l.length ≤ k := not_lt.1 hkl
    simp [List.getElem_append_right hle, window, Nat.add_sub_cancel' hle]

theorem Keeps.take_append_window (h : Keeps N ring r l) {j : ℕ} (hr : r ≤ j) (hj : j ≤ l.length) :
    l.take r ++ window ring r j = l.take j := by
  refine List.ext_getElem (by simp; omega) fun k hk hk' => ?_
  have hkj : k < j := by
    rw [List.length_take] at hk'
    omega
  by_cases hkr : k < r
  · rw [List.getElem_append_left (by simp; omega)]
    simp
  · have hwin := h k (not_lt.1 hkr) (by omega)
    rw [List.getElem_append_right (by simp; omega)]
    simp only [window, List.length_take, List.getElem_map, List.getElem_range', List.getElem_take]
    rw [Nat.min_eq_left (hr.trans hj), one_mul, Nat.add_sub_cancel' (not_lt.1 hkr)]
    exact hwin

end Ring

end Octopos
