import Octopos.Lib.Bytes
import Mathlib.Data.Fintype.Card
import Mathlib.Data.Multiset.Count

/-!
# Counting the uses of a resource

A table maps its entries to resources or to nothing. `uses t a` is the number of entries that hold
the resource `a`; filling an empty entry (`uses_fill`) and clearing an entry (`uses_clear`) change
it by one.
-/

namespace Octopos

section Uses

variable {ι α : Type*} [Fintype ι] [DecidableEq ι] [DecidableEq α] {t : ι → Option α} {i : ι} {a b : α}

/-- How many entries of `t` hold `a`. -/
def uses (t : ι → Option α) (a : α) : ℕ := (Finset.univ.filter fun i => t i = some a).card

omit [DecidableEq ι] in
theorem uses_none : uses (fun _ : ι => (none : Option α)) a = 0 := by
  simp [uses]

omit [DecidableEq ι] in
theorem uses_pos (h : t i = some a) : 0 < uses t a :=
  Finset.card_pos.2 ⟨i, Finset.mem_filter.2 ⟨Finset.mem_univ i, h⟩⟩

theorem uses_fill (h : t i = none) :
    uses (upd t i (some a)) b = uses t b + if b = a then 1 else 0 := by
  unfold uses
  by_cases hb : b = a
  · subst hb
    have hset : (Finset.univ.filter fun j => upd t i (some b) j = some b) =
        insert i (Finset.univ.filter fun j => t j = some b) := by
      ext j
      by_cases hj : j = i
      · subst hj
        simp
      · simp [upd_of_ne hj, hj]
    rw [if_pos rfl, hset, Finset.card_insert_of_notMem (by simp [h])]
  · have hset : (Finset.univ.filter fun j => upd t i (some a) j = some b) =
        Finset.univ.filter fun j => t j = some b := by
      ext j
      by_cases hj : j = i
      · subst hj
        simp [h, Ne.symm hb]
      · simp [upd_of_ne hj]
    rw [if_neg hb, hset, add_zero]

theorem uses_clear (h : t i = some a) :
    uses t b = uses (upd t i none) b + if b = a then 1 else 0 := by
  have hfill := uses_fill (t := upd t i none) (i := i) (a := a) (b := b) (upd_self ..)
  rwa [upd_idem, ← h, upd_eq_self] at hfill

section

omit [DecidableEq ι]

theorem uses_congr {t' : ι → Option α} (h : ∀ i, t' i = some a ↔ t i = some a) :
    uses t' a = uses t a := by
  unfold uses
  simp only [h]

theorem uses_comp (e : ι ≃ ι) : uses (fun i => t (e i)) a = uses t a :=
  Finset.card_equiv e fun i => by simp

theorem exists_of_uses_pos (h : 0 < uses t a) : ∃ i, t i = some a := by
  obtain ⟨i, hi⟩ := Finset.card_pos.1 h
  exact ⟨i, (Finset.mem_filter.1 hi).2⟩

theorem eq_of_uses_one {j : ι} (h : uses t a = 1) (hi : t i = some a) (hj : t j = some a) : i = j :=
  Finset.card_le_one.1 h.le i (Finset.mem_filter.2 ⟨Finset.mem_univ i, hi⟩) j
    (Finset.mem_filter.2 ⟨Finset.mem_univ j, hj⟩)

/-- A resource that each row uses at most once has at most one use per row. -/
theorem uses_le_card {κ : Type*} [Fintype κ] {t : ι × κ → Option α}
    (h : ∀ i k l, t (i, k) = some a → t (i, l) = some a → k = l) : uses t a ≤ Fintype.card ι := by
  refine Finset.card_le_card_of_injOn Prod.fst (fun _ _ => Finset.mem_univ _) ?_
  rintro ⟨i, k⟩ hk ⟨j, l⟩ hl rfl
  rw [h i k l (Finset.mem_filter.1 hk).2 (Finset.mem_filter.1 hl).2]

end

section Row

variable {κ : Type*} [Fintype κ] [DecidableEq κ] {t t' : ι × κ → Option α}

/-- The row `i` of a table, in which the resource was used once, is cleared. -/
theorem uses_clearRow (hrow : ∀ k, t' (i, k) = none)
    (hother : ∀ j k, j ≠ i → t' (j, k) = t (j, k)) {k : κ} (hk : t (i, k) = some a)
    (honce : ∀ l, t (i, l) = some a → l = k) : uses t a = uses t' a + 1 := by
  rw [uses_clear hk, if_pos rfl]
  congr 1
  refine uses_congr ?_
  rintro ⟨j, l⟩
  rcases eq_or_ne j i with rfl | hj
  · rw [hrow, upd_apply]
    split_ifs with hl
    · rfl
    · refine ⟨fun hno => ?_, fun hno => (by cases hno)⟩
      exact absurd (by rw [honce l hno]) hl
  · rw [hother j l hj, upd_of_ne fun heq => hj (Prod.mk.inj heq).1]

omit [DecidableEq ι] [DecidableEq κ] in
/-- The row `i` of a table, in which the resource was not used, is cleared. -/
theorem uses_clearRow_of_unused (hrow : ∀ k, t' (i, k) = none)
    (hother : ∀ j k, j ≠ i → t' (j, k) = t (j, k)) (hno : ∀ k, t (i, k) ≠ some a) :
    uses t' a = uses t a := by
  refine uses_congr ?_
  rintro ⟨j, l⟩
  rcases eq_or_ne j i with rfl | hj
  · rw [hrow]
    exact ⟨fun h => (by cases h), fun h => absurd h (hno l)⟩
  · rw [hother j l hj]

end Row

omit [DecidableEq ι] in
theorem uses_of_injective {κ : Type*} [Fintype κ] {t' : κ → Option α} {e : κ → ι}
    (he : Function.Injective e) (h : ∀ k, t' k = t (e k))
    (hout : ∀ i, t i = some a → ∃ k, e k = i) : uses t' a = uses t a := by
  refine Finset.card_bij (fun k _ => e k) (fun k hk => ?_) (fun k _ l _ heq => he heq) fun i hi => ?_
  · rw [Finset.mem_filter] at hk ⊢
    exact ⟨Finset.mem_univ _, (h k).symm.trans hk.2⟩
  · rw [Finset.mem_filter] at hi
    obtain ⟨k, rfl⟩ := hout i hi.2
    exact ⟨k, Finset.mem_filter.2 ⟨Finset.mem_univ k, (h k).trans hi.2⟩, rfl⟩

end Uses

end Octopos
