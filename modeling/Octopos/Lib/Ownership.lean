import Octopos.Lib.Bytes
import Mathlib.Data.Finset.Card

/-!
# Ownership of resources by places

Resources are numbers, and a place holds a resource or nothing (`0`). `Owned` says that the used
resources of a range are exactly the ones that places hold, each held once. Filling an empty place
with a free resource (`Owned.insert`) and emptying places whose resources have been freed
(`Freed`, `Owned.remove`) keep it.
-/

namespace Octopos

section Owned

variable {ι : Type*} {place : ι → ℕ} {inUse : ℕ → Bool} {lo hi : ℕ} {x : ι} {inUse' : ℕ → Bool} {S : ι → Prop}

/-- The resources in use in `[lo, hi)` are those that places hold, and none is held twice. -/
structure Owned (place : ι → ℕ) (inUse : ℕ → Bool) (lo hi : ℕ) : Prop where
  pos : 0 < lo
  range : ∀ x, place x ≠ 0 → lo ≤ place x ∧ place x < hi
  used : ∀ x, place x ≠ 0 → inUse (place x) = true
  inj : ∀ x y, place x ≠ 0 → place x = place y → x = y
  listed : ∀ b, lo ≤ b → b < hi → inUse b = true → ∃ x, place x = b

theorem Owned.ne_of_free (h : Owned place inUse lo hi) {b : ℕ} (hb : inUse b = false)
    (hx : place x ≠ 0) : place x ≠ b := by
  rintro rfl
  rw [h.used x hx] at hb
  cases hb

theorem Owned.insert [DecidableEq ι] (h : Owned place inUse lo hi) (hx : place x = 0) {b : ℕ}
    (hlo : lo ≤ b) (hhi : b < hi) (hb : inUse b = false) :
    Owned (upd place x b) (upd inUse b true) lo hi where
  pos := h.pos
  range y hy := by
    by_cases hyx : y = x
    · subst hyx; simpa using ⟨hlo, hhi⟩
    · rw [upd_of_ne hyx] at hy ⊢
      exact h.range y hy
  used y hy := by
    by_cases hyx : y = x
    · subst hyx; simp
    · rw [upd_of_ne hyx] at hy ⊢
      rw [upd_of_ne (h.ne_of_free hb hy), h.used y hy]
  inj y z hy hyz := by
    by_cases hyx : y = x <;> by_cases hzx : z = x
    · rw [hyx, hzx]
    · subst hyx
      rw [upd_self] at hy hyz
      rw [upd_of_ne hzx] at hyz
      exact absurd hyz.symm (h.ne_of_free hb (hyz ▸ hy))
    · subst hzx
      rw [upd_of_ne hyx] at hy hyz
      rw [upd_self] at hyz
      exact absurd hyz (h.ne_of_free hb hy)
    · rw [upd_of_ne hyx] at hy hyz
      rw [upd_of_ne hzx] at hyz
      exact h.inj y z hy hyz
  listed c hlo hhi hc := by
    by_cases hcb : c = b
    · exact ⟨x, by rw [upd_self, hcb]⟩
    · rw [upd_of_ne hcb] at hc
      obtain ⟨y, hy⟩ := h.listed c hlo hhi hc
      have hyx : y ≠ x := by
        rintro rfl
        have := h.pos
        omega
      exact ⟨y, by rw [upd_of_ne hyx, hy]⟩

/-- Of the resources in use, those held by the places of a set have been freed. -/
def Freed (place : ι → ℕ) (inUse inUse' : ℕ → Bool) (S : ι → Prop) : Prop :=
  ∀ b, inUse' b = true ↔ inUse b = true ∧ ∀ x, S x → place x ≠ 0 → place x ≠ b

theorem Freed.refl (place : ι → ℕ) (inUse : ℕ → Bool) : Freed place inUse inUse fun _ => False :=
  fun _ => by simp

theorem Freed.congr {S' : ι → Prop} (h : Freed place inUse inUse' S)
    (hS : ∀ x, place x ≠ 0 → (S x ↔ S' x)) : Freed place inUse inUse' S' := fun b => by
  rw [h b]
  refine and_congr_right fun _ => forall_congr' fun x => ?_
  by_cases hx : place x = 0
  · simp [hx]
  · rw [hS x hx]

theorem Freed.used (h : Owned place inUse lo hi) (hS : Freed place inUse inUse' S)
    (hx : place x ≠ 0) (hxS : ¬S x) : inUse' (place x) = true := by
  refine (hS _).2 ⟨h.used x hx, fun y hy hy0 hyx => hxS ?_⟩
  rwa [← h.inj y x hy0 hyx]

theorem Freed.insert (hS : Freed place inUse inUse' S) (hx : place x ≠ 0) :
    Freed place inUse (upd inUse' (place x) false) fun y => S y ∨ y = x := by
  intro b
  rw [upd_apply]
  split_ifs with hb
  · refine iff_of_false (by simp) fun h => h.2 x (Or.inr rfl) hx hb.symm
  · rw [hS b]
    refine and_congr_right fun _ => ⟨?_, fun h y hy => h y (Or.inl hy)⟩
    rintro h y (hy | rfl) hy0
    · exact h y hy hy0
    · exact fun e => hb e.symm

theorem Owned.remove (h : Owned place inUse lo hi) {place' : ι → ℕ}
    (hempty : ∀ x, S x → place' x = 0) (hkeep : ∀ x, ¬S x → place' x = place x)
    (hfree : Freed place inUse inUse' S) : Owned place' inUse' lo hi := by
  have hout {x : ι} (hx : place' x ≠ 0) : ¬S x := fun hS => hx (hempty x hS)
  refine ⟨h.pos, fun x hx => ?_, fun x hx => ?_, fun x y hx hxy => ?_, fun b hlo hhi hb => ?_⟩
  · have hS := hout hx
    rw [hkeep x hS] at hx ⊢
    exact h.range x hx
  · have hS := hout hx
    rw [hkeep x hS] at hx ⊢
    exact hfree.used h hx hS
  · have hS := hout hx
    have hS' : ¬S y := hout (hxy ▸ hx)
    rw [hkeep x hS] at hx hxy
    rw [hkeep y hS'] at hxy
    exact h.inj x y hx hxy
  · obtain ⟨hb, hnot⟩ := (hfree b).1 hb
    obtain ⟨x, hx⟩ := h.listed b hlo hhi hb
    have hpos := h.pos
    exact ⟨x, by rw [hkeep x fun hS => hnot x hS (by omega) hx, hx]⟩

end Owned

end Octopos
