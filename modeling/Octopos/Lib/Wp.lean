import Mathlib.Tactic

/-!
# Programs over a state that may stop

A kernel function is a program `Prog ε σ α`: it returns a value and a new state, or stops the
machine for a reason `ε` (a panic, a power failure). `wp m Q E s` says that `m`, started in `s`,
returns in a state satisfying `Q` or stops for a reason satisfying `E`. Loops need an invariant
(`wp_forM_range`).
-/

namespace Octopos

/-- Programs with state `σ` that may stop for a reason `ε`. -/
abbrev Prog (ε σ : Type) := StateT σ (Except ε)

section Wp

variable {ε σ α β : Type} {m : Prog ε σ α}

/-- `m` returns with `Q` or stops with `E`. -/
def wp (m : Prog ε σ α) (Q : α → σ → Prop) (E : ε → Prop) (s : σ) : Prop :=
  match m.run s with
  | .ok (a, s') => Q a s'
  | .error e => E e

variable {Q Q' : α → σ → Prop} {E E' : ε → Prop} {s : σ}

theorem wp_pure {a : α} : wp (pure a) Q E s ↔ Q a s := Iff.rfl

theorem wp_bind {f : α → Prog ε σ β} {Q : β → σ → Prop} :
    wp (m >>= f) Q E s ↔ wp m (fun a s' => wp (f a) Q E s') E s := by
  unfold wp
  rw [StateT.run_bind]
  rcases m.run s with e | ⟨a, s'⟩ <;> rfl

theorem wp_get {Q : σ → σ → Prop} : wp (get : Prog ε σ σ) Q E s ↔ Q s s := Iff.rfl

theorem wp_set {t : σ} {Q : PUnit → σ → Prop} : wp (set t : Prog ε σ PUnit) Q E s ↔ Q ⟨⟩ t :=
  Iff.rfl

theorem wp_modify {f : σ → σ} {Q : PUnit → σ → Prop} :
    wp (modify f : Prog ε σ PUnit) Q E s ↔ Q ⟨⟩ (f s) := Iff.rfl

theorem wp_throw {e : ε} : wp (throw e : Prog ε σ α) Q E s ↔ E e := Iff.rfl

theorem wp_mono (h : wp m Q E s) (hQ : ∀ a s', Q a s' → Q' a s') (hE : ∀ e, E e → E' e) :
    wp m Q' E' s := by
  unfold wp at h ⊢
  rcases hm : m.run s with e | ⟨a, s'⟩ <;> rw [hm] at h
  · exact hE e h
  · exact hQ a s' h

theorem wp_and (h : wp m Q E s) (h' : wp m Q' E' s) :
    wp m (fun a s' => Q a s' ∧ Q' a s') (fun e => E e ∧ E' e) s := by
  unfold wp at h h' ⊢
  rcases hm : m.run s with e | ⟨a, s'⟩ <;> rw [hm] at h h'
  · exact ⟨h, h'⟩
  · exact ⟨h, h'⟩

theorem wp_both {R : α → σ → Prop} {F : ε → Prop} (h : wp m Q E s) (h' : wp m Q' E' s)
    (hR : ∀ a s', Q a s' → Q' a s' → R a s') (hF : ∀ e, E e → E' e → F e) : wp m R F s :=
  wp_mono (wp_and h h') (fun a s' ha => hR a s' ha.1 ha.2) fun e he => hF e he.1 he.2

/-- A rule for a program, in which what another one established can be used. -/
theorem wp_also {D : ε → Prop} (h' : wp m Q' D s) (h : wp m (fun a s' => Q' a s' → Q a s') E s) :
    wp m Q E s :=
  wp_both h h' (fun _ _ hQ hQ' => hQ hQ') fun _ he _ => he

theorem wp_ite {c : Prop} [Decidable c] {m' : Prog ε σ α} (h : c → wp m Q E s)
    (h' : ¬c → wp m' Q E s) : wp (if c then m else m') Q E s := by
  split_ifs with hc
  · exact h hc
  · exact h' hc

theorem wp_true : wp m (fun _ _ => True) (fun _ => True) s := by
  unfold wp
  split <;> trivial

theorem wp_ok (h : wp m Q E s) {a : α} {s' : σ} (hm : m.run s = .ok (a, s')) : Q a s' := by
  unfold wp at h
  rwa [hm] at h

theorem wp_error (h : wp m Q E s) {e : ε} (hm : m.run s = .error e) : E e := by
  unfold wp at h
  rwa [hm] at h

theorem wp_of_run {a : α} {s' : σ} (hm : m.run s = .ok (a, s')) (h : Q a s') : wp m Q E s := by
  unfold wp
  rw [hm]
  exact h

theorem wp_total (h : wp m Q (fun _ => False) s) : ∃ a s', m.run s = .ok (a, s') ∧ Q a s' := by
  unfold wp at h
  rcases hm : m.run s with e | ⟨a, s'⟩ <;> rw [hm] at h
  · exact h.elim
  · exact ⟨a, s', rfl, h⟩

/-- A loop over a list keeps an invariant indexed by the part of the list that is done. -/
theorem wp_forM {γ : Type} {f : γ → Prog ε σ PUnit} {I : List γ → σ → Prop} {l : List γ}
    (hstep : ∀ pre a post, l = pre ++ a :: post → ∀ s, I pre s →
      wp (f a) (fun _ s' => I (pre ++ [a]) s') E s) (h0 : I [] s) :
    wp (l.forM f) (fun _ s' => I l s') E s := by
  suffices h : ∀ post pre, l = pre ++ post → ∀ s, I pre s →
      wp (post.forM f) (fun _ s' => I l s') E s from h l [] rfl s h0
  intro post
  induction post with
  | nil =>
    intro pre hl s hI
    rw [List.append_nil] at hl
    exact hl ▸ hI
  | cons a post ih =>
    intro pre hl s hI
    refine wp_bind.mpr ?_
    refine wp_mono (hstep pre a post hl s hI) (fun _ s' hs' => ?_) fun _ h => h
    exact ih (pre ++ [a]) (by simp [hl]) s' hs'

theorem wp_forM_range {f : ℕ → Prog ε σ PUnit} {I : ℕ → σ → Prop} {n : ℕ}
    (hstep : ∀ i < n, ∀ s, I i s → wp (f i) (fun _ s' => I (i + 1) s') E s) (h0 : I 0 s) :
    wp ((List.range n).forM f) (fun _ s' => I n s') E s := by
  have h : wp ((List.range n).forM f) (fun _ s' => I (List.range n).length s') E s := by
    refine wp_forM (I := fun l s => I l.length s) ?_ h0
    intro pre a post hl s hI
    have ha : pre.length = a := by
      have hlen : pre.length < (List.range n).length := by simp [hl]
      have hget : (List.range n)[pre.length]? = some a := by simp [hl]
      rw [List.getElem?_eq_getElem hlen, List.getElem_range] at hget
      exact Option.some.inj hget
    have han : a < n := by
      have : a ∈ List.range n := by simp [hl]
      simpa using this
    rw [List.length_append, List.length_singleton, ha]
    exact hstep a han s (ha ▸ hI)
  simpa using h

/-- Run a program on a part of a larger state. -/
def zoom {τ ε' : Type} (part : τ → σ) (put : τ → σ → τ) (wrap : ε → ε') (m : Prog ε σ α) :
    Prog ε' τ α := fun t =>
  match m.run (part t) with
  | .ok (a, s) => .ok (a, put t s)
  | .error e => .error (wrap e)

theorem wp_zoom {τ ε' : Type} {part : τ → σ} {put : τ → σ → τ} {wrap : ε → ε'} {t : τ}
    {Q : α → τ → Prop} {E : ε' → Prop}
    (h : wp m (fun a s => Q a (put t s)) (fun e => E (wrap e)) (part t)) :
    wp (zoom part put wrap m) Q E t := by
  unfold wp at h ⊢
  unfold zoom StateT.run at *
  dsimp only
  rcases hm : m (part t) with e | ⟨a, s⟩ <;> rw [hm] at h
  · exact h
  · exact h

/-- A condition on the result of a fallible function, by its two cases. -/
abbrev onResult (P : α → σ → Prop) (R : ε → σ → Prop) : Except ε α → σ → Prop
  | .ok a, s => P a s
  | .error e, s => R e s

section Tests

variable {ε' : Type} {r : Except ε (Except ε' α × σ)}

/-- The run returns `Ok`, with a result and a state that pass the test. -/
def returnsOk (r : Except ε (Except ε' α × σ)) (p : α → σ → Bool) : Bool :=
  match r with
  | .ok (.ok a, s) => p a s
  | _ => false

theorem exists_of_returnsOk {p : α → σ → Bool} (h : returnsOk r p = true) :
    ∃ a s, r = .ok (.ok a, s) ∧ p a s = true := by
  rcases r with e | ⟨e | a, s⟩
  · cases h
  · cases h
  · exact ⟨a, s, rfl, h⟩

/-- The run returns this error. -/
def returnsErr [DecidableEq ε'] (e : ε') (r : Except ε (Except ε' α × σ)) : Bool :=
  match r with
  | .ok (.error e', _) => e' = e
  | _ => false

theorem exists_of_returnsErr [DecidableEq ε'] {e : ε'} (h : returnsErr e r = true) :
    ∃ s, r = .ok (.error e, s) := by
  rcases r with e' | ⟨e' | a, s⟩
  · cases h
  · exact ⟨s, by rw [of_decide_eq_true h]⟩
  · cases h

/-- The run stops for this reason. -/
def stopsWith [DecidableEq ε] (e : ε) (r : Except ε α) : Bool :=
  match r with
  | .error e' => e' = e
  | .ok _ => false

theorem eq_of_stopsWith [DecidableEq ε] {e : ε} {r : Except ε α} (h : stopsWith e r = true) :
    r = .error e := by
  rcases r with e' | a
  · rw [of_decide_eq_true h]
  · cases h

end Tests

end Wp

end Octopos
