import Octopos.User.LineProof

/-!
# Walking through the history

The key for the history shows the previous lines one after the other, the most recent one first, as
far as the circular history keeps them; the other key goes back to the line that was edited
before.
-/

namespace Octopos

namespace LineEdit

variable {a : LineEdit}

theorem historyUp_iterate (h : a.offset = 0) (n : ℕ) :
    historyUp^[n] a = if min n a.available = 0 then a else
      { a with
        stash := a.text.line
        offset := min n a.available
        text := .ofLine (a.recent (min n a.available)) } := by
  induction n with
  | zero => rw [Nat.zero_min, if_pos rfl]; rfl
  | succ n ih =>
    rw [Function.iterate_succ_apply', ih]
    by_cases h0 : min n a.available = 0
    · rw [if_pos h0]
      rcases Nat.eq_zero_or_pos a.available with havail | havail
      · rw [if_pos (by omega), historyUp, if_pos (by omega)]
      · obtain rfl : n = 0 := by omega
        rw [if_neg (by omega), historyUp, if_neg (by omega), if_pos h, h]
        rw [show min (0 + 1) a.available = 0 + 1 by omega]
    · rw [if_neg h0, if_neg (by omega), historyUp]
      change (if a.available ≤ min n a.available then _ else _) = _
      by_cases hend : a.available ≤ n
      · rw [if_pos (by omega), show min (n + 1) a.available = min n a.available by omega]
      · rw [if_neg (by omega), if_neg h0, show min (n + 1) a.available = min n a.available + 1 by omega]
        rfl

theorem historyDown_iterate {m : ℕ} (hm : a.offset ≤ m) (h : a.offset ≠ 0) :
    historyDown^[m] a = { a with offset := 0, text := .ofLine a.stash } := by
  induction m generalizing a with
  | zero => omega
  | succ m ih =>
    rw [Function.iterate_succ_apply, historyDown, if_neg h]
    by_cases h1 : a.offset = 1
    · rw [if_pos h1, h1]
      have hstay (b : LineEdit) (hb : b.offset = 0) (n : ℕ) : historyDown^[n] b = b := by
        induction n with
        | zero => rfl
        | succ n ihn => rw [Function.iterate_succ_apply, historyDown, if_pos hb, ihn]
      exact hstay _ rfl m
    · rw [ih (a := { a with offset := a.offset - 1, text := _ }) (by dsimp only; omega) (by dsimp only; omega)]

end LineEdit

namespace LineEditor

/-- The key for the previous line, `n` times. -/
def ups (n : ℕ) : LineM PUnit := (List.range n).forM fun _ => historyUp

/-- The key for the next line, `n` times. -/
def downs (n : ℕ) : LineM PUnit := (List.range n).forM fun _ => historyDown

variable {e : LineEditor} {a : LineEdit} {lines : List (List UInt8)}

theorem ups_wp (h : e.Shows a) (n : ℕ) {E : LinePanic → Prop} :
    wp (ups n) (fun _ e' => e'.Shows (LineEdit.historyUp^[n] a)) E e := by
  refine wp_forM_range (I := fun i (e' : LineEditor) => e'.Shows (LineEdit.historyUp^[i] a)) (fun i _ e' h' => ?_) h
  rw [Function.iterate_succ_apply']
  exact historyUp_wp h' fun _ h'' => h''

theorem downs_wp (h : e.Shows a) (n : ℕ) {E : LinePanic → Prop} :
    wp (downs n) (fun _ e' => e'.Shows (LineEdit.historyDown^[n] a)) E e := by
  refine wp_forM_range (I := fun i (e' : LineEditor) => e'.Shows (LineEdit.historyDown^[i] a)) (fun i _ e' h' => ?_) h
  rw [Function.iterate_succ_apply']
  exact historyDown_wp h' fun _ h'' => h''

end LineEditor

open LineEditor in
/-- A session at offset 0, which may stand in the middle of a call that waits for more keys: the
`j`-th key up shows the `j`-th most recent line, as far as the history goes, and then nothing
changes any more. As many keys down restore the line. -/
theorem history_navigation {e : LineEditor} {lines : List (List UInt8)} (h : Session e lines)
    (h0 : e.historyOffset = 0) :
    (∀ j, ∃ e', (ups j).run e = .ok (⟨⟩, e') ∧
      (0 < j → j ≤ min lines.length HISTORYSIZE →
        bytes e'.buf e'.len = lines.getD (lines.length - j) []) ∧
      (min lines.length HISTORYSIZE ≤ j → historyUp.run e' = .ok (⟨⟩, e'))) ∧
    ∀ k m, k ≤ m → ∃ e', (ups k >>= fun _ => downs m).run e = .ok (⟨⟩, e') ∧
      bytes e'.buf e'.len = bytes e.buf e.len ∧ e'.len = e.len := by
  obtain ⟨a, ha, rfl⟩ := h.shows
  have hoffset : a.offset = 0 := ha.offset.symm.trans h0
  refine ⟨fun j => ?_, fun k m hkm => ?_⟩
  · obtain ⟨_, e', hrun, h'⟩ := wp_total (ups_wp ha j)
    rw [LineEdit.historyUp_iterate hoffset] at h'
    refine ⟨e', hrun, fun hj hle => ?_, fun hend => ?_⟩
    · change j ≤ a.available at hle
      rw [if_neg (by omega), min_eq_left hle] at h'
      rw [h'.line]
      exact List.append_nil _
    · change a.available ≤ j at hend
      have havail : a.available ≤ e'.historyOffset := by
        rw [h'.offset, min_eq_right hend]
        split_ifs with hzero
        · omega
        · exact le_rfl
      have hentries : min e'.historyEntries HISTORYSIZE = a.available := by
        rw [h'.entries]
        split_ifs <;> rfl
      have hstay : wp historyUp (fun _ e'' => e'' = e') (fun _ => False) e' := by
        unfold historyUp
        rw [wp_bind, wp_get]
        dsimp only
        rw [hentries]
        exact wp_ite (fun _ => rfl) fun hmore => absurd havail hmore
      obtain ⟨_, _, hrun', rfl⟩ := wp_total hstay
      exact hrun'
  · have hboth : wp (ups k >>= fun _ => downs m)
        (fun _ e' => bytes e'.buf e'.len = bytes e.buf e.len) (fun _ => False) e := by
      rw [wp_bind]
      refine wp_mono (ups_wp ha k) (fun _ e₁ h₁ => ?_) fun _ he => he
      refine wp_mono (downs_wp h₁ m) (fun _ e₂ h₂ => ?_) fun _ he => he
      rw [h₂.line, ha.line, LineEdit.historyUp_iterate hoffset]
      split_ifs with hzero
      · have hstay : LineEdit.historyDown^[m] a = a := by
          have hfix : a.historyDown = a := by rw [LineEdit.historyDown, if_pos hoffset]
          exact Function.iterate_fixed hfix m
        rw [hstay]
      · rw [LineEdit.historyDown_iterate (by dsimp only; omega) hzero]
        exact List.append_nil _
    obtain ⟨_, e', hrun, hline⟩ := wp_total hboth
    refine ⟨e', hrun, hline, ?_⟩
    have := congrArg List.length hline
    rwa [length_bytes, length_bytes] at this

open LineEditor in
/-- The line `a` was entered and `x` is being edited. -/
theorem history_navigation_x :
    ∃ e, Session e [[97]] ∧ e.historyOffset = 0 ∧ bytes e.buf e.len = [120] ∧
    (∃ e', (ups 1).run e = .ok (⟨⟩, e') ∧ bytes e'.buf e'.len = [97]) ∧
    ∃ e', (ups 3 >>= fun _ => downs 4).run e = .ok (⟨⟩, e') ∧ bytes e'.buf e'.len = [120] := by
  obtain ⟨_, e₁, hrun₁, rfl, hs₁, hl₁⟩ := wp_total (m := readLine [36, 32] [97, 13])
    (Q := fun r e' => r = (.enter, []) ∧ e'.Shows ⟨⟨[97], []⟩, [[97]], 0, []⟩ ∧ bytes e'.buf e'.len = [97])
    (readLine_wp new_shows (by decide) (fun _ _ hs hl => ⟨rfl, hs, hl⟩)
      fun hno => hno (by exact ⟨fun _ _ => rfl, fun _ _ => rfl, trivial⟩))
  obtain ⟨_, e₂, hrun₂, rfl, hs₂, hl₂⟩ := wp_total (m := readLine [36, 32] [120])
    (Q := fun r e' => r = (.waiting, []) ∧ e'.Shows ⟨⟨[120], []⟩, [[97]], 0, []⟩ ∧ bytes e'.buf e'.len = [120])
    (readLine_wp hs₁ (by decide) (fun _ _ hs hl => ⟨rfl, hs, hl⟩)
      fun hno => hno (by exact ⟨fun _ _ => rfl, trivial⟩))
  have hsession₁ : Session e₁ [[97]] := by
    have := Session.call .new (by decide) hrun₁
    rwa [hl₁, if_pos ⟨.inl rfl, by decide⟩] at this
  have hsession₂ : Session e₂ [[97]] := by
    have := Session.call hsession₁ (by decide) hrun₂
    rwa [if_neg (by simp)] at this
  obtain ⟨hups, hdowns⟩ := history_navigation hsession₂ hs₂.offset
  obtain ⟨e₃, hrun₃, hshown, -⟩ := hups 1
  obtain ⟨e₄, hrun₄, hback, -⟩ := hdowns 3 4 (by decide)
  exact ⟨e₂, hsession₂, hs₂.offset, hl₂, ⟨e₃, hrun₃, hshown (by decide) (by decide)⟩, ⟨e₄, hrun₄, hback.trans hl₂⟩⟩

end Octopos
