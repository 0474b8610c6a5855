import Mathlib.Tactic

/-!
# Strings addressed by bytes

A string is the list of its characters. Its slices are taken between byte offsets and exist only if
both offsets are character boundaries.
-/

namespace Octopos

/-- A slice that does not exist: it ends behind the end, or not at a character boundary. -/
inductive SlicePanic
  | outOfRange
  | notBoundary
  deriving DecidableEq, Repr

end Octopos

namespace Octopos.Str

def byteSize (l : List Char) : ℕ := (l.map Char.utf8Size).sum

@[simp] theorem byteSize_cons (c : Char) (l : List Char) :
    byteSize (c :: l) = c.utf8Size + byteSize l := rfl

@[simp] theorem byteSize_append (l l' : List Char) :
    byteSize (l ++ l') = byteSize l + byteSize l' := by
  simp [byteSize]

def splitAt : List Char → ℕ → Option (List Char × List Char)
  | l, 0 => some ([], l)
  | [], _ + 1 => none
  | c :: l, n + 1 =>
    if c.utf8Size ≤ n + 1 then (splitAt l (n + 1 - c.utf8Size)).map fun p => (c :: p.1, p.2) else none

def slice (l : List Char) (start stop : ℕ) : Option (List Char) :=
  if start ≤ stop then
    (splitAt l start).bind fun p => (splitAt p.2 (stop - start)).map Prod.fst
  else none

theorem splitAt_append (l l' : List Char) : splitAt (l ++ l') (byteSize l) = some (l, l') := by
  induction l with
  | nil => cases l' <;> rfl
  | cons c l ih =>
    have hpos : 0 < c.utf8Size := c.utf8Size_pos
    obtain ⟨n, hn⟩ : ∃ n, byteSize (c :: l) = n + 1 :=
      ⟨byteSize (c :: l) - 1, by rw [byteSize_cons]; omega⟩
    rw [hn, List.cons_append, splitAt, ← hn, byteSize_cons, if_pos (by omega), Nat.add_sub_cancel_left, ih]
    rfl

theorem slice_append (l m r : List Char) :
    slice (l ++ m ++ r) (byteSize l) (byteSize (l ++ m)) = some m := by
  rw [slice, byteSize_append, if_pos (by omega), Nat.add_sub_cancel_left, List.append_assoc, splitAt_append]
  simp only [Option.bind_some]
  rw [splitAt_append]
  rfl

end Octopos.Str
