import Octopos.Fs.Syscall

/-!
# Strings from user memory

The user library hands a path to the kernel as a zero-terminated string, and `fetch_string` reads it
byte by byte. It pushes each byte as a character, so a byte from 128 on becomes two bytes, and it
stops without an error when it has read `max` bytes and met no terminator. Apart from these two
cases the kernel sees the string that is in user memory (`fetchString_iff`).
-/

namespace Octopos

namespace UserPath

/-- `Path::new` of the user library. -/
def new (s : Name) : Option Name := if MAXPATH ≤ s.length ∨ 0 ∈ s then none else some s

/-- `Path::as_cpath`: a buffer of `MAXPATH` bytes. -/
def asCpath (s : Name) : Bytes := fun i => s.getD i 0

/-- `validate_path` -/
def validatePath (s : Name) : Option Bytes := (new s).map asCpath

end UserPath

/-- User memory from byte `i` on starts with the bytes `t`, none of which is zero. -/
def StartsWith (mem : ℕ → Option UInt8) (i : ℕ) (t : Name) : Prop :=
  ∀ j (h : j < t.length), mem (i + j) = some t[j] ∧ t[j] ≠ 0

/-- User memory holds the string `t`, whose terminator is among the first `max` bytes. -/
def IsString (mem : ℕ → Option UInt8) (max : ℕ) (t : Name) : Prop :=
  t.length < max ∧ StartsWith mem 0 t ∧ mem t.length = some 0

section Fetch

variable {mem : ℕ → Option UInt8} {max i : ℕ} {t u : Name}

theorem StartsWith.cons {b : UInt8} (h : StartsWith mem i (b :: t)) :
    mem i = some b ∧ b ≠ 0 ∧ StartsWith mem (i + 1) t := by
  have h0 := h 0 (by simp)
  refine ⟨h0.1, h0.2, fun j hj => ?_⟩
  have := h (j + 1) (by simpa using hj)
  rwa [← add_assoc, add_right_comm] at this

theorem fetchIn_startsWith (h : StartsWith mem i t) (n : ℕ) (result : Name) :
    fetchIn mem (t.length + n) i result =
      fetchIn mem n (i + t.length) (result ++ t.flatMap utf8) := by
  induction t generalizing i result with
  | nil => simp
  | cons b t ih =>
    obtain ⟨hb, h0, ht⟩ := h.cons
    have hlen : (b :: t).length + n = t.length + n + 1 := by
      rw [List.length_cons]
      omega
    rw [hlen, fetchIn, hb]
    dsimp only
    rw [if_neg h0, ih ht, List.flatMap_cons, List.append_assoc, List.length_cons, add_assoc, add_comm 1]

/-- The bytes in front of the terminator, of the first byte that cannot be read, or of byte
`max`. -/
theorem exists_startsWith (mem : ℕ → Option UInt8) (max : ℕ) : ∃ t : Name, t.length ≤ max ∧
    StartsWith mem 0 t ∧ (t.length < max → mem t.length = none ∨ mem t.length = some 0) := by
  induction max with
  | zero => exact ⟨[], le_rfl, fun j hj => absurd hj (Nat.not_lt_zero j), fun h => absurd h (lt_irrefl 0)⟩
  | succ max ih =>
    obtain ⟨t, hlen, ht, hend⟩ := ih
    rcases hlen.lt_or_eq with hlt | rfl
    · exact ⟨t, by omega, ht, fun _ => hend hlt⟩
    -- the string of length `max` may go on
    · rcases hm : mem t.length with _ | b
      · exact ⟨t, by omega, ht, fun _ => Or.inl hm⟩
      · by_cases hb : b = 0
        · exact ⟨t, by omega, ht, fun _ => Or.inr (by rw [hm, hb])⟩
        · refine ⟨t ++ [b], by simp, fun j hj => ?_, fun h => by simp at h⟩
          by_cases hjt : j < t.length
          · rw [List.getElem_append_left hjt]
            exact ht j hjt
          · obtain rfl : j = t.length := by
              rw [List.length_append, List.length_singleton] at hj
              omega
            simpa using ⟨hm, hb⟩

theorem IsString.eq_of_startsWith (hu : IsString mem max u) (ht : StartsWith mem 0 t)
    (hlen : t.length ≤ max) (hend : t.length < max → mem t.length = none ∨ mem t.length = some 0) :
    u = t := by
  obtain ⟨hmax, hu, hzero⟩ := hu
  have hle : t.length ≤ u.length := by
    by_contra hlt
    have := ht u.length (by omega)
    rw [zero_add, hzero] at this
    exact this.2 (Option.some.inj this.1).symm
  have hge : u.length ≤ t.length := by
    by_contra hlt
    have := hu t.length (by omega)
    rw [zero_add] at this
    rcases hend (by omega) with h | h <;> rw [h] at this
    · cases this.1
    · exact this.2 (Option.some.inj this.1).symm
  refine List.ext_getElem (le_antisymm hge hle) fun j hj hj' => ?_
  have h1 := (hu j hj).1
  rw [(ht j hj').1] at h1
  exact (Option.some.inj h1).symm

theorem utf8_of_lt {b : UInt8} (hb : b < 128) : utf8 b = [b] := if_pos hb

theorem length_utf8_of_le {b : UInt8} (hb : ¬b < 128) : (utf8 b).length = 2 := by
  rw [utf8, if_neg hb]
  rfl

theorem length_le_flatMap_utf8 (t : Name) : t.length ≤ (t.flatMap utf8).length := by
  induction t with
  | nil => simp
  | cons b t ih =>
    rw [List.flatMap_cons, List.length_append, List.length_cons]
    by_cases hb : b < 128
    · rw [utf8_of_lt hb, List.length_singleton]
      omega
    · rw [length_utf8_of_le hb]
      omega

theorem flatMap_utf8_eq_iff (t : Name) : t.flatMap utf8 = t ↔ ∀ b ∈ t, b < 128 := by
  induction t with
  | nil => simp
  | cons b t ih =>
    rw [List.flatMap_cons, List.forall_mem_cons, ← ih]
    by_cases hb : b < 128
    · rw [utf8_of_lt hb]
      simp [hb]
    · refine iff_of_false (fun h => ?_) fun h => hb h.1
      have hlen := congrArg List.length h
      have := length_le_flatMap_utf8 t
      rw [List.length_append, List.length_cons, length_utf8_of_le hb] at hlen
      omega

theorem IsString.fetchIn (h : IsString mem max t) :
    fetchIn mem max 0 [] = .ok (t.flatMap utf8) := by
  obtain ⟨hmax, ht, hzero⟩ := h
  obtain ⟨n, rfl⟩ : ∃ n, max = t.length + (n + 1) := ⟨max - t.length - 1, by omega⟩
  rw [fetchIn_startsWith ht, zero_add, List.nil_append, Octopos.fetchIn, hzero]
  rfl

theorem UserPath.isString {s : Name} {buf : Bytes} (h : UserPath.validatePath s = some buf)
    (hmem : ∀ i < MAXPATH, mem i = some (buf i)) : IsString mem MAXPATH s := by
  unfold UserPath.validatePath UserPath.new at h
  split_ifs at h with hbad
  · cases h
  · rw [not_or, not_le] at hbad
    cases h
    refine ⟨hbad.1, fun j hj => ⟨?_, fun h0 => hbad.2 (h0 ▸ List.getElem_mem hj)⟩, ?_⟩
    · rw [zero_add, hmem j (by omega), UserPath.asCpath, List.getD_eq_getElem _ _ hj]
    · rw [hmem _ hbad.1, UserPath.asCpath, List.getD_eq_default _ _ le_rfl]

end Fetch

/-- `fetch_string` returns the strings of user memory, and no others, if and only if it meets the
terminator or a byte that it cannot read before byte `max`, and no byte in front of the terminator
is 128 or more. A path that the user library accepts is seen by the kernel if and only if no byte of
it is 128 or more. -/
theorem fetchString_iff (mem : ℕ → Option UInt8) (max : ℕ) :
    ((∀ r, fetchIn mem max 0 [] = .ok r ↔ IsString mem max r) ↔
      ¬(∀ i < max, ∃ b, mem i = some b ∧ b ≠ 0) ∧ ∀ t, IsString mem max t → ∀ b ∈ t, b < 128) ∧
    ∀ s buf, UserPath.validatePath s = some buf → (∀ i < MAXPATH, mem i = some (buf i)) →
      (fetchPath mem = .ok s ↔ ∀ b ∈ s, b < 128) := by
  refine ⟨?_, fun s buf hs hmem => ?_⟩
  · obtain ⟨t, hlen, ht, hend⟩ := exists_startsWith mem max
    have hunique (u : Name) (hu : IsString mem max u) : u = t := hu.eq_of_startsWith ht hlen hend
    have hall : (∀ i < max, ∃ b, mem i = some b ∧ b ≠ 0) ↔ t.length = max := by
      refine ⟨fun hall => hlen.antisymm (not_lt.1 fun hlt => ?_), fun heq i hi => ?_⟩
      · obtain ⟨b, hb, h0⟩ := hall _ hlt
        rcases hend hlt with h | h <;> rw [h] at hb
        · cases hb
        · exact h0 (Option.some.inj hb).symm
      · have := ht i (by omega)
        rw [zero_add] at this
        exact ⟨_, this⟩
    rw [hall]
    rcases hlen.lt_or_eq with hlt | heq
    · rcases hend hlt with hnone | hzero
      · -- a byte that cannot be read
        have hfetch : fetchIn mem max 0 [] = .error .badAddress := by
          obtain ⟨n, rfl⟩ : ∃ n, max = t.length + (n + 1) := ⟨max - t.length - 1, by omega⟩
          rw [fetchIn_startsWith ht, zero_add, fetchIn, hnone]
        have hno (u : Name) : ¬IsString mem max u := fun hu => by
          have := hu.2.2
          rw [hunique u hu, hnone] at this
          cases this
        refine iff_of_true (fun r => ?_) ⟨hlt.ne, fun u hu => absurd hu (hno u)⟩
        rw [hfetch]
        exact iff_of_false (fun h => by cases h) (hno r)
      · have hstring : IsString mem max t := ⟨hlt, ht, hzero⟩
        have hfetch := hstring.fetchIn
        constructor
        · intro hP
          refine ⟨hlt.ne, fun u hu => ?_⟩
          rw [hunique u hu, ← flatMap_utf8_eq_iff]
          exact hunique _ ((hP _).1 hfetch)
        · rintro ⟨-, hascii⟩ r
          rw [hfetch, (flatMap_utf8_eq_iff t).2 (hascii t hstring)]
          constructor
          · rintro ⟨⟩
            exact hstring
          · intro hr
            rw [hunique r hr]
    · -- the loop ends without a terminator
      refine iff_of_false (fun hP => ?_) fun h => h.1 heq
      have hfetch : fetchIn mem max 0 [] = .ok (t.flatMap utf8) := by
        have := fetchIn_startsWith ht 0 []
        rwa [add_zero, heq] at this
      have hr := (hP _).1 hfetch
      have := hr.1
      rw [hunique _ hr] at this
      omega
  · have hstring := UserPath.isString hs hmem
    rw [fetchPath, hstring.fetchIn, ← flatMap_utf8_eq_iff]
    exact ⟨fun h => Except.ok.inj h, fun h => congrArg Except.ok h⟩

/-- The path `/é` has three bytes, of which the kernel makes five, and a path of `MAXPATH` bytes
without a terminator is accepted. -/
theorem fetchString_differs :
    (∃ buf, UserPath.validatePath [47, 195, 169] = some buf ∧
      fetchPath (fun i => some (buf i)) = .ok [47, 195, 131, 194, 169]) ∧
    fetchPath (fun _ => some 97) = .ok (List.replicate MAXPATH 97) ∧
    ∀ t, ¬IsString (fun _ => some 97) MAXPATH t := by
  refine ⟨⟨_, rfl, by decide⟩, by decide +kernel, fun t ht => ?_⟩
  exact absurd (Option.some.inj ht.2.2 : (97 : UInt8) = 0) (by decide)

/-- A path of the user library that the kernel sees unchanged, `/bin/sh`. -/
theorem fetchString_sh :
    fetchPath (fun i => some (UserPath.asCpath [47, 98, 105, 110, 47, 115, 104] i)) =
      .ok [47, 98, 105, 110, 47, 115, 104] :=
  ((fetchString_iff _ MAXPATH).2 _ (UserPath.asCpath [47, 98, 105, 110, 47, 115, 104]) rfl fun _ _ => rfl).2
    (by decide +kernel)

end Octopos
