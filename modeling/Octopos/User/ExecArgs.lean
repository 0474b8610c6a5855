import Octopos.Fs.FetchString
import Octopos.Lib.Str

/-!
# The arguments of `exec` in the user library

`exec` of the user library packs the arguments one behind the other into a buffer on its stack, and
hands the kernel an array of pointers into the buffer. Both have a fixed size: from the seventeenth
on, arguments are dropped, and a slice behind the end of the buffer stops the program. The arguments
arrive if and only if they fit, each with its terminator (`exec_passes_iff`).
-/

namespace Octopos

namespace UserExec

def MAX_ARGV : ℕ := 16

def BUF_SIZE : ℕ := 512

/-- The buffer, the pointers as offsets into it, and the offset of the next argument. -/
structure Pack where
  buf : Bytes := fun _ => 0
  ptrs : ℕ → Option ℕ := fun _ => none
  offset : ℕ := 0

/-- One turn of the loop of `exec`. -/
def push (s : Pack) (i : ℕ) (arg : Name) : Except SlicePanic Pack :=
  if BUF_SIZE < s.offset ∨ BUF_SIZE < s.offset + arg.length then .error .outOfRange
  else
    .ok
      { buf := blit s.buf s.offset arg.length fun k => arg.getD k 0
        ptrs := upd s.ptrs i (some s.offset)
        offset := s.offset + arg.length + 1 }

def pack (s : Pack) (i : ℕ) : List Name → Except SlicePanic Pack
  | [] => .ok s
  | arg :: argv => do
    let s ← push s i arg
    pack s (i + 1) argv

/-- `exec`, up to the system call: the path and the arguments for the kernel, or nothing if it
returns an error. -/
def exec (path : Name) (argv : List Name) : Except SlicePanic (Option (Bytes × Pack)) :=
  match UserPath.validatePath path with
  | none => .ok none
  | some cpath => do
    let s ← pack {} 0 (argv.take MAX_ARGV)
    return some (cpath, s)

/-! ## What the kernel finds -/

/-- Pointer `i` leads to the bytes of `arg` and a zero byte behind them. -/
def Addresses (s : Pack) (i : ℕ) (arg : Name) : Prop :=
  ∃ o, s.ptrs i = some o ∧ o + arg.length < BUF_SIZE ∧
    (∀ k (h : k < arg.length), s.buf (o + k) = arg[k]) ∧ s.buf (o + arg.length) = 0

/-- `exec` returns an error, or hands over all arguments and a null pointer behind them. -/
def Passes (path : Name) (argv : List Name) : Prop :=
  match exec path argv with
  | .error _ => False
  | .ok none => True
  | .ok (some (_, s)) => (∀ i (h : i < argv.length), Addresses s i argv[i]) ∧ s.ptrs argv.length = none

/-- Bytes that the arguments take with their terminators. -/
def total (argv : List Name) : ℕ := (argv.map fun arg => arg.length + 1).sum

theorem total_cons (arg : Name) (argv : List Name) :
    total (arg :: argv) = arg.length + 1 + total argv := by
  simp [total]

section Pack

variable {s p : Pack} {i : ℕ} {arg : Name} {argv : List Name}

theorem push_eq_ok (h : push s i arg = .ok p) : s.offset + arg.length ≤ BUF_SIZE ∧
    p.ptrs = upd s.ptrs i (some s.offset) ∧ p.offset = s.offset + arg.length + 1 := by
  unfold push at h
  split_ifs at h with hbad
  cases h
  exact ⟨by omega, rfl, rfl⟩

theorem pack_cons (h : pack s i (arg :: argv) = .ok p) :
    ∃ s', push s i arg = .ok s' ∧ pack s' (i + 1) argv = .ok p := by
  rw [pack] at h
  cases hs : push s i arg with
  | error e =>
    rw [hs] at h
    cases h
  | ok s' =>
    rw [hs] at h
    exact ⟨s', rfl, h⟩

theorem pack_ptrs_outside (h : pack s i argv = .ok p) {j : ℕ} (hj : j < i ∨ i + argv.length ≤ j) :
    p.ptrs j = s.ptrs j := by
  induction argv generalizing s i with
  | nil =>
    cases h
    rfl
  | cons arg argv ih =>
    rw [List.length_cons] at hj
    obtain ⟨s', hs', h⟩ := pack_cons h
    rw [ih h (by omega), (push_eq_ok hs').2.1, upd_of_ne (by omega)]

/-- The pointers lead to the arguments one behind the other. -/
theorem pack_ptrs (h : pack s i argv = .ok p) {j : ℕ} (hj : j < argv.length) :
    p.ptrs (i + j) = some (s.offset + total (argv.take j)) := by
  induction argv generalizing s i j with
  | nil => cases hj
  | cons arg argv ih =>
    obtain ⟨s', hs', h⟩ := pack_cons h
    obtain ⟨-, hptrs, hoffset⟩ := push_eq_ok hs'
    cases j with
    | zero =>
      rw [pack_ptrs_outside h (by omega), hptrs]
      exact upd_self ..
    | succ j =>
      have hnext := ih h (Nat.lt_of_succ_lt_succ hj)
      rw [hoffset, Nat.add_right_comm] at hnext
      rw [List.take_succ_cons, total_cons, ← Nat.add_assoc i j 1, hnext]
      congr 1
      omega

/-- Arguments that fit are packed, and stay as they are when further ones are packed. -/
theorem pack_fits (hzero : ∀ k, s.offset ≤ k → s.buf k = 0)
    (hfit : s.offset + total argv ≤ BUF_SIZE) :
    ∃ p, pack s i argv = .ok p ∧ (∀ k < s.offset, p.buf k = s.buf k) ∧ ∀ j (h : j < argv.length),
    Addresses p (i + j) argv[j] := by
  induction argv generalizing s i with
  | nil => exact ⟨s, rfl, fun _ _ => rfl, fun j hj => absurd hj (Nat.not_lt_zero j)⟩
  | cons arg argv ih =>
    rw [total_cons] at hfit
    obtain ⟨s', hs'⟩ : ∃ s', push s i arg = .ok s' := ⟨_, if_neg (by omega)⟩
    have hbuf : s'.buf = blit s.buf s.offset arg.length fun k => arg.getD k 0 := by
      rw [push, if_neg (by omega)] at hs'
      cases hs'
      rfl
    obtain ⟨-, hptrs, hoffset⟩ := push_eq_ok hs'
    have hzero' : ∀ k, s'.offset ≤ k → s'.buf k = 0 := fun k hk => by
      rw [hbuf, blit_outside (by omega)]
      exact hzero k (by omega)
    obtain ⟨p, hp, hkeep, hrest⟩ := ih (i := i + 1) hzero' (by omega)
    refine ⟨p, ?_, fun k hk => ?_, fun j hj => ?_⟩
    · rw [pack, hs']
      exact hp
    · rw [hkeep k (by omega), hbuf, blit_outside (Or.inl hk)]
    · cases j with
      | succ j =>
        have haddr := hrest j (Nat.lt_of_succ_lt_succ hj)
        rwa [Nat.add_right_comm] at haddr
      | zero =>
        refine ⟨s.offset, ?_, ?_, fun k hk => ?_, ?_⟩
        · rw [pack_ptrs_outside hp (by omega), hptrs]
          exact upd_self ..
        · rw [List.getElem_cons_zero]
          omega
        · rw [List.getElem_cons_zero] at hk
          rw [hkeep _ (by omega), hbuf, blit_inside hk]
          exact (List.getD_eq_getElem arg 0 hk)
        · rw [List.getElem_cons_zero, hkeep _ (by omega), hbuf, blit_outside (by omega)]
          exact hzero _ (by omega)

theorem total_take_last {n : ℕ} (h : argv.length = n + 1) :
    total argv = total (argv.take n) + (argv[n].length + 1) := by
  have hall : argv.take (n + 1) = argv := List.take_of_length_le h.le
  conv_lhs => rw [← hall]
  rw [total, total, List.map_take, List.map_take, List.sum_take_succ _ n (by simp [h]), List.getElem_map]

end Pack

/-- `exec` returns an error or passes all arguments if and only if the path is not valid, or there
are at most sixteen arguments that take at most 512 bytes with their terminators. -/
theorem exec_passes_iff (path : Name) (argv : List Name) : Passes path argv ↔
    UserPath.validatePath path = none ∨ argv.length ≤ MAX_ARGV ∧ total argv ≤ BUF_SIZE := by
  unfold Passes exec
  cases UserPath.validatePath path with
  | none => exact iff_of_true trivial (Or.inl rfl)
  | some cpath =>
    simp only [reduceCtorEq, false_or]
    constructor
    · intro h
      cases hp : pack {} 0 (argv.take MAX_ARGV) with
      | error e =>
        rw [hp] at h
        exact h.elim
      | ok p =>
        rw [hp] at h
        obtain ⟨haddr, -⟩ := h
        have hlen : argv.length ≤ MAX_ARGV := by
          -- pointer 16 is null, so there is no argument for it
          by_contra hmany
          obtain ⟨o, ho, -⟩ := haddr MAX_ARGV (by omega)
          rw [pack_ptrs_outside hp (Or.inr (by rw [List.length_take]; omega))] at ho
          cases ho
        refine ⟨hlen, ?_⟩
        rw [List.take_of_length_le hlen] at hp
        rcases hn : argv.length with _ | n
        · rw [List.length_eq_zero_iff.1 hn]
          exact Nat.zero_le _
        · obtain ⟨o, ho, hlast, -⟩ := haddr n (by omega)
          have hptr := pack_ptrs hp (j := n) (by omega)
          rw [Nat.zero_add, ho] at hptr
          have := Option.some.inj hptr
          have := total_take_last hn
          dsimp only at *
          omega
    · rintro ⟨hlen, hfit⟩
      rw [List.take_of_length_le hlen]
      obtain ⟨p, hp, -, haddr⟩ := pack_fits (s := {}) (i := 0) (fun _ _ => rfl) (by simpa using hfit)
      rw [hp]
      refine ⟨fun i hi => ?_, pack_ptrs_outside hp (Or.inr (by omega))⟩
      simpa using haddr i hi

/-- The last of seventeen arguments of `sh` is dropped, and an argument of 513 bytes stops the
program. -/
theorem exec_drops_argument :
    ¬Passes [115, 104] (List.replicate 17 []) ∧
      ∃ arg : Name, arg.length = 513 ∧ exec [115, 104] [arg] = .error .outOfRange ∧
      ¬Passes [115, 104] [arg] := by
  obtain ⟨arg, harg⟩ : ∃ arg : Name, arg.length = 513 := ⟨List.replicate 513 97, List.length_replicate⟩
  have hpush : push {} 0 arg = .error .outOfRange := if_pos (Or.inr (by rw [harg]; decide))
  have hexec : exec [115, 104] [arg] = .error .outOfRange := by
    change (do let s ← pack {} 0 [arg]; return some (_, s)) = _
    rw [pack, hpush]
    rfl
  refine ⟨fun h => ?_, arg, harg, hexec, fun h => ?_⟩
  · obtain ⟨s, hs, hnull⟩ : ∃ s, exec [115, 104] (List.replicate 17 []) = .ok (some s) ∧ s.2.ptrs 16 = none :=
      ⟨_, rfl, rfl⟩
    rw [Passes, hs] at h
    obtain ⟨o, ho, -⟩ := h.1 16 (by decide)
    rw [hnull] at ho
    cases ho
  · rw [Passes, hexec] at h
    exact h

end UserExec

end Octopos
