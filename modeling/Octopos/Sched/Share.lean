import Octopos.Lib.Run
import Octopos.Sched.Table

/-!
# Proportional share

Processes that start with equal pass and always go back to `Runnable` are dispatched in proportion
to their tickets: at every moment the progress `n · stride` of any two of them differs by at most
the largest stride (`dispatches_proportional`).

The invariant `Share` says that the passes of the competing processes stay within the largest stride
of each other, and that `n · stride` is the pass up to a common offset, which normalization
moves.
-/

namespace Octopos

open Function

/-- The processes of `A` are runnable with equal pass and valid tickets, and no other process
competes for the CPU. -/
structure EqualStart (A : Finset ProcId) (s : Kernel) : Prop where
  idle : s.current = none
  trace : s.trace = []
  runnable : ∀ i ∈ A, (s.table i).state = .runnable
  others : ∀ i ∉ A, (s.table i).state ≠ .runnable ∧ (s.table i).state ≠ .running
  tickets : ∀ i ∈ A, ValidTickets (s.table i)
  equal : ∃ p, ∀ i ∈ A, (s.table i).pass = p

/-- The scheduler runs and the dispatched processes go back to `Runnable`. -/
def CpuBound (_ : Kernel) (a : Action) : Prop := a = .schedule ∨ a = .yield

/-- How often process `i` was dispatched. -/
def Kernel.dispatches (s : Kernel) (i : ProcId) : ℕ := (s.trace.map Prod.fst).count i

/-- The largest stride of the processes of `A`. -/
def maxStride (A : Finset ProcId) (t : ProcId → ProcInner) : ℕ := A.sup fun i => (t i).stride

theorem stride_le_maxStride {A : Finset ProcId} {t : ProcId → ProcInner} {i : ProcId} (hi : i ∈ A) :
    (t i).stride ≤ maxStride A t :=
  Finset.le_sup (f := fun i => (t i).stride) hi

/-- The pass of `i` once the dispatch it is in, if any, has been charged. -/
def Kernel.charged (s : Kernel) (i : ProcId) : ℕ :=
  (s.table i).pass + if s.current = some i then (s.table i).stride else 0

/-- The lag invariant: who competes, how far the passes are apart, and how they count dispatches. -/
structure Share (A : Finset ProcId) (t : ProcId → ProcInner) (s : Kernel) : Prop where
  stride : ∀ i, (s.table i).stride = (t i).stride
  state : ∀ i ∈ A, (s.table i).state = if s.current = some i then .running else .runnable
  others : ∀ i ∉ A, (s.table i).state ≠ .runnable ∧ (s.table i).state ≠ .running
  lag : ∀ i ∈ A, ∀ j ∈ A, (s.table i).pass ≤ (s.table j).pass + maxStride A t
  current : ∀ c, s.current = some c → c ∈ A ∧ (s.table c).pass + (s.table c).stride < USIZE ∧
    ∀ j ∈ A, (s.table c).pass ≤ (s.table j).pass
  offset : ∃ B : ℤ, ∀ i ∈ A, (s.dispatches i * (t i).stride : ℤ) = s.charged i + B

theorem Share.of_equalStart {A : Finset ProcId} {s : Kernel} (h : EqualStart A s) :
    Share A s.table s := by
  obtain ⟨p, hp⟩ := h.equal
  refine ⟨fun _ => rfl, ?_, h.others, ?_, ?_, -p, ?_⟩
  · intro i hi
    simp [h.idle, h.runnable i hi]
  · intro i hi j hj
    rw [hp i hi, hp j hj]
    omega
  · intro c hc
    simp [h.idle] at hc
  · intro i hi
    simp [Kernel.dispatches, Kernel.charged, h.trace, h.idle, hp i hi]

section Steps

variable {A : Finset ProcId} {t : ProcId → ProcInner} {s : Kernel}

theorem Share.mem_of_runnable (h : Share A t s) {i : ProcId} (hi : (s.table i).state = .runnable) :
    i ∈ A := by
  by_contra hA
  exact (h.others i hA).1 hi

theorem Share.runnable (h : Share A t s) (hc : s.current = none) {i : ProcId} (hi : i ∈ A) :
    (s.table i).state = .runnable := by
  simpa [hc] using h.state i hi

/-- The charged passes of two competing processes are within the largest stride. -/
theorem Share.charged_le (h : Share A t s) {i j : ProcId} (hi : i ∈ A) (hj : j ∈ A) :
    s.charged i ≤ s.charged j + maxStride A t := by
  have hij := h.lag i hi j hj
  have hS : (s.table i).stride ≤ maxStride A t := h.stride i ▸ stride_le_maxStride hi
  unfold Kernel.charged
  by_cases hci : s.current = some i
  · have hmin := (h.current i hci).2.2 j hj
    by_cases hcj : s.current = some j
    · obtain rfl : i = j := by simpa [hci] using hcj
      omega
    · simp only [hci, if_true]
      omega
  · simp only [hci, if_false]
    omega

/-- Normalization subtracts the smallest pass of `A` from every pass of `A`. -/
theorem Share.normalize (h : Share A t s) (hc : s.current = none) : Share A t s.normalize := by
  unfold Kernel.normalize
  split
  · exact h
  · rename_i k b hk
    obtain ⟨-, hb, hmin⟩ := minPass_eq_some hk
    have hle : ∀ i ∈ A, b ≤ (s.table i).pass := by
      intro i hi
      rw [hb]
      exact hmin i (by simp [h.runnable hc hi])
    refine ⟨h.stride, h.state, h.others, ?_, ?_, ?_⟩
    · intro i hi j hj
      have := h.lag i hi j hj
      have := hle j hj
      dsimp only
      omega
    · intro c hc'
      simp [hc] at hc'
    · obtain ⟨B, hB⟩ := h.offset
      refine ⟨B + b, fun i hi => ?_⟩
      have h1 := hB i hi
      have h2 := hle i hi
      simp only [Kernel.dispatches, Kernel.charged, hc, reduceCtorEq, if_false, add_zero] at h1 ⊢
      rw [h1]
      push_cast [h2]
      ring

theorem Share.dispatch (h : Share A t s) (hc : s.current = none) {k : ProcId} (hk : k ∈ A)
    (hfit : (s.table k).pass + (s.table k).stride < USIZE)
    (hmin : ∀ j ∈ A, (s.table k).pass ≤ (s.table j).pass) : Share A t (s.dispatch k) := by
  refine ⟨fun i => by simp [h.stride], ?_, ?_, ?_, ?_, ?_⟩
  · intro i hi
    rw [dispatch_state, h.runnable hc hi]
    by_cases hik : i = k
    · simp [Kernel.dispatch, hik]
    · simp [Kernel.dispatch, hik, Ne.symm hik]
  · intro i hi
    have hik : i ≠ k := fun e => hi (e ▸ hk)
    simpa [dispatch_state, hik] using h.others i hi
  · intro i hi j hj
    simpa using h.lag i hi j hj
  · intro c hc'
    obtain rfl : k = c := by simpa [Kernel.dispatch] using hc'
    refine ⟨hk, by simpa using hfit, fun j hj => by simpa using hmin j hj⟩
  · obtain ⟨B, hB⟩ := h.offset
    refine ⟨B, fun i hi => ?_⟩
    have h1 := hB i hi
    have hcount : (s.dispatch k).dispatches i = s.dispatches i + if k = i then 1 else 0 := by
      simp [Kernel.dispatches, Kernel.dispatch, List.count_cons]
    have hcur : (s.dispatch k).current = some k := rfl
    simp only [Kernel.charged, hc, reduceCtorEq, if_false, add_zero] at h1
    simp only [Kernel.charged, hcount, hcur, dispatch_pass, dispatch_stride, Option.some.injEq]
    split_ifs with hki
    · rw [h.stride i]
      push_cast
      linarith
    · simpa using h1

theorem Share.schedule (h : Share A t s) (hc : s.current = none) : Share A t s.schedule := by
  unfold Kernel.schedule
  split
  · exact h
  · rename_i k q hk
    obtain ⟨hkr, -, hmin⟩ := minPass_eq_some hk
    split_ifs with hov
    · exact h.normalize hc
    · refine h.dispatch hc (h.mem_of_runnable (by simpa using hkr)) ?_ fun j hj => hmin j (by simp [h.runnable hc hj])
      by_contra hlt
      exact hov (by simp [checkedAdd, hlt])

theorem Share.yield (h : Share A t s) {c : ProcId} (hc : s.current = some c) :
    Share A t (s.yield c) := by
  obtain ⟨hcA, hfit, hmin⟩ := h.current c hc
  have hpass : ∀ i, ((s.yield c).table i).pass = s.charged i := by
    intro i
    by_cases hi : i = c
    · subst hi
      simp [Kernel.yield, leave_pass_self, Kernel.charged, hc, Nat.mod_eq_of_lt hfit]
    · simp [Kernel.yield, hi, Kernel.charged, hc, Ne.symm hi]
  have hstate : ∀ i, ((s.yield c).table i).state = if i = c then .runnable else (s.table i).state := by
    intro i
    by_cases hi : i = c
    · subst hi; simp [Kernel.yield]
    · simp [Kernel.yield, hi]
  have hstride : ∀ i, ((s.yield c).table i).stride = (s.table i).stride := by
    intro i
    by_cases hi : i = c
    · subst hi; simp [Kernel.yield]
    · simp [Kernel.yield, hi]
  have hcur : (s.yield c).current = none := rfl
  refine ⟨fun i => (hstride i).trans (h.stride i), ?_, ?_, ?_, ?_, ?_⟩
  · intro i hi
    have := h.state i hi
    rw [hstate, hcur]
    by_cases hic : i = c
    · simp [hic]
    · simpa [hic, hc, Ne.symm hic] using this
  · intro i hi
    have hic : i ≠ c := fun e => hi (e ▸ hcA)
    simpa [hstate, hic] using h.others i hi
  · intro i hi j hj
    rw [hpass, hpass]
    exact h.charged_le hi hj
  · intro d hd
    simp [hcur] at hd
  · obtain ⟨B, hB⟩ := h.offset
    refine ⟨B, fun i hi => ?_⟩
    have hcount : (s.yield c).dispatches i = s.dispatches i := rfl
    rw [hcount, hB i hi]
    simp [Kernel.charged, hcur, hpass]

theorem Share.step {s' : Kernel} {a : Action} (h : Share A t s)
    (hs : Guarded CpuBound Kernel.Step s a s') : Share A t s' := by
  obtain ⟨rfl | rfl, hs⟩ := hs
  · simp only [Kernel.Step, Kernel.step] at hs
    split_ifs at hs with hc
    cases hs
    exact h.schedule hc
  · obtain ⟨c, hc, rfl⟩ := Option.map_eq_some_iff.1 hs
    exact h.yield hc

end Steps

/-- **Proportional share.** In every state of a run of the scheduler over processes that start with
equal pass and always go back to `Runnable`, the progress of two processes differs by at most the
largest stride, whatever normalizations the run makes. -/
theorem dispatches_proportional {A : Finset ProcId} {s₀ s : Kernel} (h₀ : EqualStart A s₀)
    (h : Reachable (· = s₀) (Guarded CpuBound Kernel.Step) s) {i j : ProcId} (hi : i ∈ A)
    (hj : j ∈ A) :
    |(s.dispatches i * (s₀.table i).stride : ℤ) - s.dispatches j * (s₀.table j).stride| ≤
      maxStride A s₀.table := by
  have hshare : Share A s₀.table s := by
    refine h.invariant (I := Share A s₀.table) ?_ (fun _ _ _ => Share.step)
    rintro _ rfl
    exact .of_equalStart h₀
  obtain ⟨B, hB⟩ := hshare.offset
  have h1 := hshare.charged_le hi hj
  have h2 := hshare.charged_le hj hi
  rw [hB i hi, hB j hj, abs_le]
  constructor <;> omega

/-- Two runnable processes with ten and twenty tickets. -/
def twoRunnable : Kernel where
  table i :=
    if i.val < 2 then
      { state := .runnable, tickets := 10 * (i.val + 1), stride := LARGE_NUMBER / (10 * (i.val + 1)) }
    else {}

theorem twoRunnable_equalStart :
    EqualStart {⟨0, by decide⟩, ⟨1, by decide⟩} twoRunnable where
  idle := rfl
  trace := rfl
  runnable := by decide
  others := by decide
  tickets := by decide
  equal := ⟨0, by decide⟩

/-- After one dispatch of the first process, its progress is one stride ahead. -/
theorem dispatches_proportional_two :
    |((twoRunnable.dispatch ⟨0, by decide⟩).dispatches ⟨0, by decide⟩ *
        (twoRunnable.table ⟨0, by decide⟩).stride : ℤ) -
      (twoRunnable.dispatch ⟨0, by decide⟩).dispatches ⟨1, by decide⟩ *
        (twoRunnable.table ⟨1, by decide⟩).stride| ≤
      maxStride {⟨0, by decide⟩, ⟨1, by decide⟩} twoRunnable.table := by
  have hstep : Guarded CpuBound Kernel.Step twoRunnable .schedule
      (twoRunnable.dispatch ⟨0, by decide⟩) := ⟨.inl rfl, rfl⟩
  exact dispatches_proportional twoRunnable_equalStart (.step (.init rfl) hstep) (by decide) (by decide)

end Octopos
