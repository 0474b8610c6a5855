import Octopos.Log.Transaction
import Mathlib.Data.Fintype.BigOperators

/-!
# Batches of whole operations

The invariant of the log under every interleaving (`LogInv`), and the reservation that `begin_op`
makes for the blocks an operation may log (`Reserved`).
-/

namespace Octopos

section Model

variable {P : Type} [DecidableEq P] {c : LogPc} {b size : ℕ} {logged : Finset ℕ}
variable {pc : P → LogPc} {blocks : List ℕ} {fresh : ℕ} {a : LogAction P}

/-- What holds of the log between any two steps. -/
structure LogInv [Fintype P] (s : LogState P) : Prop where
  count : s.outstanding = ∑ p, (s.pc p).isOpen.toNat
  opens : ∀ p, openIn p s.trace = (s.pc p).isOpen
  commits : committingIn s.trace = s.committing
  quiet : s.committing = true → s.outstanding = 0
  committer : ∀ p, (s.pc p).isCommit = true →
    s.committing = true ∧ ∀ q, (s.pc q).isCommit = true → q = p
  logged : (∀ p, (s.pc p).isInstall = false) → ∀ b, b ∈ s.blocks ↔ b ∈ loggedIn s.trace
  installed : ∀ p, (s.pc p).isInstall = true → loggedIn s.trace = []
  copying : ∀ p n copied, s.pc p = .writeLog n copied →
    n = s.blocks.length ∧ copied = s.blocks.take copied.length
  copied : ∀ p copied, s.pc p = .writeHead copied → copied = s.blocks
  trace : TraceOk s.trace

theorem LogPc.isCommit_of_isInstall (h : c.isInstall = true) : c.isCommit = true := by
  cases c <;> simp_all [LogPc.isInstall, LogPc.isCommit]

theorem sum_update_pc [Fintype P] (f : LogPc → ℕ) (pc : P → LogPc) (p : P) (c : LogPc) :
    ∑ q, f (Function.update pc p c q) + f (pc p) = ∑ q, f (pc q) + f c := by
  rw [← Finset.add_sum_erase _ _ (Finset.mem_univ p),
    ← Finset.add_sum_erase Finset.univ (fun q => f (pc q)) (Finset.mem_univ p)]
  have h : ∑ q ∈ Finset.univ.erase p, f (Function.update pc p c q) = ∑ q ∈ Finset.univ.erase p, f (pc q) := by
    refine Finset.sum_congr rfl fun q hq => ?_
    rw [Function.update_of_ne (Finset.ne_of_mem_erase hq)]
  rw [h, Function.update_self]
  omega

namespace LogState

section

variable (s : LogState P) (p : P) (c : LogPc)

@[simp] theorem goto_pc : (s.goto p c).pc = Function.update s.pc p c := rfl
@[simp] theorem goto_blocks : (s.goto p c).blocks = s.blocks := rfl
@[simp] theorem goto_trace : (s.goto p c).trace = s.trace := rfl
@[simp] theorem goto_outstanding : (s.goto p c).outstanding = s.outstanding := rfl
@[simp] theorem goto_committing : (s.goto p c).committing = s.committing := rfl

end

omit [DecidableEq P] in
/-- A property of the program counter that does not tell a sleeper from a woken process is not
changed by `wakeup`. -/
theorem wakeup_pc {α : Type} (f : LogPc → α) (hf : f .asleep = f .woken) (s : LogState P) (p : P) :
    f (s.wakeup.pc p) = f (s.pc p) := by
  unfold wakeup
  by_cases h : s.pc p = .asleep
  · simp [h, hf]
  · simp [h]

end LogState

section Invariant

variable [Fintype P] {s s' : LogState P} {p : P}

theorem LogInv.start : LogInv (LogState.start : LogState P) where
  count := by simp [LogState.start, LogPc.isOpen]
  opens := fun _ => rfl
  commits := rfl
  quiet := fun _ => rfl
  committer := by simp [LogState.start, LogPc.isCommit]
  logged := by simp [LogState.start, loggedIn]
  installed := by simp [LogState.start, LogPc.isInstall]
  copying := by simp [LogState.start]
  copied := by simp [LogState.start]
  trace := trivial

theorem LogInv.outstanding_pos (h : LogInv s) (hp : (s.pc p).isOpen = true) :
    0 < s.outstanding := by
  rw [h.count]
  refine Finset.sum_pos' (fun _ _ => Nat.zero_le _) ⟨p, Finset.mem_univ p, ?_⟩
  simp [hp]

theorem LogInv.not_committing (h : LogInv s) (hp : (s.pc p).isOpen = true) :
    s.committing = false := by
  have hpos := h.outstanding_pos hp
  by_contra hc
  have := h.quiet (by simpa using hc)
  omega

theorem LogInv.not_isCommit (h : LogInv s) (hc : s.committing = false) (q : P) :
    (s.pc q).isCommit = false := by
  by_contra hq
  have := (h.committer q (by simpa using hq)).1
  rw [hc] at this
  cases this

theorem LogInv.not_isOpen (h : LogInv s) (h0 : s.outstanding = 0) (q : P) :
    (s.pc q).isOpen = false := by
  by_contra hq
  have := h.outstanding_pos (p := q) (by simpa using hq)
  omega

theorem LogPc.isInstall_of_not_isCommit (h : c.isCommit = false) : c.isInstall = false := by
  by_contra hc
  rw [LogPc.isCommit_of_isInstall (by simpa using hc)] at h
  cases h

/-- A process moves without ending or beginning anything, and the log stays as it is. -/
theorem LogInv.goto (h : LogInv s) (hopen : c.isOpen = (s.pc p).isOpen)
    (hcommit : c.isCommit = (s.pc p).isCommit) (hinstall : c.isInstall = (s.pc p).isInstall)
    (hcopying : ∀ n copied, c = .writeLog n copied → n = s.blocks.length ∧
      copied = s.blocks.take copied.length)
    (hcopied : ∀ copied, c = .writeHead copied → copied = s.blocks) : LogInv (s.goto p c) := by
  have same {α : Type} (f : LogPc → α) (hf : f c = f (s.pc p)) (q : P) :
      f (Function.update s.pc p c q) = f (s.pc q) := by
    by_cases hq : q = p
    · subst hq; simpa using hf
    · rw [Function.update_of_ne hq]
  refine ⟨?_, ?_, h.commits, h.quiet, ?_, ?_, ?_, ?_, ?_, h.trace⟩
  · simp only [LogState.goto_pc, same LogPc.isOpen hopen]
    exact h.count
  · intro q
    rw [LogState.goto_pc, same LogPc.isOpen hopen]
    exact h.opens q
  · simp only [LogState.goto_pc, same LogPc.isCommit hcommit]
    exact h.committer
  · simp only [LogState.goto_pc, same LogPc.isInstall hinstall]
    exact h.logged
  · simp only [LogState.goto_pc, same LogPc.isInstall hinstall]
    exact h.installed
  · intro q n l hq
    by_cases hqp : q = p
    · subst hqp
      exact hcopying n l (by simpa using hq)
    · exact h.copying q n l (by simpa [hqp] using hq)
  · intro q l hq
    by_cases hqp : q = p
    · subst hqp
      exact hcopied l (by simpa using hq)
    · exact h.copied q l (by simpa [hqp] using hq)

theorem LogInv.wakeup (h : LogInv s) : LogInv s.wakeup := by
  have hpc {α : Type} (f : LogPc → α) (hf : f .asleep = f .woken) (q : P) :=
    LogState.wakeup_pc f hf s q
  have hget (q : P) : s.wakeup.pc q = s.pc q ∨ s.wakeup.pc q = .woken := by
    unfold LogState.wakeup
    by_cases hq : s.pc q = .asleep <;> simp [hq]
  refine ⟨?_, ?_, h.commits, h.quiet, ?_, ?_, ?_, ?_, ?_, h.trace⟩
  · simp only [hpc LogPc.isOpen rfl]
    exact h.count
  · simp only [hpc LogPc.isOpen rfl]
    exact h.opens
  · simp only [hpc LogPc.isCommit rfl]
    exact h.committer
  · simp only [hpc LogPc.isInstall rfl]
    exact h.logged
  · simp only [hpc LogPc.isInstall rfl]
    exact h.installed
  · intro q n l hq
    rcases hget q with hs | hs <;> rw [hs] at hq
    · exact h.copying q n l hq
    · cases hq
  · intro q l hq
    rcases hget q with hs | hs <;> rw [hs] at hq
    · exact h.copied q l hq
    · cases hq

theorem LogInv.of_not_committing (hno : ∀ q, (s.pc q).isCommit = false)
    (hc : s.committing = false) (count : s.outstanding = ∑ p, (s.pc p).isOpen.toNat)
    (opens : ∀ p, openIn p s.trace = (s.pc p).isOpen) (commits : committingIn s.trace = false)
    (logged : ∀ b, b ∈ s.blocks ↔ b ∈ loggedIn s.trace) (trace : TraceOk s.trace) : LogInv s where
  count := count
  opens := opens
  commits := commits.trans hc.symm
  quiet := fun h => absurd (hc.symm.trans h) (by simp)
  committer := fun q hq => absurd ((hno q).symm.trans hq) (by simp)
  logged := fun _ => logged
  installed := fun q hq =>
    absurd ((hno q).symm.trans (LogPc.isCommit_of_isInstall hq)) (by simp)
  copying := fun q n l hq => absurd (hno q) (by simp [hq, LogPc.isCommit])
  copied := fun q l hq => absurd (hno q) (by simp [hq, LogPc.isCommit])
  trace := trace

theorem LogInv.logged_of_not_committing (h : LogInv s) (hc : s.committing = false) (b : ℕ) :
    b ∈ s.blocks ↔ b ∈ loggedIn s.trace :=
  h.logged (fun q => LogPc.isInstall_of_not_isCommit (h.not_isCommit hc q)) b

omit [Fintype P] in
theorem isCommit_update_eq_false (hno : ∀ q, (pc q).isCommit = false)
    (hcommit : c.isCommit = false) (q : P) : (Function.update pc p c q).isCommit = false := by
  by_cases hq : q = p
  · subst hq; simpa using hcommit
  · rw [Function.update_of_ne hq, hno q]

theorem LogInv.beginOp (h : LogInv s) (hp : s.pc p = .idle ∨ s.pc p = .woken) :
    LogInv (s.beginOp p) := by
  have hopen : (s.pc p).isOpen = false := by rcases hp with hp | hp <;> rw [hp] <;> rfl
  have hcommit : (s.pc p).isCommit = false := by rcases hp with hp | hp <;> rw [hp] <;> rfl
  have hsleep : LogInv (s.goto p .asleep) :=
    h.goto hopen.symm hcommit.symm (LogPc.isInstall_of_not_isCommit hcommit).symm
      (by simp) (by simp)
  unfold LogState.beginOp
  split_ifs with hc _
  · exact hsleep
  · exact hsleep
  · have hc : s.committing = false := by simpa using hc
    refine LogInv.of_not_committing (isCommit_update_eq_false (h.not_isCommit hc) rfl) hc ?_ ?_
      (h.commits.trans hc) (h.logged_of_not_committing hc) ⟨h.commits.trans hc, h.trace⟩
    · have hsum := sum_update_pc (fun c => c.isOpen.toNat) s.pc p (.inOp ∅ 0)
      have hcount := h.count
      simp only [hopen, Bool.toNat_false, LogPc.isOpen_inOp, Bool.toNat_true] at hsum
      simp only [LogState.emit, LogState.goto]
      omega
    · intro q
      by_cases hq : q = p
      · subst hq; simp [LogState.emit, openIn]
      · simp [LogState.emit, openIn, hq, Ne.symm hq, h.opens q]

theorem LogInv.log (h : LogInv s) (hp : (s.pc p).isOpen = true)
    (hblocks : ∀ x, x ∈ blocks ↔ x = b ∨ x ∈ s.blocks) (logged : Finset ℕ) (fresh : ℕ) :
    LogInv (({ s with blocks := blocks }.goto p (.inOp logged fresh)).emit (.write p b)) := by
  have hc := h.not_committing hp
  refine LogInv.of_not_committing (isCommit_update_eq_false (h.not_isCommit hc) rfl) hc ?_ ?_
    (h.commits.trans hc) ?_ ⟨trivial, h.trace⟩
  · have hsum := sum_update_pc (fun c => c.isOpen.toNat) s.pc p (.inOp logged fresh)
    have hcount := h.count
    simp only [hp, LogPc.isOpen_inOp, Bool.toNat_true] at hsum
    simp only [LogState.emit, LogState.goto]
    omega
  · intro q
    by_cases hq : q = p
    · subst hq; simp [LogState.emit, openIn, h.opens, hp]
    · simp [LogState.emit, openIn, hq, h.opens q]
  · intro x
    simp [LogState.emit, LogState.goto, loggedIn, hblocks, h.logged_of_not_committing hc]

theorem LogInv.write (h : LogInv s) (hp : s.pc p = .inOp logged fresh)
    (hs : s.write size p b logged fresh = .ok s') : LogInv s' := by
  have hopen : (s.pc p).isOpen = true := by rw [hp]; rfl
  unfold LogState.write at hs
  split_ifs at hs with _ _ hb
  · cases hs
    exact h.log hopen (by grind) _ _
  · cases hs
    exact h.log hopen (by grind) _ _

omit [Fintype P] in
theorem openIn_endOp (h : ∀ q, openIn q s.trace = (s.pc q).isOpen) (hopen : c.isOpen = false)
    (q : P) : openIn q (.endOp p :: s.trace) = (Function.update s.pc p c q).isOpen := by
  by_cases hq : q = p
  · subst hq; simp [openIn, hopen]
  · simp [openIn, hq, Ne.symm hq, h q]

theorem LogInv.endOp (h : LogInv s) (hp : (s.pc p).isOpen = true) (hs : s.endOp p = .ok s') :
    LogInv s' := by
  have hc := h.not_committing hp
  have hpos := h.outstanding_pos hp
  have hcount (c : LogPc) (hopen : c.isOpen = false) :
      s.outstanding - 1 = ∑ q, (Function.update s.pc p c q).isOpen.toNat := by
    have hsum := sum_update_pc (fun c => c.isOpen.toNat) s.pc p c
    have hcount := h.count
    simp only [hp, hopen, Bool.toNat_true, Bool.toNat_false] at hsum
    omega
  unfold LogState.endOp at hs
  split_ifs at hs with _ hlast
  · cases hs
    have hclosed (q : P) : openIn q (.endOp p :: s.trace) = false := by
      rw [openIn_endOp h.opens (c := .commitStart) rfl]
      have h0 := (hcount .commitStart rfl).symm.trans hlast
      have hq := Finset.sum_eq_zero_iff.1 h0 q (Finset.mem_univ q)
      simpa using hq
    have honly (q : P) (hq : (Function.update s.pc p .commitStart q).isCommit = true) : q = p := by
      by_contra hqp
      rw [Function.update_of_ne hqp, h.not_isCommit hc q] at hq
      cases hq
    have hblocks := h.logged_of_not_committing hc
    refine ⟨hcount .commitStart rfl, ?_, rfl, fun _ => hlast, ?_, fun _ => hblocks, ?_, ?_, ?_,
      ⟨hclosed, trivial, h.trace⟩⟩
    · exact fun q => openIn_endOp h.opens rfl q
    · exact fun q hq => ⟨rfl, fun r hr => (honly r hr).trans (honly q hq).symm⟩
    · intro q hq
      have hqp := honly q (LogPc.isCommit_of_isInstall hq)
      subst hqp
      simp [LogState.emit, LogPc.isInstall] at hq
    · intro q n l hq
      have hqp := honly q (by rw [show Function.update s.pc p .commitStart q = _ from hq]; rfl)
      subst hqp
      simp [LogState.emit] at hq
    · intro q l hq
      have hqp := honly q (by rw [show Function.update s.pc p .commitStart q = _ from hq]; rfl)
      subst hqp
      simp [LogState.emit] at hq
  · cases hs
    refine LogInv.wakeup (s := ({ s with outstanding := s.outstanding - 1 }.goto p .idle).emit (.endOp p)) ?_
    exact LogInv.of_not_committing (isCommit_update_eq_false (h.not_isCommit hc) rfl) hc
      (hcount .idle rfl) (fun q => openIn_endOp h.opens rfl q) (h.commits.trans hc)
      (h.logged_of_not_committing hc) ⟨trivial, h.trace⟩

/-- The committing process changes the header or adds an event to the trace. -/
theorem LogInv.commitStep (h : LogInv s) (hp : (s.pc p).isCommit = true)
    (hopen : c.isOpen = false) {trace : List (LogEvent P)}
    (hopens : ∀ q, openIn q trace = openIn q s.trace)
    (hcommits : committingIn trace = committingIn s.trace)
    (hlogged : c.isInstall = false → ∀ b, b ∈ blocks ↔ b ∈ loggedIn trace)
    (hinstalled : c.isInstall = true → loggedIn trace = []) (hcopying : ∀ n l, c ≠ .writeLog n l)
    (hcopied : ∀ l, c ≠ .writeHead l) (htrace : TraceOk trace) :
    LogInv { s with blocks := blocks, trace := trace, pc := Function.update s.pc p c } := by
  obtain ⟨hc, honly⟩ := h.committer p hp
  have h0 := h.quiet hc
  have hopenp : (s.pc p).isOpen = false := h.not_isOpen h0 p
  have only (q : P) (hq : (Function.update s.pc p c q).isCommit = true) : q = p := by
    by_contra hqp
    rw [Function.update_of_ne hqp] at hq
    exact hqp (honly q hq)
  refine ⟨?_, ?_, hcommits.trans h.commits, h.quiet, ?_, ?_, ?_, ?_, ?_, htrace⟩
  · have hsum := sum_update_pc (fun c => c.isOpen.toNat) s.pc p c
    have hcount := h.count
    simp only [hopenp, hopen] at hsum
    change s.outstanding = ∑ q, (Function.update s.pc p c q).isOpen.toNat
    omega
  · intro q
    rw [hopens q, h.opens q, h.not_isOpen h0 q]
    by_cases hq : q = p
    · subst hq; simp [hopen]
    · simp [hq, h.not_isOpen h0 q]
  · exact fun q hq => ⟨hc, fun r hr => (only r hr).trans (only q hq).symm⟩
  · intro hno
    exact hlogged (by simpa using hno p)
  · intro q hq
    have hqp := only q (LogPc.isCommit_of_isInstall hq)
    subst hqp
    exact hinstalled (by simpa using hq)
  · intro q n l hq
    have hqp := only q (by rw [show Function.update s.pc p c q = _ from hq]; rfl)
    subst hqp
    exact absurd ((Function.update_self ..).symm.trans hq) (hcopying n l)
  · intro q l hq
    have hqp := only q (by rw [show Function.update s.pc p c q = _ from hq]; rfl)
    subst hqp
    exact absurd ((Function.update_self ..).symm.trans hq) (hcopied l)

theorem LogInv.advance (h : LogInv s) (hp : (s.pc p).isCommit = true) : LogInv (s.advance p) := by
  obtain ⟨hc, honly⟩ := h.committer p hp
  have h0 := h.quiet hc
  have hlogged (hinstall : (s.pc p).isInstall = false) : ∀ b, b ∈ s.blocks ↔ b ∈ loggedIn s.trace :=
    h.logged fun q => by
      by_contra hq
      have hq : (s.pc q).isInstall = true := by simpa using hq
      rw [honly q (LogPc.isCommit_of_isInstall hq), hinstall] at hq
      cases hq
  unfold LogState.advance
  cases hpc : s.pc p with
  | idle => exact h
  | asleep => exact h
  | woken => exact h
  | inOp _ _ => exact h
  | commitStart =>
    dsimp only
    split_ifs
    · refine h.goto ?_ ?_ ?_ ?_ ?_ <;> simp [hpc, LogPc.isOpen, LogPc.isCommit, LogPc.isInstall]
    · refine h.goto ?_ ?_ ?_ ?_ ?_ <;> simp [hpc, LogPc.isOpen, LogPc.isCommit, LogPc.isInstall]
  | writeLog n copied =>
    obtain ⟨hn, hcopied⟩ := h.copying p n copied hpc
    dsimp only
    split_ifs with hlt
    · refine h.goto (by rw [hpc]; rfl) (by rw [hpc]; rfl) (by rw [hpc]; rfl) ?_ (by simp)
      · rintro n' l' heq
        cases heq
        refine ⟨hn, ?_⟩
        rw [List.length_append, List.length_singleton, List.take_add_one, ← hcopied,
          List.getD_eq_getElem?_getD, List.getElem?_eq_getElem (hn ▸ hlt)]
        rfl
    · refine h.goto (by rw [hpc]; rfl) (by rw [hpc]; rfl) (by rw [hpc]; rfl) (by simp) ?_
      · rintro l' heq
        cases heq
        rw [hcopied, List.take_of_length_le (by omega)]
  | writeHead copied =>
    have hcopied := h.copied p copied hpc
    refine h.commitStep hp rfl (fun _ => rfl) rfl (by simp [LogPc.isInstall]) (fun _ => rfl)
      (by simp) (by simp) ⟨⟨fun q => ?_, hcopied, hlogged (by rw [hpc]; rfl)⟩, h.trace⟩
    exact (h.opens q).trans (h.not_isOpen h0 q)
  | installStart =>
    refine h.goto ?_ ?_ ?_ ?_ ?_ <;> simp [hpc, LogPc.isOpen, LogPc.isCommit, LogPc.isInstall]
  | install n tail =>
    dsimp only
    split_ifs
    · refine h.goto ?_ ?_ ?_ ?_ ?_ <;> simp [hpc, LogPc.isOpen, LogPc.isCommit, LogPc.isInstall]
    · refine h.goto ?_ ?_ ?_ ?_ ?_ <;> simp [hpc, LogPc.isOpen, LogPc.isCommit, LogPc.isInstall]
  | clear =>
    have hnone := h.installed p (by rw [hpc]; rfl)
    exact h.commitStep hp rfl (fun _ => rfl) rfl (by simp [hnone]) (by simp [LogPc.isInstall])
      (by simp) (by simp) h.trace
  | clearHead =>
    refine h.goto ?_ ?_ ?_ ?_ ?_ <;> simp [hpc, LogPc.isOpen, LogPc.isCommit, LogPc.isInstall]
  | finish =>
    refine LogInv.wakeup (s := ({ s with committing := false }.goto p .idle).emit .finishCommit) ?_
    refine LogInv.of_not_committing (fun q => ?_) rfl ?_ (fun q => ?_) rfl
      (hlogged (by rw [hpc]; rfl)) ⟨trivial, h.trace⟩
    · by_contra hq
      by_cases hqp : q = p
      · subst hqp
        simp [LogState.emit, LogPc.isCommit] at hq
      · exact hqp (honly q (by simpa [LogState.emit, hqp] using hq))
    · have hsum := sum_update_pc (fun c => c.isOpen.toNat) s.pc p .idle
      have hcount := h.count
      simp only [hpc, LogPc.isOpen] at hsum
      change s.outstanding = ∑ q, (Function.update s.pc p .idle q).isOpen.toNat
      simp only [LogPc.isOpen] at hcount ⊢
      omega
    · have hq := h.opens q
      rw [h.not_isOpen h0 q] at hq
      by_cases hqp : q = p
      · subst hqp
        simpa [LogState.emit, openIn, LogPc.isOpen] using hq
      · simpa [LogState.emit, openIn, hqp, h.not_isOpen h0 q] using hq

theorem LogInv.step (h : LogInv s) (hs : s.Step size a s') : LogInv s' := by
  unfold LogState.Step LogState.step at hs
  cases a with
  | beginOp p =>
    simp only at hs
    split_ifs at hs with hp
    cases hs
    exact h.beginOp hp
  | rouse p =>
    simp only at hs
    split_ifs at hs with hp
    cases hs
    refine h.goto ?_ ?_ ?_ ?_ ?_ <;> simp [hp, LogPc.isOpen, LogPc.isCommit, LogPc.isInstall]
  | write p b =>
    simp only at hs
    split at hs
    · rename_i hp
      exact h.write hp (Option.some.inj hs)
    · cases hs
  | endOp p =>
    simp only at hs
    split_ifs at hs with hp
    exact h.endOp hp (Option.some.inj hs)
  | commit p =>
    simp only at hs
    split_ifs at hs with hp
    cases hs
    exact h.advance hp

/-! ## Reserved space -/

/-- Every operation logs at most `MAXOPBLOCKS` distinct blocks. -/
def WithinLimit (s : LogState P) : LogAction P → Prop
  | .write p b => ∀ logged fresh, s.pc p = .inOp logged fresh → (insert b logged).card ≤ MAXOPBLOCKS
  | _ => True

/-- The header has room for what the open operations may still log. -/
structure Reserved (s : LogState P) : Prop where
  listed : ∀ p logged fresh, s.pc p = .inOp logged fresh → ∀ b ∈ logged, b ∈ s.blocks
  fresh_le : ∀ p logged fresh, s.pc p = .inOp logged fresh → fresh ≤ logged.card
  within : ∀ p logged fresh, s.pc p = .inOp logged fresh → logged.card ≤ MAXOPBLOCKS
  room : s.blocks.length + MAXOPBLOCKS * s.outstanding ≤ LOGBLOCKS + ∑ p, (s.pc p).fresh

omit [DecidableEq P] in
theorem Reserved.start : Reserved (LogState.start : LogState P) := by
  constructor <;> simp [LogState.start]

omit [DecidableEq P] in
/-- Steps that neither begin nor end an operation nor log a block keep the reservation. -/
theorem Reserved.of_same (h : Reserved s) (hfresh : ∀ q, (s'.pc q).fresh = (s.pc q).fresh)
    (hopen : ∀ q logged fresh, s'.pc q = .inOp logged fresh → s.pc q = .inOp logged fresh)
    (hblocks : s'.blocks = s.blocks) (hout : s'.outstanding = s.outstanding) : Reserved s' where
  listed := fun q l k hq => hblocks ▸ h.listed q l k (hopen q l k hq)
  fresh_le := fun q l k hq => h.fresh_le q l k (hopen q l k hq)
  within := fun q l k hq => h.within q l k (hopen q l k hq)
  room := by
    rw [hblocks, hout]
    simp only [hfresh]
    exact h.room

theorem LogPc.fresh_of_not_isOpen (h : c.isOpen = false) : c.fresh = 0 := by
  cases c <;> first | rfl | cases h

omit [Fintype P] in
theorem update_eq_inOp {q : P} (h : Function.update pc p c q = .inOp logged fresh) :
    q = p ∧ c = .inOp logged fresh ∨ q ≠ p ∧ pc q = .inOp logged fresh := by
  by_cases hq : q = p
  · subst hq
    exact Or.inl ⟨rfl, by simpa using h⟩
  · exact Or.inr ⟨hq, by rwa [Function.update_of_ne hq] at h⟩

theorem Reserved.goto (h : Reserved s) (hp : (s.pc p).isOpen = false) (hc : c.isOpen = false) :
    Reserved (s.goto p c) := by
  refine h.of_same (fun q => ?_) (fun q l k hq => ?_) rfl rfl
  · by_cases hq : q = p
    · subst hq
      simp [LogPc.fresh_of_not_isOpen hp, LogPc.fresh_of_not_isOpen hc]
    · simp [hq]
  · obtain ⟨-, rfl⟩ | ⟨-, hq⟩ := update_eq_inOp hq
    · cases hc
    · exact hq

omit [DecidableEq P] in
theorem Reserved.wakeup (h : Reserved s) : Reserved s.wakeup := by
  refine h.of_same (LogState.wakeup_pc LogPc.fresh rfl s) (fun q l k hq => ?_) rfl rfl
  unfold LogState.wakeup at hq
  by_cases hs : s.pc q = .asleep
  · simp [hs] at hq
  · simpa [hs] using hq

theorem Reserved.beginOp (h : Reserved s) (hp : s.pc p = .idle ∨ s.pc p = .woken) :
    Reserved (s.beginOp p) := by
  have hopen : (s.pc p).isOpen = false := by rcases hp with hp | hp <;> rw [hp] <;> rfl
  unfold LogState.beginOp
  split_ifs with _ hroom
  · exact h.goto hopen rfl
  · exact h.goto hopen rfl
  · refine ⟨fun q l k hq => ?_, fun q l k hq => ?_, fun q l k hq => ?_, ?_⟩
    · obtain ⟨-, heq⟩ | ⟨-, hq⟩ := update_eq_inOp hq
      · cases heq; simp
      · exact h.listed q l k hq
    · obtain ⟨-, heq⟩ | ⟨-, hq⟩ := update_eq_inOp hq
      · cases heq; simp
      · exact h.fresh_le q l k hq
    · obtain ⟨-, heq⟩ | ⟨-, hq⟩ := update_eq_inOp hq
      · cases heq; simp
      · exact h.within q l k hq
    · change s.blocks.length + MAXOPBLOCKS * (s.outstanding + 1) ≤ LOGBLOCKS + _
      rw [mul_comm]
      omega

theorem Reserved.log (h : Reserved s) {k k' : ℕ} (hp : s.pc p = .inOp logged k)
    (hcard : (insert b logged).card ≤ MAXOPBLOCKS) (hsub : ∀ x ∈ s.blocks, x ∈ blocks)
    (hb : b ∈ blocks) (hk : k' ≤ (insert b logged).card)
    (hlen : blocks.length + k = s.blocks.length + k') :
    Reserved (({ s with blocks := blocks }.goto p (.inOp (insert b logged) k')).emit
        (.write p b)) := by
  refine ⟨fun q l m hq => ?_, fun q l m hq => ?_, fun q l m hq => ?_, ?_⟩
  · obtain ⟨-, heq⟩ | ⟨-, hq⟩ := update_eq_inOp hq
    · cases heq
      intro x hx
      rcases Finset.mem_insert.1 hx with rfl | hx
      · exact hb
      · exact hsub x (h.listed p logged k hp x hx)
    · exact fun x hx => hsub x (h.listed q l m hq x hx)
  · obtain ⟨-, heq⟩ | ⟨-, hq⟩ := update_eq_inOp hq
    · cases heq; exact hk
    · exact h.fresh_le q l m hq
  · obtain ⟨-, heq⟩ | ⟨-, hq⟩ := update_eq_inOp hq
    · cases heq; exact hcard
    · exact h.within q l m hq
  · have hsum := sum_update_pc LogPc.fresh s.pc p (.inOp (insert b logged) k')
    have hroom := h.room
    simp only [hp, LogPc.fresh] at hsum
    change blocks.length + MAXOPBLOCKS * s.outstanding ≤
      LOGBLOCKS + ∑ q, (Function.update s.pc p (.inOp (insert b logged) k') q).fresh
    simp only [LogPc.fresh] at hroom ⊢
    omega

theorem Reserved.write {k : ℕ} (h : Reserved s) (hp : s.pc p = .inOp logged k)
    (hcard : (insert b logged).card ≤ MAXOPBLOCKS) (hs : s.write size p b logged k = .ok s') :
    Reserved s' := by
  have hk := h.fresh_le p logged k hp
  unfold LogState.write at hs
  split_ifs at hs with _ _ hb
  · cases hs
    refine h.log hp hcard (fun _ hx => hx) hb (hk.trans ?_) rfl
    exact Finset.card_le_card (Finset.subset_insert b logged)
  · cases hs
    refine h.log hp hcard (by simp +contextual) (by simp) ?_ ?_
    · rw [Finset.card_insert_of_notMem fun hmem => hb (h.listed p logged k hp b hmem)]
      omega
    · rw [List.length_append, List.length_singleton]
      omega

theorem Reserved.endOp (h : Reserved s) (hinv : LogInv s) (hp : (s.pc p).isOpen = true)
    (hs : s.endOp p = .ok s') : Reserved s' := by
  have hpos := hinv.outstanding_pos hp
  have hfresh : (s.pc p).fresh ≤ MAXOPBLOCKS := by
    cases hpc : s.pc p with
    | inOp l k => exact (h.fresh_le p l k hpc).trans (h.within p l k hpc)
    | _ => exact Nat.zero_le _
  -- whether or not a commit follows, the operation gives back what it reserved
  have hclose (c : LogPc) (hc : c.isOpen = false) (committing : Bool) :
      Reserved ({ s with outstanding := s.outstanding - 1, committing := committing }.goto p c) := by
    refine ⟨fun q l k hq => ?_, fun q l k hq => ?_, fun q l k hq => ?_, ?_⟩
    · obtain ⟨-, rfl⟩ | ⟨-, hq⟩ := update_eq_inOp hq
      · cases hc
      · exact h.listed q l k hq
    · obtain ⟨-, rfl⟩ | ⟨-, hq⟩ := update_eq_inOp hq
      · cases hc
      · exact h.fresh_le q l k hq
    · obtain ⟨-, rfl⟩ | ⟨-, hq⟩ := update_eq_inOp hq
      · cases hc
      · exact h.within q l k hq
    · have hsum := sum_update_pc LogPc.fresh s.pc p c
      have hroom := h.room
      rw [LogPc.fresh_of_not_isOpen hc] at hsum
      change s.blocks.length + MAXOPBLOCKS * (s.outstanding - 1) ≤ LOGBLOCKS + ∑ q, (Function.update s.pc p c q).fresh
      rw [Nat.mul_sub_one]
      have hmul : MAXOPBLOCKS ≤ MAXOPBLOCKS * s.outstanding := Nat.le_mul_of_pos_right _ hpos
      omega
  unfold LogState.endOp at hs
  split_ifs at hs
  · cases hs
    have hres := hclose .commitStart rfl true
    exact ⟨hres.listed, hres.fresh_le, hres.within, hres.room⟩
  · cases hs
    have hres := (hclose .idle rfl s.committing).wakeup
    exact ⟨hres.listed, hres.fresh_le, hres.within, hres.room⟩

theorem Reserved.advance (h : Reserved s) (hinv : LogInv s) (hp : (s.pc p).isCommit = true) :
    Reserved (s.advance p) := by
  have h0 := hinv.quiet (hinv.committer p hp).1
  have hopen := hinv.not_isOpen h0 p
  unfold LogState.advance
  cases hpc : s.pc p with
  | idle => exact h
  | asleep => exact h
  | woken => exact h
  | inOp _ _ => exact h
  | commitStart => dsimp only; split_ifs <;> exact h.goto hopen rfl
  | writeLog n copied => dsimp only; split_ifs <;> exact h.goto hopen rfl
  | writeHead copied =>
    have hres := h.goto (c := .installStart) hopen rfl
    exact ⟨hres.listed, hres.fresh_le, hres.within, hres.room⟩
  | installStart => exact h.goto hopen rfl
  | install n tail => dsimp only; split_ifs <;> exact h.goto hopen rfl
  | clear =>
    have hno (q : P) (l : Finset ℕ) (k : ℕ) (hq : Function.update s.pc p .clearHead q = .inOp l k) : False := by
      obtain ⟨-, heq⟩ | ⟨-, hq⟩ := update_eq_inOp hq
      · cases heq
      · have := hinv.not_isOpen h0 q
        rw [hq] at this
        cases this
    refine ⟨fun q l k hq => (hno q l k hq).elim, fun q l k hq => (hno q l k hq).elim,
      fun q l k hq => (hno q l k hq).elim, ?_⟩
    change 0 + MAXOPBLOCKS * s.outstanding ≤ LOGBLOCKS + _
    rw [h0]
    exact Nat.zero_le _
  | clearHead => exact h.goto hopen rfl
  | finish =>
    have hres := (h.goto (c := .idle) hopen rfl).wakeup
    exact ⟨hres.listed, hres.fresh_le, hres.within, hres.room⟩

theorem Reserved.step (h : Reserved s) (hinv : LogInv s) (hlimit : WithinLimit s a)
    (hs : s.Step size a s') : Reserved s' := by
  unfold LogState.Step LogState.step at hs
  cases a with
  | beginOp p =>
    simp only at hs
    split_ifs at hs with hp
    cases hs
    exact h.beginOp hp
  | rouse p =>
    simp only at hs
    split_ifs at hs with hp
    cases hs
    exact h.goto (by rw [hp]; rfl) rfl
  | write p b =>
    simp only at hs
    split at hs
    · rename_i hp
      exact h.write hp (hlimit _ _ hp) (Option.some.inj hs)
    · cases hs
  | endOp p =>
    simp only at hs
    split_ifs at hs with hp
    exact h.endOp hinv hp (Option.some.inj hs)
  | commit p =>
    simp only at hs
    split_ifs at hs with hp
    cases hs
    exact h.advance hinv hp

/-! ## Every interleaving -/

theorem LogInv.reachable (h : Reachable (· = LogState.start) (LogState.Step size) s) : LogInv s :=
  h.invariant (I := LogInv) (by rintro _ rfl; exact LogInv.start) fun _ _ _ hi hs => hi.step hs

theorem Reserved.reachable
    (h : Reachable (· = LogState.start) (Guarded WithinLimit (LogState.Step size)) s) :
    LogInv s ∧ Reserved s := by
  refine h.invariant (I := fun s => LogInv s ∧ Reserved s) ?_ ?_
  · rintro _ rfl
    exact ⟨LogInv.start, Reserved.start⟩
  · rintro s a s' ⟨hinv, hres⟩ ⟨hlimit, hstep⟩
    exact ⟨hinv.step hstep, hres.step hinv hlimit hstep⟩

theorem LogInv.no_logCommitting (h : LogInv s) (a : LogAction P) :
    s.step size a ≠ some (.error .logCommitting) := by
  intro hs
  unfold LogState.step at hs
  cases a with
  | beginOp p => simp only at hs; split_ifs at hs; cases hs
  | rouse p => simp only at hs; split_ifs at hs; cases hs
  | write p b =>
    simp only [LogState.write] at hs
    split at hs
    · split_ifs at hs <;> cases hs
    · cases hs
  | endOp p =>
    simp only [LogState.endOp] at hs
    split_ifs at hs with hp hc
    · rw [h.not_committing hp] at hc
      cases hc
    all_goals cases hs
  | commit p => simp only at hs; split_ifs at hs; cases hs

theorem LogInv.outstanding_eq_card (h : LogInv s) :
    s.outstanding = (Finset.univ.filter fun p => openIn p s.trace = true).card := by
  rw [h.count, Finset.card_filter]
  refine Finset.sum_congr rfl fun p _ => ?_
  rw [h.opens p]
  cases (s.pc p).isOpen <;> rfl

end Invariant

/-- **Transactions are neither split nor mixed**, under every interleaving of any number of
processes. In every reachable state the trace is in order: a commit started only when no operation
was open, no operation began during a commit, and every batch consisted of the blocks logged since
the last one, at a time when no operation was open (`TraceOk`), so no operation has blocks in two
batches (`OpsWhole`). No process can reach the 'log committing' panic. If moreover every operation
logs at most `MAXOPBLOCKS` distinct blocks, the header has room for what the open operations may
still log. -/
theorem transactions_whole {P : Type} [DecidableEq P] [Fintype P] (size : ℕ) :
    (∀ s : LogState P, Reachable (· = LogState.start) (LogState.Step size) s →
      TraceOk s.trace ∧ OpsWhole s.trace ∧
      s.outstanding = (Finset.univ.filter fun p => openIn p s.trace = true).card ∧
      s.committing = committingIn s.trace ∧ (s.committing = true → s.outstanding = 0) ∧
      ∀ a, s.step size a ≠ some (.error .logCommitting)) ∧
    ∀ s : LogState P,
      Reachable (· = LogState.start) (Guarded WithinLimit (LogState.Step size)) s →
      s.blocks.length + MAXOPBLOCKS * s.outstanding - ∑ p, (s.pc p).fresh ≤ LOGBLOCKS := by
  refine ⟨fun s hs => ?_, fun s hs => ?_⟩
  · have h := LogInv.reachable hs
    exact ⟨h.trace, h.trace.opsWhole, h.outstanding_eq_card, h.commits.symm, h.quiet, h.no_logCommitting⟩
  · have hroom := (Reserved.reachable hs).2.room
    omega

/-- Two processes log a block each, and the batch of both is committed. -/
theorem transactions_whole_committed : ∃ s : LogState (Fin 2),
    Reachable (· = LogState.start) (Guarded WithinLimit (LogState.Step 31)) s ∧
      s.trace.head? = some (.commit [7, 9] [7, 9]) ∧ TraceOk s.trace ∧
      s.blocks.length + MAXOPBLOCKS * s.outstanding - ∑ p, (s.pc p).fresh ≤ LOGBLOCKS := by
  have hlogged : Reachable (· = LogState.start) (Guarded WithinLimit (LogState.Step 31)) _ :=
    .step (l := .write (1 : Fin 2) 9) (.step (l := .write 0 7) (.step (l := .beginOp 1)
      (.step (l := .beginOp 0) (.init rfl) ⟨trivial, rfl⟩) ⟨trivial, rfl⟩)
      ⟨fun logged fresh heq => by cases heq; decide, rfl⟩) ⟨fun logged fresh heq => by cases heq; decide, rfl⟩
  have hrun : Reachable (· = LogState.start) (Guarded WithinLimit (LogState.Step 31)) _ :=
    .step (l := .commit (1 : Fin 2)) (.step (l := .commit 1) (.step (l := .commit 1) (.step (l := .commit 1)
      (.step (l := .commit 1) (.step (l := .endOp 1) (.step (l := .endOp 0) hlogged ⟨trivial, rfl⟩) ⟨trivial, rfl⟩)
        ⟨trivial, rfl⟩) ⟨trivial, rfl⟩) ⟨trivial, rfl⟩) ⟨trivial, rfl⟩) ⟨trivial, rfl⟩
  have hall := transactions_whole (P := Fin 2) 31
  exact ⟨_, hrun, rfl, (hall.1 _ (hrun.mono fun _ _ _ h => h.2)).1, hall.2 _ hrun⟩

end Model

end Octopos
