import Octopos.Lib.Run
import Octopos.Sched.Table

/-!
# The pass on several CPUs

What `stride_scheduler` and the calls around it do to the passes and strides, on any number of CPUs.
A step is what happens under the lock of one process. `min_pass` takes the locks one after the other
while the other CPUs go on, so what its scans return is left open and stands in the labels.

The overflow test is made before the switch to the process. It covers the update after the switch
unless the process has set fewer tickets in between (`pass_update_fits`).
-/

namespace Octopos

open Function

/-- Where a CPU stands: in the loop of `stride_scheduler`, in its normalization with the smallest
pass found and the next slot, or in a process. -/
inductive Cpu
  | scheduler
  | normalizing (baseline next : ℕ)
  | running (i : ProcId)
  deriving DecidableEq, Repr

structure Smp (n : ℕ) where
  table : ProcId → ProcInner
  cpus : Fin n → Cpu

/-- How a process gives up its CPU. -/
inductive Leave
  | yield
  | sleep (ch : Channel)
  | exit (status : ℤ)
  deriving DecidableEq, Repr

def Leave.set : Leave → ProcInner → ProcInner
  | yield, p => { p with state := .runnable }
  | sleep ch, p => { p with channel := some ch, state := .sleeping }
  | exit status, p => { p with xstate := status, state := .zombie }

/-- Back in `stride_scheduler` after `swtch`. -/
def leaveProc (p : ProcInner) : ProcInner :=
  { p with pass := (p.pass + p.stride) % USIZE, nSchedule := p.nSchedule + 1 }

/-- What else is done to a slot: the end of `sleep`, `wakeup` and `kill`, `Proc::free` in `wait` and
after a failed `fork`, and the two ends of `fork`, which alone knows a slot in state `Used`. -/
inductive Touch
  | awake
  | wakeup (ch : Channel) (baseline : Option ℕ)
  | kill
  | free
  | alloc (pid : ℕ)
  | start (pass : ℕ)
  deriving DecidableEq, Repr

def Touch.apply : Touch → ProcInner → Option ProcInner
  | awake, p => if p.state = .running then some { p with channel := none } else none
  | wakeup ch baseline, p => some (wakeProc baseline ch p)
  | kill, p => some (killProc p)
  | free, p => if p.state = .zombie ∨ p.state = .used then some (freeProc p) else none
  | alloc pid, p => if p.state = .unused then some (allocProc pid p) else none
  | start pass, p => if p.state = .used then some { p with pass := pass, state := .runnable } else none

inductive SmpAction (n : ℕ)
  | dispatch (c : Fin n) (i : ProcId)
  | overflow (c : Fin n) (i : ProcId) (baseline : ℕ)
  | normalize (c : Fin n)
  | setTickets (c : Fin n) (tickets : ℕ)
  | leave (c : Fin n) (how : Leave)
  | touch (i : ProcId) (t : Touch)

inductive SmpStep {n : ℕ} : Smp n → SmpAction n → Smp n → Prop
  | dispatch {s c i} (hc : s.cpus c = .scheduler) (hi : (s.table i).state = .runnable)
      (hfit : checkedAdd (s.table i).pass (s.table i).stride ≠ none) :
      SmpStep s (.dispatch c i)
        { table := update s.table i { s.table i with state := .running }
          cpus := update s.cpus c (.running i) }
  | overflow {s c i} (b : ℕ) (hc : s.cpus c = .scheduler) (hi : (s.table i).state = .runnable)
      (hover : checkedAdd (s.table i).pass (s.table i).stride = none) :
      SmpStep s (.overflow c i b) { s with cpus := update s.cpus c (.normalizing b 0) }
  | normalize {s c b k} (hc : s.cpus c = .normalizing b k) (hk : k < NPROC) :
      SmpStep s (.normalize c)
        { table := update s.table ⟨k, hk⟩ { s.table ⟨k, hk⟩ with pass := (s.table ⟨k, hk⟩).pass - b }
          cpus := update s.cpus c (.normalizing b (k + 1)) }
  | normalized {s c b} (hc : s.cpus c = .normalizing b NPROC) :
      SmpStep s (.normalize c) { s with cpus := update s.cpus c .scheduler }
  | setTickets {s c i tickets q} (hc : s.cpus c = .running i)
      (hq : Octopos.setTickets (s.table i) tickets = some q) :
      SmpStep s (.setTickets c tickets) { s with table := update s.table i q }
  | leave {s c i} (how : Leave) (hc : s.cpus c = .running i) :
      SmpStep s (.leave c how)
        { table := update s.table i (leaveProc (how.set (s.table i)))
          cpus := update s.cpus c .scheduler }
  | touch {s i t q} (hq : Touch.apply t (s.table i) = some q) :
      SmpStep s (.touch i t) { s with table := update s.table i q }

/-- The slot of init after `user_init`. -/
def bootProc : ProcInner := { allocProc 1 {} with state := .runnable }

def SmpBoot {n : ℕ} (s : Smp n) : Prop :=
  s = ⟨update (fun _ => {}) initProc bootProc, fun _ => .scheduler⟩

/-- A running process that sets its tickets has room for the new stride. -/
def Smp.Covered {n : ℕ} (s : Smp n) : SmpAction n → Prop
  | .setTickets c tickets => ∀ i q, s.cpus c = .running i → setTickets (s.table i) tickets = some q →
      q.pass + q.stride < USIZE
  | _ => True

structure Smp.Fits {n : ℕ} (s : Smp n) : Prop where
  state : ∀ {c i}, s.cpus c = .running i → (s.table i).state = .running
  alone : ∀ {c d i}, s.cpus c = .running i → s.cpus d = .running i → c = d
  fits : ∀ {c i}, s.cpus c = .running i → (s.table i).pass + (s.table i).stride < USIZE

section Smp

variable {n : ℕ} {s s' : Smp n} {a : SmpAction n} {c : Fin n} {i : ProcId} {q : ProcInner}

theorem Touch.apply_running {t : Touch} {p : ProcInner} (h : t.apply p = some q)
    (hp : p.state = .running) : q.state = .running ∧ q.pass = p.pass ∧ q.stride = p.stride := by
  cases t <;> simp [Touch.apply, wakeProc, killProc, hp] at h <;> subst h <;> simp [hp]

theorem Smp.Fits.slot (h : s.Fits)
    (hq : ∀ c, s.cpus c = .running i → q.state = .running ∧ q.pass + q.stride < USIZE) :
    Smp.Fits { s with table := update s.table i q } := by
  refine ⟨fun {c j} hc => ?_, h.alone, fun {c j} hc => ?_⟩ <;> rcases eq_or_ne j i with rfl | hne
  · simpa using (hq c hc).1
  · simpa [hne] using h.state hc
  · simpa using (hq c hc).2
  · simpa [hne] using h.fits hc

theorem Smp.Fits.cpu (h : s.Fits) {x : Cpu} (hx : ∀ i, x ≠ .running i) :
    Smp.Fits { s with cpus := update s.cpus c x } := by
  have hold {d j} (hd : update s.cpus c x d = .running j) : s.cpus d = .running j := by
    rcases eq_or_ne d c with rfl | hne
    · rw [update_self] at hd
      exact absurd hd (hx j)
    · rwa [update_of_ne hne] at hd
  exact ⟨fun hc => h.state (hold hc), fun hc hd => h.alone (hold hc) (hold hd), fun hc => h.fits (hold hc)⟩

theorem Smp.Fits.run (h : s.Fits) (hno : ∀ d, s.cpus d ≠ .running i)
    (hi : (s.table i).state = .running) (hfit : (s.table i).pass + (s.table i).stride < USIZE) :
    Smp.Fits { s with cpus := update s.cpus c (.running i) } := by
  have hold {d j} (hd : update s.cpus c (.running i) d = .running j) :
      (d = c ∧ j = i) ∨ (s.cpus d = .running j ∧ j ≠ i) := by
    rcases eq_or_ne d c with rfl | hne
    · rw [update_self] at hd
      exact .inl ⟨rfl, (Cpu.running.inj hd).symm⟩
    · rw [update_of_ne hne] at hd
      exact .inr ⟨hd, fun hj => hno d (hj ▸ hd)⟩
  refine ⟨fun hd => ?_, fun hd he => ?_, fun hd => ?_⟩
  · rcases hold hd with ⟨-, rfl⟩ | ⟨hd, -⟩
    · exact hi
    · exact h.state hd
  · rcases hold hd with ⟨rfl, rfl⟩ | ⟨hd, hj⟩ <;> rcases hold he with ⟨rfl, hj'⟩ | ⟨he, hj'⟩
    · rfl
    · exact absurd rfl hj'
    · exact absurd hj' hj
    · exact h.alone hd he
  · rcases hold hd with ⟨-, rfl⟩ | ⟨hd, -⟩
    · exact hfit
    · exact h.fits hd

theorem Smp.Fits.step (h : s.Fits) (hs : Guarded Smp.Covered SmpStep s a s') : s'.Fits := by
  obtain ⟨hcov, hs⟩ := hs
  cases hs with
  | @dispatch c i hc hi hfit =>
    have hno : ∀ d, s.cpus d ≠ .running i := fun d hd => by
      rw [h.state hd] at hi
      cases hi
    have hroom : (s.table i).pass + (s.table i).stride < USIZE := by
      by_contra hover
      exact hfit (if_neg hover)
    refine Smp.Fits.run (h.slot fun c hc => absurd hc (hno c)) hno ?_ ?_ <;> simp [hroom]
  | overflow b hc hi hover => exact h.cpu fun i => by simp
  | @normalize c b k hc hk =>
    have hslot : Smp.Fits { s with
        table := update s.table ⟨k, hk⟩ { s.table ⟨k, hk⟩ with pass := (s.table ⟨k, hk⟩).pass - b } } := by
      refine h.slot fun c hc => ⟨h.state hc, ?_⟩
      have := h.fits hc
      dsimp only
      omega
    exact hslot.cpu fun i => by simp
  | normalized hc => exact h.cpu fun i => by simp
  | setTickets hc hq =>
    refine h.slot fun d hd => ⟨?_, hcov _ _ hc hq⟩
    unfold Octopos.setTickets at hq
    split_ifs at hq
    cases hq
    exact h.state hc
  | @leave c i how hc =>
    -- only this CPU ran the process
    have hcpu : Smp.Fits { s with cpus := update s.cpus c .scheduler } := h.cpu fun i => by simp
    refine hcpu.slot fun d hd => ?_
    rcases eq_or_ne d c with rfl | hne
    · simp at hd
    · exact absurd (h.alone (by simpa [hne] using hd) hc) hne
  | touch hq =>
    refine h.slot fun c hc => ?_
    obtain ⟨hstate, hpass, hstride⟩ := Touch.apply_running hq (h.state hc)
    exact ⟨hstate, by rw [hpass, hstride]; exact h.fits hc⟩

/-- As long as a process that sets its tickets has room for its new stride, the update of the pass
after a switch does not overflow; and one that has no room overflows with its next return to the
scheduler. -/
theorem pass_update_fits (h : Reachable SmpBoot (Guarded Smp.Covered SmpStep) s) :
    (∀ c how s', SmpStep s (.leave c how) s' → ∃ i, s.cpus c = .running i ∧
      (s.table i).pass + (s.table i).stride < USIZE ∧
      (s'.table i).pass = (s.table i).pass + (s.table i).stride) ∧
    ∀ a s', SmpStep s a s' → ¬s.Covered a → ∃ c i, s'.cpus c = .running i ∧
      USIZE ≤ (s'.table i).pass + (s'.table i).stride := by
  have hfits : s.Fits := by
    refine h.invariant (fun s hs => ?_) fun _ _ _ hs => hs.step
    subst hs
    exact ⟨nofun, nofun, nofun⟩
  refine ⟨fun c how s' hs => ?_, fun a s' hs hcov => ?_⟩
  · cases hs with
    | @leave _ i _ hc =>
      have hfit := hfits.fits hc
      refine ⟨i, hc, hfit, ?_⟩
      cases how <;> simp [leaveProc, Leave.set, Nat.mod_eq_of_lt hfit]
  · cases hs with
    | @setTickets c i _ q hc hq =>
      refine ⟨c, i, hc, ?_⟩
      simp only [Smp.Covered, not_forall, not_lt] at hcov
      obtain ⟨j, r, hj, hr, hover⟩ := hcov
      cases hj.symm.trans hc
      cases hr.symm.trans hq
      simpa using hover
    | _ => exact absurd trivial hcov

end Smp

/-! ## One process alone -/

/-- Only init, on one CPU. -/
def solo (p : ProcInner) (x : Cpu) : Smp 1 := ⟨update (fun _ => {}) initProc p, fun _ => x⟩

theorem update_cpu (x y : Cpu) : update (fun _ : Fin 1 => x) 0 y = fun _ => y := by
  funext c
  rw [Subsingleton.elim c 0, update_self]

section Solo

variable {p q : ProcInner}

theorem solo_dispatch (hp : p.state = .runnable) (hfit : p.pass + p.stride < USIZE) :
    SmpStep (solo p .scheduler) (.dispatch 0 initProc)
      (solo { p with state := .running } (.running initProc)) := by
  have h := SmpStep.dispatch (s := solo p .scheduler) (c := 0) (i := initProc) rfl
    (by simpa [solo] using hp) (by simp [solo, checkedAdd, hfit])
  simpa [solo, update_cpu] using h

theorem solo_setTickets {t : ℕ} (hq : setTickets p t = some q) :
    SmpStep (solo p (.running initProc)) (.setTickets 0 t) (solo q (.running initProc)) := by
  have h := SmpStep.setTickets (s := solo p (.running initProc)) (c := 0) (i := initProc) rfl
    (by simpa [solo] using hq)
  simpa [solo] using h

theorem solo_yield : SmpStep (solo p (.running initProc)) (.leave 0 .yield)
    (solo (leaveProc { p with state := .runnable }) .scheduler) := by
  have h := SmpStep.leave (s := solo p (.running initProc)) (c := 0) (i := initProc) .yield rfl
  simpa [solo, update_cpu, Leave.set] using h

theorem solo_climbs (k : ℕ) (hk : 24024 * (k + 1) < USIZE) :
    ∃ p, Reachable SmpBoot SmpStep (solo p .scheduler) ∧ p.state = .runnable ∧ p.stride = 24024 ∧
    p.pass = 24024 * (k + 1) := by
  induction k with
  | zero =>
    have hboot : Reachable SmpBoot SmpStep (solo bootProc .scheduler) := .init rfl
    exact ⟨_, .step (.step (.step hboot (solo_dispatch rfl (by decide))) (solo_setTickets (t := 150) rfl))
      solo_yield, rfl, rfl, rfl⟩
  | succ k ih =>
    obtain ⟨p, hp, hstate, hstride, hpass⟩ := ih (by omega)
    have hfit : p.pass + p.stride < USIZE := by omega
    refine ⟨_, .step (.step hp (solo_dispatch hstate hfit)) solo_yield, rfl, hstride, ?_⟩
    simp only [leaveProc]
    rw [Nat.mod_eq_of_lt hfit, hstride, hpass]
    ring

/-- Init has climbed to the last pass that the test accepts for 150 tickets, is dispatched, and sets
10 tickets. -/
theorem pass_update_overflows : ∃ s : Smp 1, Reachable SmpBoot SmpStep s ∧
    s.cpus 0 = .running initProc ∧ USIZE ≤ (s.table initProc).pass + (s.table initProc).stride := by
  obtain ⟨p, hp, hstate, hstride, hpass⟩ := solo_climbs 767846489914648 (by decide)
  have hfit : p.pass + p.stride < USIZE := by
    rw [hpass, hstride]
    decide
  refine ⟨_, .step (.step hp (solo_dispatch hstate hfit)) (solo_setTickets (t := 10) rfl), rfl, ?_⟩
  simp only [solo, update_self, hpass]
  decide

/-- Init sets 150 tickets when it runs for the second time. -/
theorem pass_update_fits_tickets : ∃ s : Smp 1, Reachable SmpBoot (Guarded Smp.Covered SmpStep) s ∧
    s.cpus 0 = .running initProc ∧ (s.table initProc).stride = 24024 ∧ 0 < (s.table initProc).pass ∧
    (s.table initProc).pass + (s.table initProc).stride < USIZE := by
  have h : Reachable SmpBoot (Guarded Smp.Covered SmpStep) _ := .step (l := .setTickets 0 150)
    (.step (l := .dispatch 0 initProc) (.step (l := .leave 0 .yield) (.step (l := .dispatch 0 initProc)
      (.init (s := solo bootProc .scheduler) rfl) ⟨trivial, solo_dispatch rfl (by decide)⟩)
      ⟨trivial, solo_yield⟩) ⟨trivial, solo_dispatch rfl (by decide)⟩)
    ⟨fun i q hi hq => by cases hi; cases hq; decide, solo_setTickets rfl⟩
  obtain ⟨i, hi, hfit, -⟩ := (pass_update_fits h).1 _ _ _ solo_yield
  cases hi
  exact ⟨_, h, rfl, rfl, by decide, hfit⟩

end Solo

end Octopos
