import Octopos.Lib.Run
import Octopos.Sched.Table

/-!
# Virtual time

`yield`, and `wakeup` whenever some process is runnable or running, never make a process runnable
with a pass below the last dispatched one. Three places can: `kill`; a `wakeup` from an interrupt
taken while the CPU is idle, which has no baseline; and the end of `fork`, which uses a pass read
before the parent was preempted. So virtual time can fall (`idle_wakeup_backwards`), but not in a
run where these three hand out no such pass (`trace_monotone`).
-/

namespace Octopos

open Function

/-- The pass of the last dispatched process, at its dispatch. -/
def Kernel.lastPass (s : Kernel) : ℕ :=
  match s.trace with
  | [] => 0
  | (_, pass) :: _ => pass

/-- Every dispatched process had at least the pass of the one dispatched just before it. -/
def Kernel.Monotone (s : Kernel) : Prop := s.trace.IsChain fun d e => e.2 ≤ d.2

/-- A machine that has not dispatched a process yet. -/
structure Boot (s : Kernel) : Prop where
  idle : s.current = none
  trace : s.trace = []
  forks : ∀ i, s.forks i = none
  running : ∀ i, (s.table i).state ≠ .running

/-- The scheduler is about to normalize the passes. -/
def Kernel.normalizes (s : Kernel) : Bool :=
  match minPass s.table [.runnable] with
  | none => false
  | some (i, _) => (checkedAdd (s.table i).pass (s.table i).stride).isNone

/-- The steps of a run without overflow normalization. -/
def noNormalization (s : Kernel) (a : Action) : Bool := a ≠ .schedule || !s.normalizes

/-- The three steps that may hand out a pass below the last dispatched one do not: `kill` on a
sleeper, `wakeup` on an idle CPU with nothing runnable, and the end of `fork`. -/
def KeepsUp (s : Kernel) : Action → Prop
  | .kill pid => ∀ i, s.findPid pid = some i → (s.table i).state = .sleeping →
      s.lastPass ≤ (s.table i).pass
  | .wakeup ch => s.current = none → (∀ i, (s.table i).state ≠ .runnable) →
      ∀ i, (s.table i).state = .sleeping → (s.table i).channel = some ch →
        s.lastPass ≤ (s.table i).pass
  | .forkEnd => ∀ i f, s.current = some i → s.forks i = some f →
      s.lastPass ≤ f.best.getD f.parentPass
  | _ => True

/-- No runnable process is behind the last dispatched one, and the running process still has the
pass it was dispatched with. -/
structure Ordered (s : Kernel) : Prop where
  running : ∀ i, (s.table i).state = .running ↔ s.current = some i
  current : ∀ c, s.current = some c →
    (s.table c).pass = s.lastPass ∧ (s.table c).pass + (s.table c).stride < USIZE
  runnable : ∀ i, (s.table i).state = .runnable → s.lastPass ≤ (s.table i).pass
  chain : s.Monotone
  forkUsed : ∀ p f, s.forks p = some f → (s.table f.child).state = .used
  forkInj : ∀ p q f g, s.forks p = some f → s.forks q = some g → f.child = g.child → p = q

theorem Ordered.of_boot {s : Kernel} (h : Boot s) : Ordered s where
  running i := by simp [h.idle, h.running]
  current c hc := by simp [h.idle] at hc
  runnable i _ := by simp [Kernel.lastPass, h.trace]
  chain := by simp [Kernel.Monotone, h.trace]
  forkUsed p f hf := by simp [h.forks] at hf
  forkInj p q f g hf := by simp [h.forks] at hf

/-- A slot is left alone, or a sleeper in it becomes runnable with a pass of at least `q`. -/
def Woken (q : ℕ) (p p' : ProcInner) : Prop :=
  (p'.state = p.state ∧ p'.pass = p.pass ∧ p'.stride = p.stride) ∨
    (p.state = .sleeping ∧ p'.state = .runnable ∧ q ≤ p'.pass)

theorem Woken.refl (q : ℕ) (p : ProcInner) : Woken q p p := .inl ⟨rfl, rfl, rfl⟩

theorem Ordered.of_woken {s s' : Kernel} (h : Ordered s) (hc : s'.current = s.current)
    (ht : s'.trace = s.trace) (hf : s'.forks = s.forks)
    (hw : ∀ i, Woken s.lastPass (s.table i) (s'.table i)) : Ordered s' := by
  have hlast : s'.lastPass = s.lastPass := by simp [Kernel.lastPass, ht]
  refine ⟨?_, ?_, ?_, ?_, ?_, ?_⟩
  · intro i
    rw [hc, ← h.running i]
    rcases hw i with ⟨hst, -, -⟩ | ⟨hsl, hr, -⟩
    · rw [hst]
    · simp [hsl, hr]
  · intro c hcc
    rw [hc] at hcc
    have hrun := (h.running c).2 hcc
    rcases hw c with ⟨-, hp, hs⟩ | ⟨hsl, -, -⟩
    · rw [hp, hs, hlast]
      exact h.current c hcc
    · simp [hrun] at hsl
  · intro i hi
    rw [hlast]
    rcases hw i with ⟨hst, hp, -⟩ | ⟨-, -, hle⟩
    · rw [hp]
      exact h.runnable i (hst ▸ hi)
    · exact hle
  · simpa [Kernel.Monotone, ht] using h.chain
  · intro p f hpf
    rw [hf] at hpf
    have hused := h.forkUsed p f hpf
    rcases hw f.child with ⟨hst, -, -⟩ | ⟨hsl, -, -⟩
    · rw [hst, hused]
    · simp [hused] at hsl
  · intro p q f g hpf hqg
    rw [hf] at hpf hqg
    exact h.forkInj p q f g hpf hqg

section Steps

variable {s : Kernel} {c : ProcId}

theorem Ordered.baseline_ge (h : Ordered s) {b : ℕ} (hb : s.baseline = some b) :
    s.lastPass ≤ b := by
  unfold Kernel.baseline at hb
  split at hb
  · rename_i i q hm
    obtain ⟨hi, rfl, -⟩ := minPass_eq_some hm
    cases hb
    exact h.runnable i (by simpa using hi)
  · obtain ⟨c, hc, rfl⟩ := Option.map_eq_some_iff.1 hb
    exact (h.current c hc).1.ge

theorem baseline_eq_none (hb : s.baseline = none) :
    s.current = none ∧ ∀ i, (s.table i).state ≠ .runnable := by
  unfold Kernel.baseline at hb
  split at hb
  · simp at hb
  · rename_i hm
    exact ⟨by simpa using hb, fun i => by simpa using minPass_eq_none.1 hm i⟩

section

variable (h : Ordered s)
include h

theorem Ordered.wakeup {ch : Channel} (hk : KeepsUp s (.wakeup ch)) : Ordered (s.wakeup ch) := by
  refine h.of_woken rfl rfl rfl fun i => ?_
  simp only [Kernel.wakeup, wakeProc]
  split_ifs with hcur hsl
  · exact .refl _ _
  · rcases hb : s.baseline with _ | b
    · obtain ⟨hidle, hnone⟩ := baseline_eq_none hb
      exact .inr ⟨hsl.1, rfl, hk hidle hnone i hsl.1 hsl.2⟩
    · exact .inr ⟨hsl.1, rfl, (h.baseline_ge hb).trans (le_max_right _ _)⟩
  · exact .refl _ _

theorem Ordered.kill {pid : ℕ} (hk : KeepsUp s (.kill pid)) : Ordered (s.kill pid) := by
  unfold Kernel.kill
  split
  · rename_i v hv
    refine h.of_woken rfl rfl rfl fun i => ?_
    by_cases hi : i = v
    · subst hi
      rw [setProc_self, killProc]
      split_ifs with hsl
      · exact .inr ⟨hsl, rfl, hk i hv hsl⟩
      · exact .inl ⟨rfl, rfl, rfl⟩
    · rw [setProc_table_ne _ _ _ _ hi]
      exact .refl _ _
  · exact h

/-- The running process goes back to the scheduler in a state other than `Running` or `Used`. -/
theorem Ordered.leave (hc : s.current = some c) {p : ProcInner}
    (hpass : p.pass = (s.table c).pass) (hstride : p.stride = (s.table c).stride)
    (hst : p.state ≠ .running) : Ordered ((s.setProc c p).leave c) := by
  obtain ⟨hlast, hfit⟩ := h.current c hc
  have hne : ∀ i, i ≠ c → ((s.setProc c p).leave c).table i = s.table i := by
    intro i hi
    simp [hi]
  have hkeep : ((s.setProc c p).leave c).lastPass = s.lastPass := rfl
  refine ⟨?_, ?_, ?_, h.chain, ?_, h.forkInj⟩
  · intro i
    by_cases hi : i = c
    · subst hi; simp [hst]
    · have hcur : s.current ≠ some i := by simpa [hc] using Ne.symm hi
      simp [hne i hi, h.running, hcur]
  · intro d hd
    simp [Kernel.leave] at hd
  · intro i hi
    rw [hkeep]
    by_cases hic : i = c
    · subst hic
      rw [leave_pass_self, setProc_self, hpass, hstride, Nat.mod_eq_of_lt hfit]
      omega
    · rw [hne i hic] at hi ⊢
      exact h.runnable i hi
  · intro q f hqf
    have hused := h.forkUsed q f hqf
    have hfc : f.child ≠ c := by
      rintro rfl
      simp [(h.running _).2 hc] at hused
    rw [hne _ hfc]
    exact hused

theorem Ordered.schedule (hc : s.current = none) (hn : s.normalizes = false) :
    Ordered s.schedule := by
  unfold Kernel.schedule
  unfold Kernel.normalizes at hn
  cases hm : minPass s.table [.runnable] with
  | none => exact h
  | some x =>
    obtain ⟨k, q⟩ := x
    obtain ⟨hk, -, hmin⟩ := minPass_eq_some hm
    have hkr : (s.table k).state = .runnable := by simpa using hk
    rw [hm] at hn
    dsimp only at hn ⊢
    rw [if_neg (by simp [hn])]
    have hlast : (s.dispatch k).lastPass = (s.table k).pass := rfl
    refine ⟨?_, ?_, ?_, ?_, ?_, h.forkInj⟩
    · intro i
      rw [dispatch_state]
      by_cases hi : i = k
      · simp [hi, Kernel.dispatch]
      · have hrun : (s.table i).state ≠ .running := by simp [h.running, hc]
        simp [hi, Kernel.dispatch, hrun, Ne.symm hi]
    · intro c hcc
      obtain rfl : k = c := by simpa [Kernel.dispatch] using hcc
      refine ⟨by simp [hlast], ?_⟩
      by_contra hlt
      simp [checkedAdd, dispatch_pass, dispatch_stride] at hlt hn
      omega
    · intro i hi
      rw [dispatch_state] at hi
      split_ifs at hi with hik
      rw [hlast, dispatch_pass]
      exact hmin i (by simp [hi])
    · unfold Kernel.Monotone Kernel.dispatch
      have hle := h.runnable k hkr
      have hch := h.chain
      unfold Kernel.Monotone at hch
      unfold Kernel.lastPass at hle
      rcases ht : s.trace with _ | ⟨d, ds⟩
      · simp
      · rw [ht] at hle hch
        simp [List.isChain_cons_cons, hch, hle]
    · intro p f hpf
      have hused := h.forkUsed p f hpf
      have hfk : f.child ≠ k := by
        rintro rfl
        simp [hkr] at hused
      simpa [dispatch_state, hfk] using hused

theorem Ordered.sleep (hc : s.current = some c) (ch : Channel) :
    Ordered (s.sleep c ch) := h.leave hc rfl rfl (by simp)

theorem Ordered.die (hc : s.current = some c) (status : ℤ) :
    Ordered (s.die c status) := h.leave hc rfl rfl (by simp)

theorem Ordered.setParents (parents : ProcId → Option ProcId) :
    Ordered { s with parents := parents } :=
  h.of_woken rfl rfl rfl fun _ => .refl _ _

theorem Ordered.reparent (hc : s.current = some c) :
    Ordered (s.reparent c) ∧ (s.reparent c).current = some c := by
  unfold Kernel.reparent
  refine List.foldlRecOn (motive := fun s => Ordered s ∧ s.current = some c) _ _ ⟨h, hc⟩ ?_
  intro s ⟨h, hc⟩ i _
  split_ifs
  · refine ⟨(h.setParents _).wakeup ?_, hc⟩
    -- `c` is running, so there is a baseline
    intro hidle
    simp [hc] at hidle
  · exact ⟨h, hc⟩

theorem Ordered.exit {s' : Kernel} {status : ℤ} (hc : s.current = some c)
    (hs : s.exit c status = some s') : Ordered s' := by
  unfold Kernel.exit at hs
  split_ifs at hs
  obtain ⟨hr, hcr⟩ := h.reparent hc
  dsimp only at hs
  split at hs
  · simp at hs
  · rename_i parent _
    cases hs
    have hw : Ordered ((s.reparent c).wakeup (.proc parent)) :=
      hr.wakeup fun hidle => by simp [hcr] at hidle
    exact hw.die (by rw [wakeup_current, hcr]) status

/-- A slot that is neither running, runnable nor the child of a `fork` changes to another such
state. -/
theorem Ordered.setProc {i : ProcId} {p : ProcInner}
    (hold : (s.table i).state ≠ .running ∧ (s.table i).state ≠ .used)
    (hnew : p.state ≠ .running ∧ p.state ≠ .runnable) : Ordered (s.setProc i p) := by
  have hcur : s.current ≠ some i := fun e => hold.1 ((h.running i).2 e)
  refine ⟨?_, ?_, ?_, h.chain, ?_, h.forkInj⟩
  · intro j
    by_cases hj : j = i
    · subst hj; simp [hnew.1, Kernel.setProc, hcur]
    · simpa [hj] using h.running j
  · intro c hc
    have hci : c ≠ i := by rintro rfl; exact hcur hc
    rw [setProc_table_ne _ _ _ _ hci]
    exact h.current c hc
  · intro j hj
    by_cases hji : j = i
    · subst hji; simp [hnew.2] at hj
    · rw [setProc_table_ne _ _ _ _ hji] at hj ⊢
      exact h.runnable j hj
  · intro q f hf
    have hused := h.forkUsed q f hf
    have hfi : f.child ≠ i := by rintro rfl; exact hold.2 hused
    rwa [setProc_table_ne _ _ _ _ hfi]

theorem Ordered.wait (hc : s.current = some c) : Ordered (s.wait c) := by
  unfold Kernel.wait
  split
  · rename_i z hz
    have hzombie : (s.table z).state = .zombie := by
      have := List.find?_some hz
      simp only [decide_eq_true_eq] at this
      exact this.2
    exact (h.setProc (by simp [hzombie]) (by simp [freeProc])).setParents _
  · split_ifs
    · exact h
    · exact h.sleep hc _

theorem Ordered.forkStart {ok : Bool} (hc : s.current = some c) (hf : s.forks c = none) :
    Ordered (s.forkStart c ok) := by
  unfold Kernel.forkStart
  split
  · exact h
  · rename_i z hz
    have hunused : (s.table z).state = .unused := by simpa using List.find?_some hz
    dsimp only
    split_ifs
    · have hset := (h.setProc (i := z) (p := allocProc s.nextPid (s.table z)) (by simp [hunused])
        (by simp [allocProc])).setParents (update s.parents z (some c))
      have hchild : ∀ q f, s.forks q = some f → f.child ≠ z := by
        rintro q f hq rfl
        simp [h.forkUsed q f hq] at hunused
      refine ⟨hset.running, hset.current, hset.runnable, hset.chain, ?_, ?_⟩
      · intro q f hq
        by_cases hqc : q = c
        · subst hqc
          obtain rfl : _ = f := by simpa using hq
          simp [Kernel.setProc, allocProc]
        · exact hset.forkUsed q f (by simpa [hqc] using hq)
      · intro q r f g hq hr hfg
        by_cases hqc : q = c <;> by_cases hrc : r = c
        · rw [hqc, hrc]
        · subst hqc
          obtain rfl : _ = f := by simpa using hq
          exact absurd hfg.symm (hchild r g (by simpa [hrc] using hr))
        · subst hrc
          obtain rfl : _ = g := by simpa using hr
          exact absurd hfg (hchild q f (by simpa [hqc] using hq))
        · exact h.forkInj q r f g (by simpa [hqc] using hq) (by simpa [hrc] using hr) hfg
    · exact (h.setProc (i := z) (by simp [hunused]) (by simp [freeProc])).of_woken rfl rfl rfl fun _ => .refl _ _

theorem Ordered.forkScan {f : ForkFrame} (hf : s.forks c = some f) (hlt : f.next < NPROC) :
    Ordered (s.forkScan c f hlt) := by
  refine ⟨h.running, h.current, h.runnable, h.chain, ?_, ?_⟩
  · intro q g hq
    by_cases hqc : q = c
    · subst hqc
      obtain rfl : _ = g := by simpa [Kernel.forkScan] using hq
      exact h.forkUsed q f hf
    · exact h.forkUsed q g (by simpa [Kernel.forkScan, hqc] using hq)
  · have hold : ∀ q g, (s.forkScan c f hlt).forks q = some g → ∃ g', s.forks q = some g' ∧ g'.child = g.child := by
      intro q g hq
      by_cases hqc : q = c
      · subst hqc
        obtain rfl : _ = g := by simpa [Kernel.forkScan] using hq
        exact ⟨f, hf, rfl⟩
      · exact ⟨g, by simpa [Kernel.forkScan, hqc] using hq, rfl⟩
    intro q r g g' hq hr hgg
    obtain ⟨k, hk, hkc⟩ := hold q g hq
    obtain ⟨k', hk', hkc'⟩ := hold r g' hr
    exact h.forkInj q r k k' hk hk' (by rw [hkc, hkc', hgg])

theorem Ordered.forkEnd {f : ForkFrame} (hc : s.current = some c)
    (hf : s.forks c = some f) (hk : KeepsUp s .forkEnd) : Ordered (s.forkEnd c f) := by
  have hused := h.forkUsed c f hf
  have hne : ∀ i, i ≠ f.child → (s.forkEnd c f).table i = s.table i := by
    intro i hi
    simp [Kernel.forkEnd, Kernel.setProc, hi]
  have hself : (s.forkEnd c f).table f.child =
      { s.table f.child with pass := f.best.getD f.parentPass, state := .runnable } := by
    simp [Kernel.forkEnd, Kernel.setProc]
  have hcur : s.current ≠ some f.child := fun e => by simp [(h.running _).2 e] at hused
  have hforks : ∀ q g, (s.forkEnd c f).forks q = some g → s.forks q = some g ∧ q ≠ c := by
    intro q g hq
    by_cases hqc : q = c
    · subst hqc; simp [Kernel.forkEnd] at hq
    · exact ⟨by simpa [Kernel.forkEnd, hqc] using hq, hqc⟩
  refine ⟨?_, ?_, ?_, h.chain, ?_, ?_⟩
  · intro i
    by_cases hi : i = f.child
    · subst hi; rw [hself]; simpa [Kernel.forkEnd, Kernel.setProc] using hcur
    · rw [hne i hi]; exact h.running i
  · intro d hd
    have hdc : d ≠ f.child := by rintro rfl; exact hcur hd
    rw [hne d hdc]
    exact h.current d hd
  · intro i hi
    by_cases hic : i = f.child
    · subst hic; rw [hself]; exact hk c f hc hf
    · rw [hne i hic] at hi ⊢
      exact h.runnable i hi
  · intro q g hq
    obtain ⟨hq, hqc⟩ := hforks q g hq
    have hgf : g.child ≠ f.child := fun e => hqc (h.forkInj q c g f hq hf e)
    rw [hne _ hgf]
    exact h.forkUsed q g hq
  · intro q r g g' hq hr
    exact h.forkInj q r g g' (hforks q g hq).1 (hforks r g' hr).1

theorem Ordered.step {s' : Kernel} {a : Action} (hn : noNormalization s a = true)
    (hk : KeepsUp s a) (hs : s.step a = some s') : Ordered s' := by
  cases a with
  | schedule =>
    simp only [Kernel.step] at hs
    split_ifs at hs with hc
    cases hs
    exact h.schedule hc (by simpa [noNormalization] using hn)
  | wakeup ch => cases hs; exact h.wakeup hk
  | kill pid => cases hs; exact h.kill hk
  | yield =>
    obtain ⟨c, hc, rfl⟩ := Option.map_eq_some_iff.1 hs
    exact h.leave hc rfl rfl (by simp)
  | sleep ch =>
    obtain ⟨c, hc, rfl⟩ := Option.map_eq_some_iff.1 hs
    exact h.sleep (outside_eq_some hc).1 ch
  | awake =>
    obtain ⟨c, -, rfl⟩ := Option.map_eq_some_iff.1 hs
    refine h.of_woken rfl rfl rfl fun i => ?_
    by_cases hi : i = c
    · subst hi; exact .inl (by simp [Kernel.awake])
    · rw [Kernel.awake, setProc_table_ne _ _ _ _ hi]
      exact .refl _ _
  | exit status =>
    obtain ⟨c, hc, hs⟩ := Option.bind_eq_some_iff.1 hs
    exact h.exit (outside_eq_some hc).1 hs
  | wait =>
    obtain ⟨c, hc, rfl⟩ := Option.map_eq_some_iff.1 hs
    exact h.wait (outside_eq_some hc).1
  | forkStart ok =>
    obtain ⟨c, hc, rfl⟩ := Option.map_eq_some_iff.1 hs
    exact h.forkStart (outside_eq_some hc).1 (outside_eq_some hc).2
  | forkScan =>
    obtain ⟨⟨c, f⟩, hc, hs⟩ := Option.bind_eq_some_iff.1 hs
    dsimp only at hs
    split_ifs at hs with hlt
    cases hs
    exact h.forkScan (inside_eq_some hc).2 hlt
  | forkEnd =>
    obtain ⟨⟨c, f⟩, hc, hs⟩ := Option.bind_eq_some_iff.1 hs
    dsimp only at hs
    split_ifs at hs
    cases hs
    exact h.forkEnd (inside_eq_some hc).1 (inside_eq_some hc).2 hk

end

end Steps

/-- **Virtual time.** In every run without overflow normalization in which `kill`, `wakeup` on an
idle CPU and `fork` hand out no pass below the last dispatched one, the passes of the dispatched
processes never fall. -/
theorem trace_monotone {s : Kernel}
    (h : Reachable Boot
      (Guarded (fun s a => noNormalization s a = true ∧ KeepsUp s a) Kernel.Step) s) :
    s.Monotone := by
  have hord : Ordered s := h.invariant (fun _ => Ordered.of_boot) fun _ _ _ hi ⟨⟨hn, hk⟩, hs⟩ => hi.step hn hk hs
  exact hord.chain

/-- Two processes that have not run yet. -/
def twoReady : Kernel where
  table i := if i.val < 2 then { state := .runnable } else {}

/-- The first process waits for the console in its first turn; the second is preempted by two ticks
and then sleeps in `sys_sleep`; the interrupt of a key on the idle CPU wakes the first. -/
def idleWakeup : List Action :=
  [.schedule, .sleep (.buffer 0), .schedule, .yield, .schedule, .yield, .schedule, .sleep .ticks,
    .wakeup (.buffer 0), .schedule]

theorem twoReady_boot : Boot twoReady where
  idle := rfl
  trace := rfl
  forks _ := rfl
  running := by decide

/-- A run without normalization in which virtual time falls: the first process, asleep since pass
360360, is dispatched after the second was dispatched with pass 720720. -/
theorem idle_wakeup_backwards :
    ∃ s, Reachable Boot (Guarded (fun s a => noNormalization s a = true) Kernel.Step) s ∧
      ¬ s.Monotone := by
  have htrace : (execute Kernel.step noNormalization twoReady idleWakeup).map Kernel.trace =
      some [(⟨0, by decide⟩, 360360), (⟨1, by decide⟩, 720720), (⟨1, by decide⟩, 360360),
        (⟨1, by decide⟩, 0), (⟨0, by decide⟩, 0)] := by
    decide +kernel
  obtain ⟨s, hs, ht⟩ := Option.map_eq_some_iff.1 htrace
  refine ⟨s, Reachable.execute hs (.init twoReady_boot), ?_⟩
  rw [Kernel.Monotone, ht]
  decide

/-- A run of `trace_monotone`: the first process is dispatched and sleeps, and the second, once it
is running, wakes it. -/
theorem trace_monotone_wakeup :
    (((twoReady.dispatch ⟨0, by decide⟩).sleep ⟨0, by decide⟩ .ticks).schedule.wakeup
      .ticks).Monotone := by
  let reach := Reachable Boot
    (Guarded (fun s a => noNormalization s a = true ∧ KeepsUp s a) Kernel.Step)
  have h1 : reach (twoReady.dispatch ⟨0, by decide⟩) :=
    .step (l := .schedule) (.init twoReady_boot) ⟨⟨by decide, trivial⟩, rfl⟩
  have h2 : reach ((twoReady.dispatch ⟨0, by decide⟩).sleep ⟨0, by decide⟩ .ticks) :=
    .step (l := .sleep .ticks) h1 ⟨⟨by decide, trivial⟩, rfl⟩
  have h3 : reach ((twoReady.dispatch ⟨0, by decide⟩).sleep ⟨0, by decide⟩ .ticks).schedule :=
    .step (l := .schedule) h2 ⟨⟨by decide, trivial⟩, rfl⟩
  refine trace_monotone (.step (l := .wakeup .ticks) h3 ⟨⟨by decide, fun hidle => ?_⟩, rfl⟩)
  exact absurd hidle (by decide)

end Octopos
