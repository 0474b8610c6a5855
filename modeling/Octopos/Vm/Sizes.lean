import Octopos.Vm.MachineSteps

/-!
# Sizes of processes

Growing with `sys_sbrk` only adds a number to the size of a process. As long as every call keeps the
size at or below the trapframe and can negate its argument (`SbrkFits`), sizes stay in bounds
(`sbrk_bounded`). Nothing in `grow` makes sure of that (`sbrk_unbounded`).
-/

namespace Octopos

variable {A : Allocator} {tr : ℕ} {s s' : MemSys} {own : ℕ → Option (Owner Space)} {pte : Space → ℕ → Pte}
  {mem : Space → Bytes} {p q : Fin NPROC} {n : ℤ}

/-- `sys_sbrk` by this number stays in bounds: its absolute value is an `isize`, and the new size
does not pass the trapframe. -/
def SbrkFits (s : MemSys) : MemAction → Prop
  | .sbrk p n => n ≠ -Proc.ISIZE ∧ ((s.procs p).size : ℤ) + n ≤ TRAPFRAME
  | _ => True

instance (s : MemSys) (a : MemAction) : Decidable (SbrkFits s a) :=
  match a with
  | .sbrk p n => inferInstanceAs (Decidable (n ≠ -Proc.ISIZE ∧ ((s.procs p).size : ℤ) + n ≤ TRAPFRAME))
  | .spawn _ | .fork _ _ | .load _ _ | .store _ _ _ | .exec _ _ _ | .copyTo _ _ _ | .copyFrom _ _ _ | .free _ =>
    isTrue trivial

theorem SbrkFits.fits {a : MemAction} (h : SbrkFits s a) : a.Fits s := by
  cases a with
  | sbrk p n => exact h.2
  | _ => trivial

theorem SysOk.of_reachable
    (h : Reachable MemInit (Guarded (fun s l => SbrkFits s l.1) (MemStep A tr)) s) :
    ∃ own pte mem, SysOk tr s own pte mem := by
  refine h.invariant (I := fun s => ∃ own pte mem, SysOk tr s own pte mem) (fun s hs => ⟨_, _, _, hs.sysOk tr⟩) ?_
  rintro s l s' ⟨own, pte, mem, hI⟩ ⟨hfit, hl⟩
  obtain ⟨own', pte', mem', hstep⟩ := hI.step hl hfit.fits
  exact ⟨own', pte', mem', hstep.ok⟩

theorem SysOk.sbrk_iff (h : SysOk tr s own pte mem) (hp : (s.procs p).live = true) :
    (∃ r s', (Proc.sbrk A p n).run s = .ok (r, s') ∧ (s'.procs p).size ≤ TRAPFRAME) ↔
    SbrkFits s (.sbrk p n) := by
  obtain ⟨r, hr⟩ := h.root hp
  have hold := h.bounded p
  have hus : TRAPFRAME < USIZE := by decide
  constructor
  · rintro ⟨res, s', hrun, hle⟩
    have hwp : wp (Proc.sbrk A p n) (fun _ s' => (s'.procs p).size ≤ TRAPFRAME → SbrkFits s (.sbrk p n))
        (fun _ => True) s := by
      refine h.sbrk_wp hr rfl (fun _ => trivial) (fun _ => trivial) (fun hn hle => ?_)
        (fun hn hmin _ _ => ⟨hmin, by omega⟩) fun _ _ _ _ hn hmin _ _ _ _ => ⟨hmin, by omega⟩
      dsimp only at hle
      rw [upd_self] at hle
      dsimp only at hle
      have hpos : (0 : ℤ) < Proc.ISIZE := by decide
      exact ⟨by omega, by omega⟩
    exact wp_ok hwp hrun hle
  · rintro ⟨hmin, hle⟩
    have hwp : wp (Proc.sbrk A p n) (fun _ s' => (s'.procs p).size ≤ TRAPFRAME) (fun _ => False) s := by
      refine h.sbrk_wp hr rfl (fun heq => hmin heq) (fun hbig => ?_) (fun hn => ?_) (fun _ _ _ => hold)
        fun new _ _ _ hn _ hnew _ _ => ?_
      · omega
      · dsimp only
        rw [upd_self]
        dsimp only
        omega
      · dsimp only
        rw [upd_self]
        dsimp only
        omega
    exact wp_total hwp

theorem SysOk.sbrk_none (h : SysOk tr s own pte mem) (hp : (s.procs p).live = true)
    (hrun : (Proc.sbrk A p n).run s = .ok (none, s')) : s' = s := by
  obtain ⟨r, hr⟩ := h.root hp
  have hwp : wp (Proc.sbrk A p n) (fun r s' => r = none → s' = s) (fun _ => True) s :=
    h.sbrk_wp hr rfl (fun _ => trivial) (fun _ => trivial) (fun _ hno => by cases hno) (fun _ _ _ _ => rfl)
      fun _ _ _ _ _ _ _ _ _ hno => by cases hno
  exact wp_ok hwp hrun rfl

/-- **The size of a process stays in bounds** as long as its `sbrk` calls do. In every state that
such a run reaches, no size passes the trapframe; a call returns with a size in bounds exactly if
its number fits; a call that fails changes nothing; `fork` and the end of a process return, so
`Uvm::copy` and `free_walk` do not panic; and every process still has its trampoline and its
trapframe as they were mapped. -/
theorem sbrk_bounded
    (h : Reachable MemInit (Guarded (fun s l => SbrkFits s l.1) (MemStep A tr)) s) :
    s.Bounded ∧
    (∀ p, (s.procs p).live = true → ∀ n,
      ((∃ r s', (Proc.sbrk A p n).run s = .ok (r, s') ∧ (s'.procs p).size ≤ TRAPFRAME) ↔
        SbrkFits s (.sbrk p n)) ∧
      ∀ s', (Proc.sbrk A p n).run s = .ok (none, s') → s' = s) ∧
    (∀ p q, (s.procs p).live = true → (s.procs q).live = false →
      ∃ r s', (Proc.fork A tr p q).run s = .ok (r, s')) ∧
    (∀ p, (s.procs p).live = true → ∃ s', (Proc.free A p).run s = .ok (⟨⟩, s')) ∧
    ∀ p, (s.procs p).live = true → ∃ root tf, (s.procs p).pagetable = some root ∧
      (s.procs p).trapframe = some tf ∧
      s.vm.entry root TRAMPOLINE = paToPte tr ||| (PTE_R ||| PTE_X ||| PTE_V) ∧
      s.vm.entry root TRAPFRAME = paToPte tf ||| (PTE_R ||| PTE_W ||| PTE_V) := by
  obtain ⟨own, pte, mem, hI⟩ := SysOk.of_reachable h
  refine ⟨hI.bounded, fun p hp n => ⟨hI.sbrk_iff hp, fun s' => hI.sbrk_none hp⟩, fun p q hp hq => ?_,
    fun p hp => ?_, fun p hp => ?_⟩
  · obtain ⟨r, hr⟩ := hI.root hp
    have hwp : wp (Proc.fork A tr p q) (fun _ _ => True) (fun _ => False) s :=
      hI.fork_wp hr (hI.unused hq) (fun _ _ _ _ _ _ _ _ _ => trivial) fun _ _ _ _ _ _ _ _ _ _ => trivial
    obtain ⟨res, s', hrun, -⟩ := wp_total hwp
    exact ⟨res, s', hrun⟩
  · have hwp : wp (Proc.free A p) (fun _ _ => True) (fun _ => False) s :=
      hI.free_wp fun _ _ _ _ _ _ => trivial
    obtain ⟨res, s', hrun, -⟩ := wp_total hwp
    exact ⟨s', hrun⟩
  · obtain ⟨r, hr⟩ := hI.root hp
    obtain ⟨tf, htf, hsp⟩ := hI.space hr
    refine ⟨r, tf, hr, htf, ?_, ?_⟩
    · rw [hI.memory.trees.entry (i := (p, false)) hr _ (by decide) (by decide)]
      exact hsp.trampoline
    · rw [hI.memory.trees.entry (i := (p, false)) hr _ (by decide) (by decide)]
      exact hsp.trapframe

/-- A process grows past the trapframe. -/
theorem sbrk_unbounded : ∃ s, Reachable MemInit (MemStep bump KERNBASE) s ∧
    TRAPFRAME < (s.procs firstProc).size := by
  obtain ⟨s, hrun, hs⟩ := Option.map_eq_some_iff.1
    (show (MemSys.start.runAll bump KERNBASE (fun _ _ => true) [.spawn firstProc, .sbrk firstProc (2 ^ 38)]).map
      (fun s => decide (TRAPFRAME < (s.procs firstProc).size)) = some true by decide +kernel)
  have hreach := MemSys.runAll_reachable hrun (.init MemSys.start_init)
  exact ⟨s, hreach.mono fun _ _ _ h => h.2, of_decide_eq_true hs⟩

/-- A process has grown by a page: it can be forked. -/
theorem sbrk_bounded_page :
    ∃ s, Reachable MemInit (Guarded (fun s l => SbrkFits s l.1) (MemStep bump KERNBASE)) s ∧
      (s.procs firstProc).size = PGSIZE ∧
      ∃ r s', (Proc.fork bump KERNBASE firstProc secondProc).run s = .ok (r, s') := by
  obtain ⟨s, hrun, hs⟩ := Option.map_eq_some_iff.1
    (show (MemSys.start.runAll bump KERNBASE (fun s a => decide (SbrkFits s a))
      [.spawn firstProc, .sbrk firstProc 4096]).map (fun s => ((s.procs firstProc).size,
        (s.procs firstProc).live, (s.procs secondProc).live)) = some (PGSIZE, true, false) by decide +kernel)
  obtain ⟨hsize, hlive, hfree⟩ := Prod.mk.inj hs |>.imp_right Prod.mk.inj
  have hreach : Reachable MemInit (Guarded (fun s l => SbrkFits s l.1) (MemStep bump KERNBASE)) s :=
    (MemSys.runAll_reachable hrun (.init MemSys.start_init)).mono fun _ _ _ h => ⟨of_decide_eq_true h.1, h.2⟩
  exact ⟨s, hreach, hsize, (sbrk_bounded hreach).2.2.1 firstProc secondProc hlive hfree⟩

end Octopos
