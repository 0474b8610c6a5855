import Octopos.Vm.MachineSteps

/-!
# Private memory

Processes share physical pages, but each of them sees a memory of its own. Beside the machine runs
the private memory of every process (`privateAfter`): what the process stored last, what it
inherited at `fork` or what `exec` loaded, and zero for everything that it never touched. Whatever a
user program loads is in its private memory (`private_memory`).
-/

namespace Octopos

variable {A : Allocator} {tr : ℕ} {own : ℕ → Option (Owner Space)} {pte : Space → ℕ → Pte}
  {mem : Space → Bytes} {p q : Fin NPROC} {va : ℕ}

/-! ## What a process can access -/

/-- The entry that a process has for an address. -/
def MemSys.entryOf (s : MemSys) (p : Fin NPROC) (va : ℕ) : Pte :=
  match (s.procs p).pagetable with
  | some root => s.vm.entry root va
  | none => 0

/-- A user program can access an address, at once or after a page fault, if there is memory. -/
def MemSys.CanAccess (s : MemSys) (p : Fin NPROC) (write : Bool) (va : ℕ) : Prop :=
  Accessible write (s.entryOf p) (s.procs p).size va

def userLoad (A : Allocator) (p : Fin NPROC) (va : ℕ) : MemM (Except VmError UInt8) :=
  onSpace p fun root size => Uvm.load A root size va

def userStore (A : Allocator) (p : Fin NPROC) (va : ℕ) (b : UInt8) : MemM (Except VmError PUnit) :=
  onSpace p fun root size => Uvm.store A root size va b

section

variable {s s' : MemSys}

theorem SysCore.entryOf (h : SysCore tr s.vm s.procs own pte mem) (ha : va % PGSIZE = 0)
    (hva : va < MAXVA) : s.entryOf p va = pte (p, false) va := by
  unfold MemSys.entryOf
  cases hr : (s.procs p).pagetable with
  | none => exact (h.memory.trees.blank (i := (p, false)) hr va).symm
  | some r => exact h.memory.trees.entry (i := (p, false)) hr va ha hva

theorem SysCore.entryOf_user (h : SysCore tr s.vm s.procs own pte mem) (k : Fin USERPAGES) :
    s.entryOf p (uva k) = pte (p, false) (uva k) :=
  h.entryOf (uva_userVa k).aligned (uva_userVa k).lt_MAXVA

theorem SysCore.canAccess (h : SysCore tr s.vm s.procs own pte mem) (write : Bool) :
    s.CanAccess p write va ↔ Accessible write (pte (p, false)) (s.procs p).size va := by
  unfold MemSys.CanAccess Accessible
  simp only [h.entryOf_user]

theorem SysOk.load_wp (h : SysOk tr s own pte mem) (hp : (s.procs p).live = true)
    (hva : va < 2 ^ 64) {E : VmPanic → Prop} :
    wp (userLoad A p va) (fun r _ => (∀ b, r = .ok b → va < TRAPFRAME ∧ b = mem (p, false) va) ∧
      (s.CanAccess p false va → ∀ e, r = .error e → e = .alloc)) E s := by
  refine h.onSpace_wp hp fun r tf hr hsp => ?_
  refine h.memory.load_wp hr hsp.size hva hsp.highOk fun res vm' own' pte' _ _ _ hok herr =>
    ⟨hok, fun hacc => herr ((h.canAccess false).1 hacc)⟩

theorem SysOk.store_wp (h : SysOk tr s own pte mem) (hp : (s.procs p).live = true)
    (hva : va < 2 ^ 64) {b : UInt8} {E : VmPanic → Prop} :
    wp (userStore A p va b) (fun r _ => (∀ e, r = .error e → e = .alloc ∨ ¬s.CanAccess p true va)) E
      s := by
  refine h.onSpace_wp hp fun r tf hr hsp => ?_
  refine h.memory.store_wp hr hsp.size hva hsp.highOk (fun e vm' own' pte' _ _ _ he e' he' => ?_)
    fun vm' own' pte' _ _ _ _ e' he' => by cases he'
  cases he'
  rwa [h.canAccess]

end

/-! ## The machine and the private memories -/

/-- The machine and the private memory of every process. -/
structure PrivSys where
  sys : MemSys
  view : Fin NPROC → Bytes

/-- A step after which no size passes the trapframe. -/
def PrivStep (A : Allocator) (tr : ℕ) (s : PrivSys) (l : (a : MemAction) × a.Result)
    (s' : PrivSys) : Prop :=
  MemStep A tr s.sys l s'.sys ∧ s'.sys.Bounded ∧ s'.view = privateAfter l.1 l.2 s.view

variable {s s' : PrivSys}

theorem PrivStep.agrees {l : (a : MemAction) × a.Result} (hs : PrivStep A tr s l s')
    (h : ∃ own pte mem, SysOk tr s.sys own pte mem ∧ Agrees s.sys.procs mem s.view) :
    ∃ own pte mem, SysOk tr s'.sys own pte mem ∧ Agrees s'.sys.procs mem s'.view := by
  obtain ⟨own, pte, mem, hI, hσ⟩ := h
  obtain ⟨hl, hb, hview⟩ := hs
  obtain ⟨own', pte', mem', hstep⟩ := hI.step hl (hI.fits hl hb)
  refine ⟨own', pte', mem', hstep.ok, ?_⟩
  rw [hview]
  exact hstep.agrees _ hσ

theorem PrivSys.agrees_of_reachable (h : Reachable (fun s => MemInit s.sys) (PrivStep A tr) s) :
    ∃ own pte mem, SysOk tr s.sys own pte mem ∧ Agrees s.sys.procs mem s.view := by
  refine h.invariant (fun s hs => ⟨_, _, _, hs.sysOk tr, fun p hp => ?_⟩) fun s l s' hI hs => hs.agrees hI
  rw [hs.procs p] at hp
  cases hp

theorem PrivSys.load_eq
    (h : ∃ own pte mem, SysOk tr s.sys own pte mem ∧ Agrees s.sys.procs mem s.view)
    (hp : (s.sys.procs p).live = true) (hva : va < 2 ^ 64) {b : UInt8} {t : MemSys}
    (hrun : (userLoad A p va).run s.sys = .ok (.ok b, t)) : b = s.view p va := by
  obtain ⟨own, pte, mem, hI, hσ⟩ := h
  obtain ⟨hlt, hb⟩ := (wp_ok (hI.load_wp (E := fun _ => True) hp hva) hrun).1 b rfl
  rw [hb]
  exact hσ p hp va hlt

/-- **Every process sees a private memory.** In every state that processes reach while no size
passes the trapframe, a load of a live process returns, and if it returns a byte, it is the byte of
the private memory of the process; it fails at an address of the process only when there is no
memory. A store returns in the same way, and after it every process loads what it would have loaded
before, except for the byte that was stored. -/
theorem private_memory (h : Reachable (fun s => MemInit s.sys) (PrivStep A tr) s)
    (hp : (s.sys.procs p).live = true) (hva : va < 2 ^ 64) :
    (∃ r t, (userLoad A p va).run s.sys = .ok (r, t) ∧ (∀ b, r = .ok b → b = s.view p va) ∧
      (s.sys.CanAccess p false va → ∀ e, r = .error e → e = .alloc)) ∧
    ∀ b, ∃ r t, (userStore A p va b).run s.sys = .ok (r, t) ∧
      (s.sys.CanAccess p true va → ∀ e, r = .error e → e = .alloc) ∧
      (r = .ok ⟨⟩ → ∀ q va', (t.procs q).live = true → va' < 2 ^ 64 → ∀ c u,
        (userLoad A q va').run t = .ok (.ok c, u) →
          c = if q = p ∧ va' = va then b else s.view q va') := by
  have hA := PrivSys.agrees_of_reachable h
  obtain ⟨own, pte, mem, hI, hσ⟩ := hA
  refine ⟨?_, fun b => ?_⟩
  · obtain ⟨r, t, hrun, hok, herr⟩ := wp_total (hI.load_wp (A := A) hp hva)
    refine ⟨r, t, hrun, fun b hb => ?_, herr⟩
    rw [(hok b hb).2]
    exact hσ p hp va (hok b hb).1
  · obtain ⟨r, t, hrun, herr⟩ := wp_total (hI.store_wp (A := A) (b := b) hp hva)
    refine ⟨r, t, hrun, fun hacc e he => (herr e he).resolve_right fun hno => hno hacc, ?_⟩
    rintro rfl q va' hq hva' c u hload
    -- the store is one more step
    have hl : MemStep A tr s.sys ⟨.store p va b, .ok ⟨⟩⟩ t := ⟨⟨hp, hva⟩, hrun⟩
    obtain ⟨own', pte', mem', hnext⟩ := hI.step hl trivial
    have hstep : PrivStep A tr s ⟨.store p va b, .ok ⟨⟩⟩
        ⟨t, privateAfter (.store p va b) (.ok ⟨⟩) s.view⟩ := ⟨hl, hnext.ok.bounded, rfl⟩
    have hc := PrivSys.load_eq (hstep.agrees ⟨own, pte, mem, hI, hσ⟩) hq hva' hload
    rw [hc]
    change upd s.view p (upd (s.view p) va b) q va' = _
    rcases eq_or_ne q p with rfl | hne
    · rw [upd_self, upd_apply]
      exact if_congr ⟨fun h => ⟨rfl, h⟩, And.right⟩ rfl rfl
    · rw [upd_of_ne hne, if_neg fun h => hne h.1]

instance (s : MemSys) (a : MemAction) : Decidable (a.Fits s) :=
  match a with
  | .sbrk p n => inferInstanceAs (Decidable (((s.procs p).size : ℤ) + n ≤ TRAPFRAME))
  | .spawn _ | .fork _ _ | .load _ _ | .store _ _ _ | .exec _ _ _ | .copyTo _ _ _ | .copyFrom _ _ _ | .free _ =>
    isTrue trivial

/-- Run actions that fit one after the other. -/
def PrivSys.runAll (A : Allocator) (tr : ℕ) : PrivSys → List MemAction → Option PrivSys
  | s, [] => some s
  | s, a :: as =>
    if a.Allowed s.sys ∧ a.Fits s.sys then
      match (a.run A tr).run s.sys with
      | .ok (r, t) => runAll A tr ⟨t, privateAfter a r s.view⟩ as
      | .error _ => none
    else none

theorem PrivSys.runAll_reachable {as : List MemAction} (h : s.runAll A tr as = some s')
    (hs : Reachable (fun s => MemInit s.sys) (PrivStep A tr) s) :
    Reachable (fun s => MemInit s.sys) (PrivStep A tr) s' := by
  induction as generalizing s with
  | nil =>
    cases h
    exact hs
  | cons a as ih =>
    unfold PrivSys.runAll at h
    split_ifs at h with hok
    rcases hm : (a.run A tr).run s.sys with e | ⟨r, t⟩
    · rw [hm] at h
      cases h
    · rw [hm] at h
      obtain ⟨own, pte, mem, hI, -⟩ := PrivSys.agrees_of_reachable hs
      have hl : MemStep A tr s.sys ⟨a, r⟩ t := ⟨hok.1, hm⟩
      obtain ⟨own', pte', mem', hnext⟩ := hI.step hl hok.2
      exact ih h (.step hs ⟨hl, hnext.ok.bounded, rfl⟩)

/-- A child loads what its parent stored before the `fork`, not what it stored after it. -/
theorem private_memory_fork : ∃ s : PrivSys,
    Reachable (fun s => MemInit s.sys) (PrivStep bump KERNBASE) s ∧
    s.view firstProc 5 = 8 ∧
    ∃ r t, (userLoad bump secondProc 5).run s.sys = .ok (r, t) ∧ ∀ b, r = .ok b → b = 7 := by
  obtain ⟨s, hrun, hs⟩ := Option.map_eq_some_iff.1
    (show (PrivSys.runAll bump KERNBASE ⟨.start, fun _ _ => 0⟩ [.spawn firstProc, .sbrk firstProc 4096,
      .store firstProc 5 7, .fork firstProc secondProc, .store firstProc 5 8]).map (fun s =>
        (s.view firstProc 5, s.view secondProc 5, (s.sys.procs secondProc).live)) = some (8, 7, true)
      by decide +kernel)
  obtain ⟨hparent, hchild, hlive⟩ := Prod.mk.inj hs |>.imp_right Prod.mk.inj
  have hreach := PrivSys.runAll_reachable hrun (.init MemSys.start_init)
  obtain ⟨r, t, hload, hok, -⟩ := (private_memory hreach hlive (show 5 < 2 ^ 64 by decide)).1
  rw [hchild] at hok
  exact ⟨s, hreach, hparent, r, t, hload, hok⟩

end Octopos
