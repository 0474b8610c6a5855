import Octopos.Vm.ExecRules

/-!
# Processes and their memory

The actions on the memory of processes: `user_init`, `fork`, `sys_sbrk`, `exec`, loads and stores of
user programs, copies by system calls, and what `wait` frees. Between two actions the description of
the memory (`MemOk`) has one address space for every process; `exec` builds the new one in a second
place.
-/

namespace Octopos

/-! ## Actions -/

/-- What is done to the memory of processes. -/
inductive MemAction
  | spawn (p : Fin NPROC)
  | fork (p q : Fin NPROC)
  | sbrk (p : Fin NPROC) (n : ℤ)
  | load (p : Fin NPROC) (va : ℕ)
  | store (p : Fin NPROC) (va : ℕ) (b : UInt8)
  | exec (p : Fin NPROC) (file : ExecFile) (argv : List (List UInt8))
  | copyTo (p : Fin NPROC) (src : List UInt8) (dst : ℕ)
  | copyFrom (p : Fin NPROC) (src len : ℕ)
  | free (p : Fin NPROC)

def MemAction.Result : MemAction → Type
  | .spawn _ => Except KernelError PUnit
  | .fork _ _ => Except KernelError PUnit
  | .sbrk _ _ => Option ℕ
  | .load _ _ => Except VmError UInt8
  | .store _ _ _ => Except VmError PUnit
  | .exec _ _ _ => Except ExecError ExecImage
  | .copyTo _ _ _ => Except VmError PUnit × List Pte
  | .copyFrom _ _ _ => Uvm.CopyFrom
  | .free _ => PUnit

/-- Run a function on the page table of a process of the given size. -/
def onSpace {α : Type} (p : Fin NPROC) (f : ℕ → ℕ → VmM α) : MemM α := do
  let data ← getProc p
  match data.pagetable with
  | none => throw .null
  | some root => liftVm (f root data.size)

def MemAction.run (A : Allocator) (tr : ℕ) : (a : MemAction) → MemM a.Result
  | .spawn p => Proc.alloc A tr p
  | .fork p q => Proc.fork A tr p q
  | .sbrk p n => Proc.sbrk A p n
  | .load p va => onSpace p fun root size => Uvm.load A root size va
  | .store p va b => onSpace p fun root size => Uvm.store A root size va b
  | .exec p file argv => Proc.exec A tr p file argv
  | .copyTo p src dst => onSpace p fun root size => Uvm.copyTo A root size src dst
  | .copyFrom p src len => onSpace p fun root size => Uvm.copyFrom A root size src len
  | .free p => Proc.free A p

/-- When an action can take place: new processes get unused slots, the others are running, and
addresses and numbers are machine words. -/
def MemAction.Allowed (s : MemSys) : MemAction → Prop
  | .spawn p => (s.procs p).live = false
  | .fork p q => (s.procs p).live = true ∧ (s.procs q).live = false
  | .sbrk p n => (s.procs p).live = true ∧ -Proc.ISIZE ≤ n ∧ n < Proc.ISIZE
  | .load p va => (s.procs p).live = true ∧ va < 2 ^ 64
  | .store p va _ => (s.procs p).live = true ∧ va < 2 ^ 64
  | .exec p _ _ => (s.procs p).live = true
  | .copyTo p _ dst => (s.procs p).live = true ∧ dst < 2 ^ 64
  | .copyFrom p src _ => (s.procs p).live = true ∧ src < 2 ^ 64
  | .free p => (s.procs p).live = true

def MemStep (A : Allocator) (tr : ℕ) (s : MemSys) (l : (a : MemAction) × a.Result) (s' : MemSys) :
    Prop :=
  l.1.Allowed s ∧ (l.1.run A tr).run s = .ok (l.2, s')

/-- There is no process yet, and pages that are not in use are not counted. -/
structure MemInit (s : MemSys) : Prop where
  procs : ∀ p, s.procs p = .new
  counts : ∀ a, IsPage a → s.vm.used a = false → s.vm.refs (pageIndex a) = 0

/-- The address spaces: that of each process, and the one that it builds in `exec`. -/
abbrev Space := Fin NPROC × Bool

theorem card_space_lt : Fintype.card Space < 256 := by
  rw [Fintype.card_prod, Fintype.card_fin, Fintype.card_bool]
  decide

/-- The page tables between two actions. -/
def rootsOf (procs : Fin NPROC → ProcData) (x : Space) : Option ℕ :=
  if x.2 then none else (procs x.1).pagetable

/-- The processes and the description of their memory, also while a process is made or freed. -/
structure SysCore (tr : ℕ) (vm : Vm) (procs : Fin NPROC → ProcData) (own : ℕ → Option (Owner Space))
    (pte : Space → ℕ → Pte) (mem : Space → Bytes) : Prop where
  memory : MemOk vm (rootsOf procs) own pte mem
  frames : ∀ a, own a = some .kernel ↔ ∃ p, (procs p).trapframe = some a
  distinct : ∀ {p q a}, (procs p).trapframe = some a → (procs q).trapframe = some a → p = q
  space : ∀ {p r}, (procs p).pagetable = some r → ∃ tf, (procs p).trapframe = some tf ∧
    SpaceOk pte (p, false) tr tf (procs p).size

/-- The processes and the description of their memory between two actions. -/
structure SysOk (tr : ℕ) (s : MemSys) (own : ℕ → Option (Owner Space)) (pte : Space → ℕ → Pte)
    (mem : Space → Bytes) : Prop extends SysCore tr s.vm s.procs own pte mem where
  unused : ∀ {p}, (s.procs p).live = false → s.procs p = .new
  full : ∀ {p}, (s.procs p).live = true → (s.procs p).pagetable ≠ none

theorem rootsOf_exec (procs : Fin NPROC → ProcData) (p : Fin NPROC) :
    rootsOf procs (p, true) = none := rfl

theorem rootsOf_proc (procs : Fin NPROC → ProcData) (p : Fin NPROC) :
    rootsOf procs (p, false) = (procs p).pagetable := rfl

theorem rootsOf_upd (procs : Fin NPROC → ProcData) (p : Fin NPROC) (d : ProcData) :
    rootsOf (upd procs p d) = upd (rootsOf procs) (p, false) d.pagetable := by
  funext ⟨q, b⟩
  cases b with
  | true => rw [upd_of_ne fun h => by cases (Prod.mk.inj h).2]; rfl
  | false =>
    rcases eq_or_ne q p with rfl | hne
    · rw [upd_self, rootsOf_proc, upd_self]
    · rw [upd_of_ne fun h => hne (Prod.mk.inj h).1, rootsOf_proc, rootsOf_proc, upd_of_ne hne]

/-- The owners of the pages at the start. -/
def bootOwner (vm : Vm) (a : ℕ) : Option (Owner Space) :=
  if a % PGSIZE = 0 ∧ KERNBASE ≤ a ∧ a < PHYSTOP ∧ vm.used a = true then
    some (.static (vm.refs (pageIndex a)))
  else none

theorem MemInit.sysOk {s : MemSys} (h : MemInit s) (tr : ℕ) :
    SysOk tr s (bootOwner s.vm) (fun _ _ => 0) fun _ _ => 0 := by
  have hroots : ∀ x, rootsOf s.procs x = none := by
    rintro ⟨p, b⟩
    cases b with
    | true => rfl
    | false => rw [rootsOf_proc, h.procs p]; rfl
  have hboot : ∀ {a o}, bootOwner s.vm a = some o → o = .static (s.vm.refs (pageIndex a)) ∧ IsPage a := by
    intro a o ha
    unfold bootOwner at ha
    split_ifs at ha with hp
    exact ⟨(Option.some.inj ha).symm, hp.1, hp.2.1, hp.2.2.1⟩
  have hmap : ∀ x, mapping (fun (_ : Space) (_ : ℕ) => (0 : Pte)) x = none := fun x => Pte.target_none Pte.isV_zero
  refine ⟨⟨⟨⟨fun {x r} hr => ?_, fun {x r} hr => ?_, fun {x} _ a n ha => ?_, fun _ _ => rfl⟩,
    ⟨fun {a o} ha => (hboot ha).2, fun {a} ha => ?_, fun {a} ha {n} hn => ?_⟩,
    ⟨fun {x k} hv => (by cases hv), fun {x k l a} ha => ?_, fun {a} ha => ?_, fun {x k} hv => (by cases hv)⟩,
    fun _ _ _ _ => by rw [Pte.isV_zero]; rfl⟩, fun a => ⟨fun ha => ?_, ?_⟩, ?_, ?_⟩,
    fun {p} _ => h.procs p, fun {p} hl => ?_⟩
  · rw [hroots] at hr
    cases hr
  · rw [hroots] at hr
    cases hr
  · cases (hboot ha).1
  · unfold bootOwner
    rw [ne_eq, ite_eq_right_iff, Classical.not_imp]
    exact ⟨fun hu => ⟨⟨ha.aligned, ha.base, ha.top, hu⟩, Option.some_ne_none _⟩, fun hu => hu.1.2.2.2⟩
  · unfold bootOwner at hn
    split_ifs at hn with hp
    · exact Option.some.inj hn
    · rw [← Option.some.inj hn]
      refine h.counts a ha (Bool.eq_false_of_not_eq_true fun hu => hp ⟨ha.aligned, ha.base, ha.top, hu⟩)
  · rw [hmap] at ha
    cases ha
  · cases (hboot ha).1
  · cases (hboot ha).1
  · rintro ⟨p, hp⟩
    rw [h.procs p] at hp
    cases hp
  · intro p q a hp
    rw [h.procs p] at hp
    cases hp
  · intro p r hp
    rw [h.procs p] at hp
    cases hp
  · rw [h.procs p] at hl
    cases hl

theorem SysCore.update {tr : ℕ} {vm : Vm} {procs : Fin NPROC → ProcData}
    {own own' : ℕ → Option (Owner Space)} {pte pte' : Space → ℕ → Pte} {mem mem' : Space → Bytes}
    {p : Fin NPROC} {d : ProcData} {vm' : Vm} (h : SysCore tr vm procs own pte mem)
    (hm : MemOk vm' (upd (rootsOf procs) (p, false) d.pagetable) own' pte' mem')
    (hframes : ∀ a, own' a = some .kernel ↔ d.trapframe = some a ∨ own a = some .kernel ∧
      (procs p).trapframe ≠ some a)
    (hnew : ∀ a, d.trapframe = some a → own a = some .kernel → (procs p).trapframe = some a)
    (hother : ∀ q, q ≠ p → ∀ tf sz, SpaceOk pte (q, false) tr tf sz →
      SpaceOk pte' (q, false) tr tf sz)
    (hspace : ∀ r, d.pagetable = some r → ∃ tf, d.trapframe = some tf ∧
      SpaceOk pte' (p, false) tr tf d.size) : SysCore tr vm' (upd procs p d) own' pte' mem' := by
  have htrap : ∀ {q a}, (upd procs p d q).trapframe = some a →
      (q = p ∧ d.trapframe = some a) ∨ (q ≠ p ∧ (procs q).trapframe = some a) := by
    intro q a hq
    rcases eq_or_ne q p with rfl | hne
    · rw [upd_self] at hq
      exact .inl ⟨rfl, hq⟩
    · rw [upd_of_ne hne] at hq
      exact .inr ⟨hne, hq⟩
  have hclash : ∀ {q a}, q ≠ p → (procs q).trapframe = some a → d.trapframe ≠ some a := by
    intro q a hne hq hd
    exact hne (h.distinct hq (hnew a hd ((h.frames a).2 ⟨q, hq⟩)))
  refine ⟨by rw [rootsOf_upd]; exact hm, fun a => ?_, fun {q q' a} hq hq' => ?_, fun {q r} hq => ?_⟩
  · rw [hframes]
    constructor
    · rintro (hd | ⟨ha, hne⟩)
      · exact ⟨p, by rw [upd_self]; exact hd⟩
      · obtain ⟨q, hq⟩ := (h.frames a).1 ha
        have hqp : q ≠ p := by
          rintro rfl
          exact hne hq
        exact ⟨q, by rw [upd_of_ne hqp]; exact hq⟩
    · rintro ⟨q, hq⟩
      rcases htrap hq with ⟨-, hd⟩ | ⟨hne, hq⟩
      · exact .inl hd
      · exact .inr ⟨(h.frames a).2 ⟨q, hq⟩, fun hp => hne (h.distinct hq hp)⟩
  · rcases htrap hq with ⟨rfl, hd⟩ | ⟨hne, hq1⟩
    · rcases htrap hq' with ⟨rfl, -⟩ | ⟨hne', hq2⟩
      · rfl
      · exact absurd hd (hclash hne' hq2)
    · rcases htrap hq' with ⟨rfl, hd⟩ | ⟨-, hq2⟩
      · exact absurd hd (hclash hne hq1)
      · exact h.distinct hq1 hq2
  · rcases eq_or_ne q p with rfl | hne
    · rw [upd_self] at hq ⊢
      exact hspace r hq
    · rw [upd_of_ne hne] at hq ⊢
      obtain ⟨tf, htf, hsp⟩ := h.space hq
      exact ⟨tf, htf, hother q hne tf _ hsp⟩

end Octopos
