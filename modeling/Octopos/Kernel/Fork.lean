import Octopos.Fs.FileCount
import Octopos.Vm.Counts

/-!
# `fork` that fails

`fork` makes the memory of the child first; only when that has succeeded does the child get the
files of its parent. A `fork` that fails has no effect (`fork_invisible`), with one exception:
writable pages of the parent may have become copy-on-write pages, and behind the end of the process,
in the last page, a page fault is not resolved (`fork_last_page`).
-/

namespace Octopos

/-! ## The kernel -/

/-- The memory of the processes, and their files. -/
structure ForkSys where
  mem : MemSys
  sys : Sys (Fin NPROC)

inductive KernelPanic
  | mem (e : VmPanic)
  | sys (e : SysPanic)
  deriving DecidableEq, Repr

abbrev ForkM := Prog KernelPanic ForkSys

/-- Run a function on the memory of processes. -/
def onMem {α : Type} (m : MemM α) : ForkM α :=
  zoom ForkSys.mem (fun k mem => { k with mem := mem }) .mem m

/-- Run a function on the files of processes. -/
def onSys {α : Type} (m : SysM (Fin NPROC) α) : ForkM α :=
  zoom ForkSys.sys (fun k sys => { k with sys := sys }) .sys m

/-- The slot that `ProcTable::alloc` finds. -/
def MemSys.freeSlot (s : MemSys) : Option (Fin NPROC) :=
  (List.finRange NPROC).find? fun q => !(s.procs q).live

/-- `fork` by the process `p`: the slot of the child. -/
def ForkSys.fork (A : Allocator) (trampoline : ℕ) (p : Fin NPROC) :
    ForkM (Except KernelError (Fin NPROC)) := do
  let k ← get
  match k.mem.freeSlot with
  | none => return .error .outOfProc
  | some q =>
    match ← onMem (Proc.fork A trampoline p q) with
    | .error e => return .error e
    | .ok _ =>
      onSys (Octopos.fork p q true)
      return .ok q

theorem MemSys.freeSlot_unused {s : MemSys} {q : Fin NPROC} (h : s.freeSlot = some q) :
    (s.procs q).live = false := by
  have hq := List.find?_some h
  rwa [Bool.not_eq_true'] at hq

/-! ## What the processes can access -/

variable {A : Allocator} {tr : ℕ} {own own' : ℕ → Option (Owner Space)} {pte pte' : Space → ℕ → Pte}
  {mem mem' : Space → Bytes} {p q : Fin NPROC} {va : ℕ}

theorem Copied.mapping {i j : Space} (h : Copied pte pte' i j 0) (hblank : ∀ va, pte j va = 0) :
    mapping pte' = mapping pte := by
  funext ⟨l, k⟩
  unfold Octopos.mapping
  dsimp only
  rcases eq_or_ne l j with rfl | hj
  · rw [hblank, Pte.target_none (h.todo k (Nat.zero_le _)), Pte.target_none Pte.isV_zero]
  · rcases eq_or_ne l i with rfl | hi
    · exact h.target k
    · rw [h.rest l _ (.inl ⟨hi, hj⟩)]

/-- Sharing the pages of an address space does not change which addresses it can access, except that
a store behind the end of the process may have been possible before. -/
theorem Copied.accessible {i j : Space} {sz : ℕ} {write : Bool} (h : Copied pte pte' i j 0)
    (hread : ∀ k, (pte i (uva k)).isV = true → (pte i (uva k)).isR = true)
    (hva : write = true → va < sz) :
    Accessible write (pte' i) sz va ↔ Accessible write (pte i) sz va := by
  refine exists_congr fun k => and_congr_right fun _ => ?_
  rcases h.parent k with heq | heq
  · rw [heq]
  · rw [heq, Pte.isV_shared, Pte.isU_shared, Pte.isCow_shared]
    unfold Pte.allows
    rw [Pte.isV_shared, Pte.isU_shared, Pte.isR_shared, Pte.isW_shared]
    have hR := hread k
    revert hR hva
    generalize (pte i (uva k)).isV = v
    generalize (pte i (uva k)).isR = r
    generalize (pte i (uva k)).isW = w
    generalize (pte i (uva k)).isU = u
    generalize (pte i (uva k)).isCow = c
    cases write <;> cases v <;> cases r <;> cases w <;> cases u <;> cases c <;> simp

/-! ## The effect of a failing `fork` -/

/-- What a failing `fork` of `p` leaves. -/
structure Invisible (s s' : MemSys) (p : Fin NPROC) : Prop where
  procs : s'.procs = s.procs
  pages : ∀ a, IsPage a → s'.vm.used a = s.vm.used a ∧ s'.vm.refs (pageIndex a) = s.vm.refs (pageIndex a)
  load : ∀ q va, s'.CanAccess q false va ↔ s.CanAccess q false va
  store : ∀ q va, q ≠ p ∨ va < (s.procs q).size → (s'.CanAccess q true va ↔ s.CanAccess q true va)

theorem SysOk.fork_fails {s : MemSys} (h : SysOk tr s own pte mem) (hp : (s.procs p).live = true)
    (hq : (s.procs q).live = false) {E : VmPanic → Prop} :
    wp (Proc.fork A tr p q) (fun r s' => ∀ e, r = .error e → Invisible s s' p) E s := by
  obtain ⟨r, hr⟩ := h.root hp
  have hnew := h.unused hq
  have hroot : rootsOf s.procs (q, false) = none := by
    rw [rootsOf_proc, hnew]
    rfl
  have hpq : p ≠ q := by
    rintro rfl
    rw [hq] at hp
    cases hp
  refine h.fork_wp hr hnew (fun e vm' own' pte' mem' h' hmem hc hs e' he' => ?_)
    fun _ _ _ _ _ _ _ _ _ _ e he => by cases he
  have hmap := hc.mapping (h.memory.trees.blank hroot)
  have h'' : SysCore tr (MemSys.mk vm' s.procs).vm (MemSys.mk vm' s.procs).procs own' pte' mem' := h'
  have haccess : ∀ {x va write}, (write = true → x ≠ p ∨ va < (s.procs x).size) →
      (MemSys.CanAccess ⟨vm', s.procs⟩ x write va ↔ s.CanAccess x write va) := by
    intro x va write hva
    rw [h''.canAccess, h.canAccess]
    rcases eq_or_ne x p with rfl | hxp
    · exact hc.accessible (fun k hv => (h.memory.users.leaf hv).1) fun hw => (hva hw).resolve_left fun hne => hne rfl
    · rcases eq_or_ne x q with rfl | hxq
      · -- the slot of the child has no pages
        have hno : ∀ {pt : Space → ℕ → Pte}, (∀ k, (pt (x, false) (uva k)).isV = false) →
            ¬Accessible write (pt (x, false)) (s.procs x).size va := by
          rintro pt hinv ⟨k, -, hy | ⟨hlt, -⟩⟩
          · rw [Pte.allows, hinv] at hy
            cases hy
          · rw [hnew] at hlt
            exact absurd hlt (Nat.not_lt_zero _)
        refine iff_of_false (hno fun k => hc.todo k (Nat.zero_le _)) (hno fun k => ?_)
        rw [h.memory.trees.blank hroot]
        exact Pte.isV_zero
      · have hsame : ∀ k, pte' (x, false) (uva k) = pte (x, false) (uva k) := fun k =>
          hc.rest _ _ (.inl ⟨ne_space hxp, ne_space hxq⟩)
        unfold Accessible
        simp only [hsame]
  refine ⟨rfl, fun a ha => h.same_pages h'' rfl hroot hs hmap ha, fun x va => haccess fun hw => ?_,
    fun x va hva => haccess fun _ => hva⟩
  cases hw

/-- **A failing `fork` is invisible.** In every state that processes reach while no size passes the
trapframe, and whatever they have done with their files, a `fork` that returns an error leaves the
slots that were unused without memory and files, the pages in use and their counts, and the files
and inodes as they were. Every process loads the bytes that it would have loaded before, and it can
load at the same addresses as before, and store at the same addresses below its size. -/
theorem fork_invisible {s : PrivSys} {f : Sys (Fin NPROC)} {sb : SuperBlock} {e : KernelError}
    {k : ForkSys} (h : Reachable (fun s => MemInit s.sys) (PrivStep A tr) s)
    (hf : Reachable Sys.Init (Sys.Step sb) f)
    (hslots : ∀ q, (s.sys.procs q).live = false → (f.procs q).use = .unused)
    (hp : (s.sys.procs p).live = true)
    (hrun : (ForkSys.fork A tr p).run ⟨s.sys, f⟩ = .ok (.error e, k)) :
    Invisible s.sys k.mem p ∧ k.sys = f ∧
    (∀ q, (s.sys.procs q).live = false → k.mem.procs q = .new ∧
      ∀ fd, (k.sys.procs q).files fd = none) ∧
    ∀ q va, (s.sys.procs q).live = true → va < 2 ^ 64 → ∀ b t,
      (userLoad A q va).run k.mem = .ok (.ok b, t) → b = s.view q va := by
  obtain ⟨own, pte, mem, hI, hσ⟩ := PrivSys.agrees_of_reachable h
  have hwp : wp (ForkSys.fork A tr p) (fun r k => ∀ e, r = .error e → Invisible s.sys k.mem p ∧ k.sys = f ∧
      ∃ own' pte' mem', SysOk tr k.mem own' pte' mem' ∧ Agrees k.mem.procs mem' s.view) (fun _ => True)
      ⟨s.sys, f⟩ := by
    unfold ForkSys.fork
    refine wp_bind.2 (wp_get.2 ?_)
    dsimp only
    cases hslot : s.sys.freeSlot with
    | none =>
      refine wp_pure.2 fun e _ => ⟨⟨rfl, fun _ _ => ⟨rfl, rfl⟩, fun _ _ => Iff.rfl, fun _ _ _ => Iff.rfl⟩, rfl,
        own, pte, mem, hI, hσ⟩
    | some q =>
      have hq := MemSys.freeSlot_unused hslot
      refine wp_bind.2 (wp_zoom (wp_mono (wp_and (hI.run_wp (a := .fork p q) ⟨hp, hq⟩ trivial)
        (hI.fork_fails (E := fun _ => True) hp hq)) (fun r s' hr => ?_) fun _ _ => trivial))
      obtain ⟨⟨own', pte', mem', hstep⟩, hfail⟩ := hr
      cases r with
      | error e => exact wp_pure.2 fun _ _ => ⟨hfail e rfl, rfl, own', pte', mem', hstep.ok, hstep.agrees _ hσ⟩
      | ok _ =>
        exact wp_bind.2 (wp_mono wp_true (fun _ _ _ => wp_pure.2 fun _ he => by cases he) fun _ _ => trivial)
  obtain ⟨hinv, hsys, own', pte', mem', hI', hσ'⟩ := wp_ok hwp hrun e rfl
  refine ⟨hinv, hsys, fun q hq => ⟨?_, fun fd => ?_⟩, fun q va hq hva b t hload => ?_⟩
  · rw [hinv.procs]
    exact hI.unused hq
  · rw [hsys]
    refine (callOk_reachable hf).idle q ?_ fd
    rw [hslots q hq]
    exact fun hno => by cases hno
  · refine PrivSys.load_eq (s := ⟨k.mem, s.view⟩) ⟨own', pte', mem', hI', hσ'⟩ ?_ hva hload
    change (k.mem.procs q).live = true
    rw [hinv.procs]
    exact hq

/-! ## A `fork` without enough memory -/

/-- An allocator that only has a few pages. -/
def scarce (n : ℕ) : Allocator where
  pick k used := if k < n then bump.pick k used else none
  unused {k used pa} h := by
    split_ifs at h
    exact bump.unused h
  aligned {k used pa} h := by
    split_ifs at h
    exact bump.aligned h
  base {k used pa} h := by
    split_ifs at h
    exact bump.base h
  top {k used pa} h := by
    split_ifs at h
    exact bump.top h

/-- The error of `fork` by the first process, and what it leaves. -/
def failedFork (s : MemSys) : Option (KernelError × ForkSys) :=
  match (ForkSys.fork (scarce 11) KERNBASE firstProc).run ⟨s, Sys.boot mkfsFs firstProc ⟨0, 1⟩⟩ with
  | .ok (.error e, k) => some (e, k)
  | _ => none

theorem run_of_failedFork {s : MemSys} {e : KernelError} {k : ForkSys}
    (h : failedFork s = some (e, k)) :
    (ForkSys.fork (scarce 11) KERNBASE firstProc).run ⟨s, Sys.boot mkfsFs firstProc ⟨0, 1⟩⟩ =
      .ok (.error e, k) := by
  unfold failedFork at h
  split at h
  · rename_i hrun
    cases h
    exact hrun
  · cases h

/-- A process of 100 bytes stores to its page; then there are four pages left, and `fork` fails when
it has shared the page. -/
theorem failedFork_run :
    ∃ s e k, Reachable (fun s => MemInit s.sys) (PrivStep (scarce 11) KERNBASE) s ∧
    failedFork s.sys = some (e, k) ∧ (∀ q, (s.sys.procs q).live = decide (q = firstProc)) ∧
    (s.sys.entryOf firstProc (uva firstPage)).allows true = true ∧
    (k.mem.entryOf firstProc (uva firstPage)).allows true = false ∧
    (k.mem.procs firstProc).size = 100 := by
  obtain ⟨s, hrun, hs⟩ := Option.map_eq_some_iff.1
    (show (PrivSys.runAll (scarce 11) KERNBASE ⟨.start, fun _ _ => 0⟩ [.spawn firstProc, .sbrk firstProc 100,
      .store firstProc 50 7]).map (fun s => (decide (∀ q, (s.sys.procs q).live = decide (q = firstProc)),
        (s.sys.entryOf firstProc (uva firstPage)).allows true, (failedFork s.sys).map fun x =>
          ((x.2.mem.entryOf firstProc (uva firstPage)).allows true, (x.2.mem.procs firstProc).size))) =
        some (true, true, some (false, 100)) by decide +kernel)
  obtain ⟨hlive, hbefore, hfork⟩ := Prod.mk.inj hs |>.imp_right Prod.mk.inj
  obtain ⟨⟨e, k⟩, hfork, hafter⟩ := Option.map_eq_some_iff.1 hfork
  obtain ⟨hafter, hsize⟩ := Prod.mk.inj hafter
  exact ⟨s, e, k, PrivSys.runAll_reachable hrun (.init MemSys.start_init), hfork, of_decide_eq_true hlive, hbefore,
    hafter, hsize⟩

/-- A process that could store to its last page behind its end cannot do so after a failing
`fork`. -/
theorem fork_last_page :
    ∃ s f e k, Reachable (fun s => MemInit s.sys) (PrivStep (scarce 11) KERNBASE) s ∧
    Reachable Sys.Init (Sys.Step mkfsSuper) f ∧
    (ForkSys.fork (scarce 11) KERNBASE firstProc).run ⟨s.sys, f⟩ = .ok (.error e, k) ∧
    s.sys.CanAccess firstProc true 200 ∧ ¬k.mem.CanAccess firstProc true 200 := by
  obtain ⟨s, e, k, hreach, hfork, -, hbefore, hafter, hsize⟩ := failedFork_run
  refine ⟨s, _, e, k, hreach, .init (Sys.init_boot ..), run_of_failedFork hfork,
    ⟨firstPage, by decide, .inl hbefore⟩, ?_⟩
  rintro ⟨l, hl, hy | ⟨hlt, -⟩⟩
  · rw [page_eq (show uva firstPage = 200 / PGSIZE * PGSIZE by decide) hl, hafter] at hy
    cases hy
  · rw [hsize] at hlt
    omega

/-- The failing `fork` gives all its pages back. -/
theorem fork_invisible_scarce : ∃ s e k,
    (ForkSys.fork (scarce 11) KERNBASE firstProc).run ⟨s, Sys.boot mkfsFs firstProc ⟨0, 1⟩⟩ =
      .ok (.error e, k) ∧
    ∀ a, IsPage a → k.mem.vm.used a = s.vm.used a := by
  obtain ⟨s, e, k, hreach, hfork, hlive, -⟩ := failedFork_run
  have hinit : Reachable Sys.Init (Sys.Step mkfsSuper) (Sys.boot mkfsFs firstProc ⟨0, 1⟩) :=
    .init (Sys.init_boot ..)
  have hslots : ∀ q, (s.sys.procs q).live = false → ((Sys.boot mkfsFs firstProc ⟨0, 1⟩).procs q).use = .unused := by
    intro q hq
    rw [hlive q, decide_eq_false_iff_not] at hq
    exact if_neg hq
  obtain ⟨hinv, -⟩ := fork_invisible hreach hinit hslots ((hlive firstProc).trans (by decide))
    (run_of_failedFork hfork)
  exact ⟨s.sys, e, k, run_of_failedFork hfork, fun a ha => (hinv.pages a ha).1⟩

end Octopos
