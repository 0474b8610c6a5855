import Octopos.Vm.Isolation
import Octopos.Vm.Sizes

/-!
# Reference counts of pages

The count of a page of user memory is the number of entries that map it, over all processes, and a
page with several mappings is writable through none of them. A page that is in use is mapped,
belongs to a process as a table or as its trapframe, or was in use before the first process
(`page_counts`). An executable with an unreadable program header breaks this: `exec` drops its new
page table, and the memory that it loaded, without freeing it (`exec_loses_page`).
-/

namespace Octopos

variable {A : Allocator} {tr : ℕ} {s s₀ : MemSys} {own : ℕ → Option (Owner Space)} {pte : Space → ℕ → Pte}
  {mem : Space → Bytes} {p : Fin NPROC} {k : Fin USERPAGES} {a : ℕ}

/-! ## Mappings and tables of the processes -/

/-- The physical page of every user page of every process. -/
def MemSys.maps (s : MemSys) (x : Fin NPROC × Fin USERPAGES) : Option ℕ :=
  (s.entryOf x.1 (uva x.2)).target

theorem SysCore.maps (h : SysCore tr s.vm s.procs own pte mem) :
    s.maps (p, k) = mapping pte ((p, false), k) := by
  unfold MemSys.maps mapping
  rw [h.entryOf_user]

theorem SysCore.uses_maps (h : SysCore tr s.vm s.procs own pte mem) :
    uses s.maps a = uses (mapping pte) a := by
  refine uses_of_injective (e := fun x => ((x.1, false), x.2)) (fun x y heq => ?_) (fun x => h.maps) ?_
  · have hpair := Prod.mk.inj heq
    exact Prod.ext (Prod.mk.inj hpair.1).1 hpair.2
  · rintro ⟨⟨p, b⟩, k⟩ hx
    cases b with
    | false => exact ⟨(p, k), rfl⟩
    | true =>
      rw [mapping_eq_some, h.memory.trees.blank (rootsOf_exec s.procs p)] at hx
      cases hx.1

/-- The reference counts, where `boot` are the pages in use before the first process. -/
structure PageCounts (boot : ℕ → Bool) (s : MemSys) : Prop where
  kept : ∀ {x a}, s.maps x = some a → IsPage a ∧ s.vm.used a = true
  count : ∀ {x a}, s.maps x = some a → (s.vm.refs (pageIndex a)).toNat = uses s.maps a
  bound : ∀ a, uses s.maps a ≤ NPROC
  shared : ∀ {x a}, s.maps x = some a → 1 < uses s.maps a → (s.entryOf x.1 (uva x.2)).isW = false
  returned : ∀ {a}, IsPage a → s.vm.used a = true → uses s.maps a = 0 → boot a = true ∨
    ∃ p, (s.procs p).trapframe = some a ∨ ∃ root, (s.procs p).pagetable = some root ∧ s.vm.IsTable root a

theorem SysCore.returned {boot : ℕ → Bool} (h : SysCore tr s.vm s.procs own pte mem)
    (hboot : ∀ b n, own b = some (.static n) → boot b = true) (ha : IsPage a)
    (hu : s.vm.used a = true) (hno : uses s.maps a = 0) :
    boot a = true ∨ ∃ p, (s.procs p).trapframe = some a ∨
    ∃ root, (s.procs p).pagetable = some root ∧ s.vm.IsTable root a := by
  obtain ⟨o, ho⟩ := Option.ne_none_iff_exists'.1 ((h.memory.pages.used ha).1 hu)
  cases o with
  | static n => exact .inl (hboot a n ho)
  | kernel =>
    obtain ⟨p, hp⟩ := (h.frames a).1 ho
    exact .inr ⟨p, .inl hp⟩
  | user =>
    have hpos := (h.memory.users.count ho).2
    rw [← h.uses_maps, hno] at hpos
    exact absurd hpos (Nat.lt_irrefl 0)
  | table x n =>
    obtain ⟨root, hroot⟩ := Option.ne_none_iff_exists'.1 fun hnone => h.memory.trees.dead hnone a n ho
    obtain ⟨p, b⟩ := x
    cases b with
    | true => cases hroot
    | false =>
      exact .inr ⟨p, .inr ⟨root, hroot, (h.memory.trees.radix hroot).isTable (labels_eq_some.2 ho)⟩⟩

theorem SysCore.pageCounts {boot : ℕ → Bool} (h : SysCore tr s.vm s.procs own pte mem)
    (hboot : ∀ b n, own b = some (.static n) → boot b = true) : PageCounts boot s := by
  have huser : ∀ {x a}, s.maps x = some a → own a = some .user := by
    rintro ⟨p, k⟩ a hx
    rw [h.maps, mapping_eq_some] at hx
    rw [← hx.2]
    exact (h.memory.users.leaf hx.1).2
  refine ⟨fun {x a} hx => ?_, fun {x a} hx => ?_, fun a => ?_, fun {x a} hx hmany => ?_, h.returned hboot⟩
  · have hpage := h.memory.pages.page (huser hx)
    refine ⟨hpage, (h.memory.pages.used hpage).2 ?_⟩
    rw [huser hx]
    exact Option.some_ne_none _
  · rw [h.uses_maps]
    exact (h.memory.users.count (huser hx)).1
  · have hle : uses s.maps a ≤ Fintype.card (Fin NPROC) := uses_le_card fun p k l hk hl => by
      rw [h.maps] at hk hl
      exact h.memory.users.inj hk hl
    rwa [Fintype.card_fin] at hle
  · obtain ⟨p, k⟩ := x
    rw [h.maps, mapping_eq_some] at hx
    rw [h.uses_maps, ← hx.2] at hmany
    dsimp only
    rw [h.entryOf_user]
    by_contra hw
    rw [Bool.not_eq_false] at hw
    exact absurd (h.memory.users.excl hx.1 hw) hmany.ne'

section Fails

variable {s' : MemSys} {own' : ℕ → Option (Owner Space)} {pte' : Space → ℕ → Pte} {mem' : Space → Bytes} {x : Space}

/-- An action that leaves the processes and what they map alone leaves the owners alone, too. -/
theorem SysCore.same_owner (h : SysCore tr s.vm s.procs own pte mem)
    (h' : SysCore tr s'.vm s'.procs own' pte' mem') (hprocs : s'.procs = s.procs)
    (hx : rootsOf s.procs x = none) (hs : SameForeign x own own')
    (hmap : mapping pte' = mapping pte) (a : ℕ) : own' a = own a := by
  refine Option.ext fun o => ?_
  cases o with
  | static n => exact hs.static a n
  | kernel => rw [h.frames, h'.frames, hprocs]
  | user =>
    have huses := congrArg (fun m => 0 < uses m a) hmap
    constructor
    · intro ho
      obtain ⟨⟨y, k⟩, hy⟩ := exists_of_uses_pos (huses.mp (h'.memory.users.count ho).2)
      exact h.memory.users.owner hy
    · intro ho
      obtain ⟨⟨y, k⟩, hy⟩ := exists_of_uses_pos (huses.mpr (h.memory.users.count ho).2)
      exact h'.memory.users.owner hy
  | table y n =>
    rcases eq_or_ne y x with rfl | hne
    · refine ⟨fun ho => absurd ho (h'.memory.trees.dead ?_ a n), fun ho => absurd ho (h.memory.trees.dead hx a n)⟩
      rw [hprocs]
      exact hx
    · exact hs a (.table y n) hne fun heq => by cases heq

theorem SysCore.same_pages (h : SysCore tr s.vm s.procs own pte mem)
    (h' : SysCore tr s'.vm s'.procs own' pte' mem') (hprocs : s'.procs = s.procs)
    (hx : rootsOf s.procs x = none) (hs : SameForeign x own own')
    (hmap : mapping pte' = mapping pte) (ha : IsPage a) :
    s'.vm.used a = s.vm.used a ∧ s'.vm.refs (pageIndex a) = s.vm.refs (pageIndex a) := by
  have hown := h.same_owner h' hprocs hx hs hmap a
  refine ⟨Bool.eq_iff_iff.2 ?_, ?_⟩
  · rw [h'.memory.pages.used ha, h.memory.pages.used ha, hown]
  · have hfixed : ∀ {n}, fixedCount (own a) = some n → s'.vm.refs (pageIndex a) = s.vm.refs (pageIndex a) := by
      intro n hn
      rw [h.memory.pages.count ha hn, h'.memory.pages.count ha (hown ▸ hn)]
    cases ho : own a with
    | none => exact hfixed (by rw [ho]; rfl)
    | some o =>
      cases o with
      | static n => exact hfixed (by rw [ho]; rfl)
      | kernel => exact hfixed (by rw [ho]; rfl)
      | user =>
        refine UInt8.toNat_inj.1 ?_
        rw [(h.memory.users.count ho).1, (h'.memory.users.count (hown.trans ho)).1, hmap]
      | table y n =>
        have hroot : ∀ {r}, rootsOf s.procs y = some r → s.vm.refs (pageIndex a) = 1 := fun hr =>
          (h.memory.trees.radix hr).refs (labels_eq_some.2 ho)
        have hroot' : ∀ {r}, rootsOf s'.procs y = some r → s'.vm.refs (pageIndex a) = 1 := fun hr =>
          (h'.memory.trees.radix hr).refs (labels_eq_some.2 (hown.trans ho))
        obtain ⟨r, hr⟩ := Option.ne_none_iff_exists'.1 fun hnone => h.memory.trees.dead hnone a n ho
        rw [hroot hr, hroot' (hprocs ▸ hr)]

end Fails

/-- The pages that were in use from the start are the only ones that no process accounts for. -/
theorem SysOk.of_readable (h0 : MemInit s₀)
    (h : Reachable (· = s₀) (Guarded (fun s l => l.1.Fits s ∧ l.1.Readable) (MemStep A tr)) s) :
    ∃ own pte mem, SysOk tr s own pte mem ∧ ∀ b n, own b = some (.static n) →
    s₀.vm.used b = true := by
  refine h.invariant (I := fun s => ∃ own pte mem, SysOk tr s own pte mem ∧
    ∀ b n, own b = some (.static n) → s₀.vm.used b = true) ?_ ?_
  · rintro s rfl
    refine ⟨_, _, _, h0.sysOk tr, fun b n hb => ?_⟩
    unfold bootOwner at hb
    split_ifs at hb with hused
    exact hused.2.2.2
  · rintro s l s' ⟨own, pte, mem, hI, hboot⟩ ⟨⟨hfit, hread⟩, hl⟩
    obtain ⟨own', pte', mem', hstep⟩ := hI.step hl hfit
    exact ⟨own', pte', mem', hstep.ok, fun b n hb => hboot b n ((hstep.lost hread b n).1 hb)⟩

/-- **The counts of pages** in every state that processes reach while no size passes the trapframe
and the executables have program headers that can be read. -/
theorem page_counts (h₀ : MemInit s₀)
    (h : Reachable (· = s₀) (Guarded (fun s l => l.1.Fits s ∧ l.1.Readable) (MemStep A tr)) s) :
    PageCounts s₀.vm.used s := by
  obtain ⟨own, pte, mem, hI, hboot⟩ := SysOk.of_readable h₀ h
  exact hI.pageCounts hboot

instance (file : ExecFile) : Decidable (Exec.HeadersReadable file) :=
  match h : file 0 ElfHeader.SIZE with
  | none => isTrue fun _ hbuf => absurd (h.symm.trans hbuf) (Option.some_ne_none _).symm
  | some buf =>
    decidable_of_iff (∀ k < (ElfHeader.fromBytes buf).phnum,
      file (((ElfHeader.fromBytes buf).phoff + k * ProgramHeader.SIZE) % 2 ^ 32) ProgramHeader.SIZE ≠ none)
      ⟨fun hk _ hbuf => Option.some.inj (h.symm.trans hbuf) ▸ hk, fun hread => hread buf h⟩

instance MemAction.decidableReadable (a : MemAction) : Decidable a.Readable :=
  match a with
  | .exec _ file _ => inferInstanceAs (Decidable (Exec.HeadersReadable file))
  | .spawn _ | .fork _ _ | .sbrk _ _ | .load _ _ | .store _ _ _ | .copyTo _ _ _ | .copyFrom _ _ _ | .free _ =>
    isTrue trivial

/-- A process stores to a page, forks, and the child stores to the page, too. -/
theorem page_counts_fork : ∃ s, Reachable (· = .start)
    (Guarded (fun s l => l.1.Fits s ∧ l.1.Readable) (MemStep bump KERNBASE)) s ∧
    (s.procs secondProc).live = true ∧ PageCounts MemSys.start.vm.used s := by
  obtain ⟨s, hrun, hs⟩ := Option.map_eq_some_iff.1
    (show (MemSys.start.runAll bump KERNBASE (fun s a => decide (a.Fits s ∧ a.Readable))
      [.spawn firstProc, .sbrk firstProc 4096, .store firstProc 5 7, .fork firstProc secondProc,
        .store secondProc 5 8]).map (fun s => (s.procs secondProc).live) = some true by decide +kernel)
  have hrunOk : Reachable (· = .start)
      (Guarded (fun s l => decide (l.1.Fits s ∧ l.1.Readable) = true) (MemStep bump KERNBASE)) s :=
    MemSys.runAll_reachable hrun (.init rfl)
  have hreach : Reachable (· = .start) (Guarded (fun s l => l.1.Fits s ∧ l.1.Readable) (MemStep bump KERNBASE)) s :=
    hrunOk.mono fun _ _ _ h => ⟨of_decide_eq_true h.1, h.2⟩
  exact ⟨s, hreach, hs, page_counts MemSys.start_init hreach⟩

/-- An executable with two program headers: four bytes to load at 0, and a header that is
missing. -/
def cutFile : ExecFile := fun offset _ =>
  if offset = 0 then some fun x => if x = 0 then 0x7F else if x = 1 then 0x45 else if x = 2 then 0x4C else
    if x = 3 then 0x46 else if x = 32 then 64 else if x = 56 then 2 else 0
  else if offset = 64 then some fun x => if x = 0 then 1 else if x = 4 then 4 else if x = 32 then 4 else
    if x = 40 then 8 else 0
  else none

/-- A process tries to execute such a file and exits. No process is left, but the page that holds
the loaded bytes is still in use. -/
theorem exec_loses_page : ∃ s, Reachable (· = .start) (MemStep bump KERNBASE) s ∧
    (∀ p, s.procs p = .new) ∧ s.vm.used (KERNBASE + 7 * PGSIZE) = true ∧
    s.vm.data (KERNBASE + 7 * PGSIZE) 0 = 0x7F ∧ ¬PageCounts MemSys.start.vm.used s := by
  obtain ⟨s, hrun, hs⟩ := Option.map_eq_some_iff.1 (show (MemSys.start.runAll bump KERNBASE (fun _ _ => true)
      [.spawn firstProc, .exec firstProc cutFile [], .free firstProc]).map (fun s =>
        (decide (∀ p, s.procs p = .new), s.vm.used (KERNBASE + 7 * PGSIZE),
          s.vm.data (KERNBASE + 7 * PGSIZE) 0)) = some (true, true, 0x7F)
      by decide +kernel)
  simp only [Prod.mk.injEq, decide_eq_true_eq] at hs
  obtain ⟨hnew, hused, hdata⟩ := hs
  have hreach : Reachable (· = .start) (Guarded (fun _ _ => true = true) (MemStep bump KERNBASE)) s :=
    MemSys.runAll_reachable hrun (.init rfl)
  have hmaps : ∀ x, s.maps x = none := by
    intro x
    unfold MemSys.maps MemSys.entryOf
    rw [hnew]
    exact Pte.target_none Pte.isV_zero
  refine ⟨s, hreach.mono fun _ _ _ h => h.2, hnew, hused, hdata, fun hcounts => ?_⟩
  have hno : uses s.maps (KERNBASE + 7 * PGSIZE) = 0 := by
    rw [funext hmaps]
    exact uses_none
  obtain hboot | ⟨p, hp⟩ := hcounts.returned ⟨by decide, by decide, by decide⟩ hused hno
  · cases hboot
  · rw [hnew p] at hp
    obtain hp | ⟨root, hp, -⟩ := hp
    · cases hp
    · cases hp

end Octopos
