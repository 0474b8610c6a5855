import Octopos.Vm.Machine

/-!
# Tearing down address spaces

Address spaces are made by `Proc::create_pagetable`; then they grow, shrink, fault and are copied,
in any order (`SpaceAction`), and their user pages stay below their sizes (`SpacesOk`). So
`Uvm::proc_free` gives back every page once (`procFree_frees_once`).
-/

namespace Octopos

/-! ## Giving up an address space -/

/-- The user pages of the page table at `root` lie below `size`, rounded up. -/
def PagesBelow (vm : Vm) (root size : ℕ) : Prop :=
  ∀ va, va % PGSIZE = 0 → va < TRAPFRAME → (vm.entry root va).isV = true → va < roundUp size

/-- What becomes of the pages when the page table at `root` is given up. -/
structure TornDown (vm vm' : Vm) (root : ℕ) : Prop where
  pages : ∀ va, va % PGSIZE = 0 → va < TRAPFRAME → (vm.entry root va).isV = true →
    (vm'.refs (pageIndex (vm.entry root va).asPa)).toNat + 1 =
      (vm.refs (pageIndex (vm.entry root va).asPa)).toNat ∧
    (vm'.used (vm.entry root va).asPa = true ↔ vm'.refs (pageIndex (vm.entry root va).asPa) ≠ 0)
  tables : ∀ a, vm.IsTable root a → (vm.used a = true ∧ vm.refs (pageIndex a) = 1) ∧
    vm'.used a = false ∧ vm'.refs (pageIndex a) = 0
  others : ∀ a, IsPage a → ¬vm.IsTable root a →
    (∀ va, va % PGSIZE = 0 → va < TRAPFRAME → (vm.entry root va).isV = true → (vm.entry root va).asPa ≠ a) →
    vm'.used a = vm.used a ∧ vm'.refs (pageIndex a) = vm.refs (pageIndex a)

section Dropped

variable {ι : Type} [DecidableEq ι] [Fintype ι] {vm vm' : Vm} {roots : ι → Option ℕ}
  {own own' : ℕ → Option (Owner ι)} {pte : ι → ℕ → Pte} {mem mem' : ι → Bytes} {i : ι} {r a : ℕ}
  {k : Fin USERPAGES}

omit [Fintype ι] in
theorem mapping_drop (pte : ι → ℕ → Pte) (i : ι) (k : Fin USERPAGES) :
    mapping (upd pte i fun _ => 0) (i, k) = none := by
  unfold mapping
  rw [upd_self]
  rfl

omit [Fintype ι] in
theorem mapping_drop_of_ne {j : ι} (hj : j ≠ i) (k : Fin USERPAGES) :
    mapping (upd pte i fun _ => 0) (j, k) = mapping pte (j, k) := by
  unfold mapping
  rw [upd_of_ne hj]

/-- A page that is no longer mapped by the address space `i`, which was given up, belongs to no
one. -/
theorem MemOk.dropped_none (h' : MemOk vm' (upd roots i none) own' (upd pte i fun _ => 0) mem')
    (hk : SameOutside i own own') (ha : ∀ o, own a = some o → ¬o.Outside i)
    (huses : uses (mapping (upd pte i fun _ => 0)) a = 0) : own' a = none := by
  cases ho : own' a with
  | none => rfl
  | some o =>
    exfalso
    by_cases hout : o.Outside i
    · exact ha o ((hk a o hout).1 ho) hout
    cases o with
    | user => exact absurd (h'.users.count ho).2 (by omega)
    | kernel => exact hout trivial
    | static n => exact hout trivial
    | table j n =>
      have hj : j = i := not_not.1 hout
      rw [hj] at ho
      exact h'.trees.dead (upd_self ..) a n ho

theorem MemOk.unused (h : MemOk vm roots own pte mem) (ha : IsPage a) (ho : own a = none) :
    vm.used a = false ∧ vm.refs (pageIndex a) = 0 := by
  refine ⟨?_, h.pages.count ha (by rw [ho]; rfl)⟩
  rw [← Bool.not_eq_true, h.pages.used ha, ho]
  exact fun hne => hne rfl

/-- Pages outside of the address space `i` are the same after it was given up. -/
theorem MemOk.dropped_outside (h : MemOk vm roots own pte mem)
    (h' : MemOk vm' (upd roots i none) own' (upd pte i fun _ => 0) mem')
    (hk : SameOutside i own own') (ha : IsPage a) {o : Owner ι} (ho : own a = some o)
    (hout : o.Outside i) :
    vm'.used a = vm.used a ∧ vm'.refs (pageIndex a) = vm.refs (pageIndex a) := by
  have ho' := (hk a o hout).2 ho
  have hused {vm : Vm} {roots : ι → Option ℕ} {own : ℕ → Option (Owner ι)} {pte : ι → ℕ → Pte}
      {mem : ι → Bytes} (h : MemOk vm roots own pte mem) (ho : own a = some o) : vm.used a = true := by
    rw [h.pages.used ha, ho]
    exact Option.some_ne_none _
  refine ⟨(hused h' ho').trans (hused h ho).symm, ?_⟩
  cases o with
  | user => exact hout.elim
  | kernel => rw [h.pages.count ha (by rw [ho]; rfl), h'.pages.count ha (by rw [ho']; rfl)]
  | static n => rw [h.pages.count ha (by rw [ho]; rfl), h'.pages.count ha (by rw [ho']; rfl)]
  | table j n =>
    have hroot {vm : Vm} {roots : ι → Option ℕ} {own : ℕ → Option (Owner ι)} {pte : ι → ℕ → Pte}
        {mem : ι → Bytes} (h : MemOk vm roots own pte mem) (ho : own a = some (.table j n)) :
        vm.refs (pageIndex a) = 1 := by
      obtain ⟨root, hroot⟩ := Option.ne_none_iff_exists'.1 fun hnone => h.trees.dead hnone a n ho
      exact (h.trees.radix hroot).refs (labels_eq_some.2 ho)
    rw [hroot h ho, hroot h' ho']

theorem MemOk.tornDown (h : MemOk vm roots own pte mem) (hr : roots i = some r)
    (h' : MemOk vm' (upd roots i none) own' (upd pte i fun _ => 0) mem')
    (hk : SameOutside i own own') : TornDown vm vm' r := by
  have hrad := h.trees.radix hr
  have hentry (k : Fin USERPAGES) : vm.entry r (uva k) = pte i (uva k) :=
    h.trees.entry hr _ (uva_userVa k).aligned (uva_userVa k).lt_MAXVA
  have hrow := mapping_drop pte i
  have hother (j : ι) (k : Fin USERPAGES) (hj : j ≠ i) :
      mapping (upd pte i fun _ => 0) (j, k) = mapping pte (j, k) := mapping_drop_of_ne hj k
  -- a user page belongs to users as long as someone maps it
  have huser {a : ℕ} (hpos : 0 < uses (mapping (upd pte i fun _ => 0)) a) :
      own a = some .user ∧ own' a = some .user := by
    obtain ⟨⟨j, k⟩, hj⟩ := exists_of_uses_pos hpos
    refine ⟨?_, h'.users.owner hj⟩
    rcases eq_or_ne j i with rfl | hne
    · rw [hrow] at hj
      cases hj
    · rw [hother j k hne] at hj
      exact h.users.owner hj
  refine ⟨fun va ha htop hv => ?_, fun a ha => ?_, fun a ha htable hno => ?_⟩
  · obtain ⟨k, rfl⟩ := (UserVa.mk ha htop).exists_uva
    rw [hentry] at hv ⊢
    have hmap : mapping pte (i, k) = some (pte i (uva k)).asPa := mapping_eq_some.2 ⟨hv, rfl⟩
    have hown := h.users.owner hmap
    have hpage := h.userPage hown
    have hcount := (h.users.count hown).1
    rw [uses_clearRow hrow hother hmap fun l hl => h.users.inj hl hmap] at hcount
    rcases Nat.eq_zero_or_pos (uses (mapping (upd pte i fun _ => 0)) (pte i (uva k)).asPa) with hz | hpos
    · have hnone := h'.dropped_none hk (fun o ho => by rw [hown] at ho; cases ho; exact id) hz
      obtain ⟨hused, hrefs⟩ := h'.unused hpage hnone
      rw [hused, hrefs, hcount, hz]
      exact ⟨rfl, by simp⟩
    · have hown' := (huser hpos).2
      have hcount' := (h'.users.count hown').1
      refine ⟨by omega, ?_⟩
      rw [h'.pages.used hpage, hown']
      refine ⟨fun _ hzero => ?_, fun _ => Option.some_ne_none _⟩
      rw [hzero] at hcount'
      exact absurd hcount' (by simpa using hpos.ne)
  · obtain ⟨n, hn⟩ := hrad.isTable_iff.1 ha
    have hown := labels_eq_some.1 hn
    refine ⟨⟨hrad.used hn, hrad.refs hn⟩, h'.unused (hrad.page hn) (h'.dropped_none hk ?_ ?_)⟩
    · intro o ho
      rw [hown] at ho
      cases ho
      exact fun hne => hne rfl
    · by_contra hne
      have := (huser (Nat.pos_of_ne_zero hne)).1
      rw [hown] at this
      cases this
  · cases ho : own a with
    | none =>
      obtain ⟨hused, hrefs⟩ := h.unused ha ho
      have hnone : own' a = none := by
        refine h'.dropped_none hk (fun o ho' => by rw [ho] at ho'; cases ho') ?_
        by_contra hne
        have := (huser (Nat.pos_of_ne_zero hne)).1
        rw [ho] at this
        cases this
      obtain ⟨hused', hrefs'⟩ := h'.unused ha hnone
      rw [hused, hused', hrefs, hrefs']
      exact ⟨rfl, rfl⟩
    | some o =>
      by_cases hout : o.Outside i
      · exact h.dropped_outside h' hk ha ho hout
      cases o with
      | kernel => exact absurd trivial hout
      | static n => exact absurd trivial hout
      | table j n =>
        have hj : j = i := not_not.1 hout
        rw [hj] at ho
        exact absurd (hrad.isTable (labels_eq_some.2 ho)) htable
      | user =>
        have hunused : ∀ k, mapping pte (i, k) ≠ some a := by
          intro k hk'
          obtain ⟨hv, hpa⟩ := mapping_eq_some.1 hk'
          refine hno (uva k) (uva_userVa k).aligned (uva_userVa k).top ?_ ?_
          · rwa [hentry]
          · rwa [hentry]
        have heq := uses_clearRow_of_unused hrow hother hunused
        obtain ⟨hcount, hpos⟩ := h.users.count ho
        rw [← heq] at hcount hpos
        have ho' := (huser hpos).2
        refine ⟨?_, UInt8.toNat_inj.1 ((h'.users.count ho').1.trans hcount.symm)⟩
        rw [Bool.eq_iff_iff, h.pages.used ha, h'.pages.used ha, ho, ho']

end Dropped

/-! ## Address spaces in use -/

/-- A user address space: its page table, the page that is mapped as its trapframe, and its size. -/
structure UserSpace where
  root : ℕ
  frame : ℕ
  size : ℕ
  deriving DecidableEq, Repr

/-- The memory, the pages for trapframes, and the address spaces. -/
structure SpaceSys where
  vm : Vm
  frames : List ℕ
  spaces : Space → Option UserSpace

/-- What is done to address spaces. -/
inductive SpaceAction
  | frame
  | create (x : Space) (frame : ℕ)
  | alloc (x : Space) (newSize : ℕ) (xperm : Pte)
  | dealloc (x : Space) (newSize : ℕ)
  | grow (x : Space) (n : ℕ)
  | fault (x : Space) (va : ℕ)
  | copy (x y : Space)
  | free (x : Space)

namespace SpaceSys

/-- Run a function of `vm.rs`, unless it stops the kernel. -/
def call {α : Type} (s : SpaceSys) (m : VmM α) (k : α → SpaceSys → SpaceSys) : Option SpaceSys :=
  match m.run s.vm with
  | .ok (a, vm) => some (k a { s with vm := vm })
  | .error _ => none

def setSpace (s : SpaceSys) (x : Space) (u : Option UserSpace) : SpaceSys :=
  { s with spaces := upd s.spaces x u }

def next (A : Allocator) (tr : ℕ) (s : SpaceSys) : SpaceAction → Option SpaceSys
  | .frame => s.call (pageAlloc A) fun r s => match r with
    | some page => { s with frames := page :: s.frames }
    | none => s
  | .create x frame =>
    if s.spaces x = none ∧ frame ∈ s.frames then
      s.call (Proc.createPagetable A tr frame) fun r s => match r with
        | .ok root => s.setSpace x (some ⟨root, frame, 0⟩)
        | .error _ => s
    else none
  | .alloc x newSize xperm => do
    let u ← s.spaces x
    if xperm.toNat < 2 ^ 10 then
      s.call (Uvm.alloc A u.root u.size newSize xperm) fun r s => match r with
        | .ok size => s.setSpace x (some { u with size := size })
        | .error _ => s
    else none
  | .dealloc x newSize => do
    let u ← s.spaces x
    s.call (Uvm.dealloc A u.root u.size newSize) fun size s => s.setSpace x (some { u with size := size })
  | .grow x n => do
    let u ← s.spaces x
    if u.size + n ≤ TRAPFRAME then some (s.setSpace x (some { u with size := u.size + n })) else none
  | .fault x va => do
    let u ← s.spaces x
    s.call (Uvm.vmfault A u.root u.size va) fun _ s => s
  | .copy x y => do
    let u ← s.spaces x
    let w ← s.spaces y
    if x ≠ y ∧ w.size = 0 then
      s.call (Uvm.copy A u.root w.root u.size) fun r s => match r with
        | .ok _ => s.setSpace y (some { w with size := u.size })
        | .error _ => s
    else none
  | .free x => do
    let u ← s.spaces x
    s.call (Uvm.procFree A u.root u.size) fun _ s => s.setSpace x none

end SpaceSys

def SpaceStep (A : Allocator) (tr : ℕ) (s : SpaceSys) (a : SpaceAction) (s' : SpaceSys) : Prop :=
  s.next A tr a = some s'

/-- There is no address space yet; the trampoline is a page of the kernel. -/
structure SpaceInit (tr : ℕ) (s : SpaceSys) : Prop where
  frames : s.frames = []
  spaces : ∀ x, s.spaces x = none
  counts : ∀ a, IsPage a → s.vm.used a = false → s.vm.refs (pageIndex a) = 0
  trampoline : IsPage tr → s.vm.used tr = true

/-- The address spaces and the description of the memory. -/
structure SpacesOk (tr : ℕ) (s : SpaceSys) (own : ℕ → Option (Owner Space)) (pte : Space → ℕ → Pte)
    (mem : Space → Bytes) : Prop where
  memory : MemOk s.vm (fun x => (s.spaces x).map UserSpace.root) own pte mem
  frames : ∀ a ∈ s.frames, own a = some .kernel
  space : ∀ {x u}, s.spaces x = some u → u.frame ∈ s.frames ∧ SpaceOk pte x tr u.frame u.size
  trampoline : IsPage tr → ∃ n, own tr = some (.static n)

section Steps

variable {A : Allocator} {tr : ℕ} {s s' : SpaceSys} {own own' : ℕ → Option (Owner Space)}
  {pte pte' : Space → ℕ → Pte} {mem mem' : Space → Bytes} {x y : Space} {u w : UserSpace} {vm' : Vm}

theorem SpaceSys.call_eq_some {α : Type} {m : VmM α} {k : α → SpaceSys → SpaceSys}
    (h : s.call m k = some s') :
    ∃ a vm', m.run s.vm = .ok (a, vm') ∧ k a { s with vm := vm' } = s' := by
  unfold SpaceSys.call at h
  split at h
  · rename_i a vm' hrun
    exact ⟨a, vm', hrun, Option.some.inj h⟩
  · cases h

theorem roots_setSpace (s : SpaceSys) (x : Space) (u : Option UserSpace) :
    (fun y => ((s.setSpace x u).spaces y).map UserSpace.root) =
      upd (fun y => (s.spaces y).map UserSpace.root) x (u.map UserSpace.root) := by
  funext y
  change (upd s.spaces x u y).map UserSpace.root = _
  rw [upd_apply, upd_apply]
  split_ifs <;> rfl

/-- The address space `x` has changed, and the entries of the others are the same. -/
theorem SpacesOk.setSpace (h : SpacesOk tr s own pte mem) {u : Option UserSpace}
    (hm : MemOk vm' (upd (fun y => (s.spaces y).map UserSpace.root) x (u.map UserSpace.root)) own'
        pte' mem') (hk : SameOutside x own own')
    (hother : ∀ y, y ≠ x → ∀ tf sz, SpaceOk pte y tr tf sz → SpaceOk pte' y tr tf sz)
    (hnew : ∀ w, u = some w → w.frame ∈ s.frames ∧ SpaceOk pte' x tr w.frame w.size) :
    SpacesOk tr (({ s with vm := vm' } : SpaceSys).setSpace x u) own' pte' mem' := by
  refine ⟨?_, fun a ha => (hk.kernel a).2 (h.frames a ha), fun {y w} hy => ?_, fun htr => ?_⟩
  · rw [roots_setSpace]
    exact hm
  · change upd s.spaces x u y = some w at hy
    rcases eq_or_ne y x with rfl | hne
    · rw [upd_self] at hy
      exact hnew w hy
    · rw [upd_of_ne hne] at hy
      exact (h.space hy).imp_right (hother y hne _ _)
  · obtain ⟨n, hn⟩ := h.trampoline htr
    exact ⟨n, (hk.static tr n).2 hn⟩

theorem SpacesOk.setSize (h : SpacesOk tr s own pte mem) (hu : s.spaces x = some u) {size : ℕ}
    (hm : MemOk vm' (fun y => (s.spaces y).map UserSpace.root) own' pte' mem')
    (hk : SameOutside x own own')
    (hother : ∀ y, y ≠ x → ∀ tf sz, SpaceOk pte y tr tf sz → SpaceOk pte' y tr tf sz)
    (hs : SpaceOk pte' x tr u.frame size) :
    SpacesOk tr (({ s with vm := vm' } : SpaceSys).setSpace x (some { u with size := size })) own'
      pte' mem' := by
  refine h.setSpace ?_ hk hother fun w hw => ?_
  · have hroot : (some ({ u with size := size } : UserSpace)).map UserSpace.root =
        (s.spaces x).map UserSpace.root := by rw [hu]; rfl
    rw [hroot, upd_eq_self]
    exact hm
  · cases hw
    exact ⟨(h.space hu).1, hs⟩

theorem SpacesOk.keepSize (h : SpacesOk tr s own pte mem) (hu : s.spaces x = some u)
    (hm : MemOk vm' (fun y => (s.spaces y).map UserSpace.root) own' pte' mem')
    (hk : SameOutside x own own')
    (hother : ∀ y, y ≠ x → ∀ tf sz, SpaceOk pte y tr tf sz → SpaceOk pte' y tr tf sz)
    (hs : SpaceOk pte' x tr u.frame u.size) : SpacesOk tr { s with vm := vm' } own' pte' mem' := by
  have h' := h.setSize hu hm hk hother hs
  have hsame : ({ s with vm := vm' } : SpaceSys).setSpace x (some u) = { s with vm := vm' } := by
    rw [← hu]
    exact congrArg (SpaceSys.mk vm' s.frames) (upd_eq_self ..)
  rwa [hsame] at h'

/-- The memory has a description that fits the address spaces. -/
def SpacesFine (tr : ℕ) (s : SpaceSys) : Prop := ∃ own pte mem, SpacesOk tr s own pte mem

theorem SpaceInit.fine (h : SpaceInit tr s) : SpacesFine tr s := by
  have hinit : MemInit ⟨s.vm, fun _ => .new⟩ := ⟨fun _ => rfl, h.counts⟩
  have hboot := (hinit.sysOk tr).memory
  have hroots : rootsOf (fun _ => ProcData.new) = fun x => (s.spaces x).map UserSpace.root := by
    funext x
    rw [h.spaces]
    unfold rootsOf
    split_ifs <;> rfl
  refine ⟨_, _, _, hroots ▸ hboot, fun a ha => ?_, fun hx => ?_, fun htr => ⟨s.vm.refs (pageIndex tr), ?_⟩⟩
  · rw [h.frames] at ha
    cases ha
  · rw [h.spaces] at hx
    cases hx
  · exact if_pos ⟨htr.aligned, htr.base, htr.top, h.trampoline htr⟩

theorem SpacesFine.of_call {α : Type} {m : VmM α} {k : α → SpaceSys → SpaceSys}
    (h : s.call m k = some s')
    (hwp : wp m (fun a vm' => SpacesFine tr (k a { s with vm := vm' })) (fun _ => True) s.vm) :
    SpacesFine tr s' := by
  obtain ⟨a, vm', hrun, rfl⟩ := SpaceSys.call_eq_some h
  exact wp_ok hwp hrun

section

variable (h : SpacesOk tr s own pte mem)
include h

theorem SpacesOk.frame (hstep : s.next A tr .frame = some s') : SpacesFine tr s' := by
  rw [SpaceSys.next] at hstep
  refine .of_call hstep (h.memory.alloc_wp (fun vm' h' => ?_) fun a vm' hfree hpage h' _ => ?_)
  · exact ⟨own, pte, mem, h', h.frames, h.space, h.trampoline⟩
  · refine ⟨_, pte, mem, h', fun b hb => ?_, fun hx => (h.space hx).imp_left (List.mem_cons_of_mem _), ?_⟩
    · rcases List.mem_cons.1 hb with rfl | hb
      · exact upd_self ..
      · rw [upd_apply]
        split_ifs
        · rfl
        · exact h.frames b hb
    · intro htr
      obtain ⟨n, hn⟩ := h.trampoline htr
      refine ⟨n, (upd_of_ne ?_).trans hn⟩
      rintro rfl
      rw [hfree] at hn
      cases hn

theorem SpacesOk.create {frame : ℕ} (hstep : s.next A tr (.create x frame) = some s') :
    SpacesFine tr s' := by
  rw [SpaceSys.next] at hstep
  split_ifs at hstep with hnew
  have hroot : (s.spaces x).map UserSpace.root = none := by rw [hnew.1]; rfl
  refine .of_call hstep (h.memory.createPagetable_wp hroot (fun e vm' own' h' hk => ?_)
    fun r vm' own' pte' h' hk ho hs => ?_)
  · refine ⟨own', pte, mem, h', fun a ha => (hk.kernel a).2 (h.frames a ha), h.space, fun htr => ?_⟩
    obtain ⟨n, hn⟩ := h.trampoline htr
    exact ⟨n, (hk.static tr n).2 hn⟩
  · refine ⟨own', pte', mem, h.setSpace h' hk (fun y hy tf sz hs => hs.congr (ho y hy)) fun w hw => ?_⟩
    cases hw
    exact ⟨hnew.2, hs⟩

theorem SpacesOk.alloc {newSize : ℕ} {xperm : Pte}
    (hstep : s.next A tr (.alloc x newSize xperm) = some s') : SpacesFine tr s' := by
  rw [SpaceSys.next] at hstep
  obtain ⟨u, hu, hstep⟩ := Option.bind_eq_some_iff.1 hstep
  split_ifs at hstep with hperm
  have hs := (h.space hu).2
  have hroot : (s.spaces x).map UserSpace.root = some u.root := by rw [hu]; rfl
  refine .of_call hstep (h.memory.allocRange_wp (P := fun _ => True) hroot hs hperm trivial
    (fun _ _ _ _ _ => trivial) (fun _ hal => ⟨?_, trivial⟩) (fun hlt => ?_)
    (fun e vm' own' pte' h' hk ho hs' => ?_) fun vm' own' pte' _ h' hk hs' hal _ => ?_)
  · rw [hal.high le_rfl, hs.trapframe, isV_install]
    decide
  · exact ⟨own, pte, mem, h.setSize hu h.memory (.refl own) (fun _ _ _ _ hs => hs) hs⟩
  · exact ⟨own', pte', mem, h.keepSize hu h' hk (fun y hy tf sz hs => hs.congr (ho y hy)) hs'⟩
  · exact ⟨own', pte', mem, h.setSize hu h' hk (fun y hy tf sz hs => hs.congr (hal.others y hy)) hs'⟩

theorem SpacesOk.dealloc {newSize : ℕ} (hstep : s.next A tr (.dealloc x newSize) = some s') :
    SpacesFine tr s' := by
  rw [SpaceSys.next] at hstep
  obtain ⟨u, hu, hstep⟩ := Option.bind_eq_some_iff.1 hstep
  have hs := (h.space hu).2
  have hroot : (s.spaces x).map UserSpace.root = some u.root := by rw [hu]; rfl
  refine .of_call hstep (h.memory.dealloc_wp hroot hs.size (fun _ => ?_) fun vm' own' pte' hlt h' hk hc => ?_)
  · exact ⟨own, pte, mem, h.setSize hu h.memory (.refl own) (fun _ _ _ _ hs => hs) hs⟩
  · have hhigh {va : ℕ} (hva : TRAPFRAME ≤ va) : pte' x va = pte x va :=
      hc.kept x va (.inr (.inr (.inl ((roundUp_le_TRAPFRAME hs.size).trans hva))))
    refine ⟨own', pte', _, h.setSize hu h' hk (fun y hy tf sz hsy => hsy.congr ?_)
      ⟨hlt.le.trans hs.size, fun k hv => ?_, ?_, ?_⟩⟩
    · exact funext fun va => hc.kept y va (.inl hy)
    · by_contra hge
      rw [not_lt, ← not_lt, ← lt_roundUp (uva_userVa k).aligned, not_lt] at hge
      rcases lt_or_ge (uva k) (roundUp u.size) with hk' | hk'
      · rw [hc.gone _ (uva_userVa k).aligned hge hk'] at hv
        cases hv
      · rw [hc.kept x _ (.inr (.inr (.inl hk')))] at hv
        exact absurd ((lt_roundUp (uva_userVa k).aligned).2 (hs.below k hv)) (not_lt.2 hk')
    · rw [hhigh (by decide)]
      exact hs.trampoline
    · rw [hhigh le_rfl]
      exact hs.trapframe

theorem SpacesOk.grow {n : ℕ} (hstep : s.next A tr (.grow x n) = some s') : SpacesFine tr s' := by
  rw [SpaceSys.next] at hstep
  obtain ⟨u, hu, hstep⟩ := Option.bind_eq_some_iff.1 hstep
  split_ifs at hstep with hn
  cases hstep
  have hs := (h.space hu).2
  exact ⟨own, pte, mem, h.setSize hu h.memory (.refl own) (fun _ _ _ _ hs => hs)
    ⟨hn, fun k hv => (hs.below k hv).trans_le (Nat.le_add_right _ _), hs.trampoline, hs.trapframe⟩⟩

end

theorem SpaceOk.setPage {tf sz : ℕ} (h : SpaceOk pte x tr tf sz) {k : Fin USERPAGES}
    (hk : uva k < sz) (e : Pte) : SpaceOk (setEntry pte x (uva k) e) x tr tf sz := by
  have htop := (uva_userVa k).top
  refine ⟨h.size, fun l hv => ?_, ?_, ?_⟩
  · rcases setEntry_cases pte x k e x l with ⟨-, rfl⟩ | ⟨-, heq⟩
    · exact hk
    · rw [heq] at hv
      exact h.below l hv
  · rw [setEntry_of_ne (.inr (htop.trans (by decide)).ne')]
    exact h.trampoline
  · rw [setEntry_of_ne (.inr htop.ne')]
    exact h.trapframe

section

variable (h : SpacesOk tr s own pte mem)
include h

theorem SpacesOk.fault {va : ℕ} (hstep : s.next A tr (.fault x va) = some s') :
    SpacesFine tr s' := by
  rw [SpaceSys.next] at hstep
  obtain ⟨u, hu, hstep⟩ := Option.bind_eq_some_iff.1 hstep
  have hs := (h.space hu).2
  have hroot : (s.spaces x).map UserSpace.root = some u.root := by rw [hu]; rfl
  -- the page of the address lies below the size
  have hpage {k : Fin USERPAGES} (hlt : va < u.size) (hk : uva k = pgRoundDown va) : uva k < u.size := by
    have hva : va < 2 ^ 64 := (hlt.trans_le hs.size).trans (by decide)
    rw [hk, pgRoundDown_eq hva]
    exact lt_of_le_of_lt (Nat.div_mul_le_self _ _) hlt
  have hset {vm' : Vm} {own' : ℕ → Option (Owner Space)} {k : Fin USERPAGES} {e : Pte} (hlt : uva k < u.size)
      (h' : MemOk vm' (fun y => (s.spaces y).map UserSpace.root) own' (setEntry pte x (uva k) e) mem)
      (hk : SameOutside x own own') : SpacesFine tr { s with vm := vm' } :=
    ⟨own', _, mem, h.keepSize hu h' hk (fun y hy tf sz hsy => hsy.congr (Others.set x pte _ _ y hy))
      (hs.setPage hlt e)⟩
  refine .of_call hstep (h.memory.vmfault_wp hroot hs.size (fun _ => ?_) (fun _ _ _ _ _ => ?_)
    (fun _ vm' own' _ _ _ h' hk => ?_) (fun k a vm' own' hlt hk _ _ h' hk' => hset (hpage hlt hk) h' hk')
    fun k a vm' own' hlt hk _ _ _ h' hk' => hset (hpage hlt hk) h' hk')
  · exact ⟨own, pte, mem, h⟩
  · exact ⟨own, pte, mem, h⟩
  · exact ⟨own', pte, mem, h.keepSize hu h' hk (fun _ _ _ _ hs => hs) hs⟩

theorem SpacesOk.copy (hstep : s.next A tr (.copy x y) = some s') : SpacesFine tr s' := by
  rw [SpaceSys.next] at hstep
  obtain ⟨u, hu, hstep⟩ := Option.bind_eq_some_iff.1 hstep
  obtain ⟨w, hw, hstep⟩ := Option.bind_eq_some_iff.1 hstep
  split_ifs at hstep with hnew
  obtain ⟨hxy, hzero⟩ := hnew
  have hsu := (h.space hu).2
  have hsw := (h.space hw).2
  rw [hzero] at hsw
  have hrx : (s.spaces x).map UserSpace.root = some u.root := by rw [hu]; rfl
  have hry : (s.spaces y).map UserSpace.root = some w.root := by rw [hw]; rfl
  -- the other address spaces, with the parent
  have hother {m : ℕ} {pte' : Space → ℕ → Pte} (hc : Copied pte pte' x y m) (z : Space) (hz : z ≠ y) (tf sz : ℕ)
      (hs : SpaceOk pte z tr tf sz) : SpaceOk pte' z tr tf sz := by
    rcases eq_or_ne z x with rfl | hzx
    · exact hc.space_parent hs
    · exact hs.congr (funext fun va => hc.rest z va (.inl ⟨hzx, hz⟩))
  refine .of_call hstep (h.memory.copy_wp card_space_lt hrx hry hxy hsu hsw
    (fun e vm' own' pte' h' hk hc => ?_) fun vm' own' pte' h' hk hc => ?_)
  · refine ⟨own', pte', mem, h.keepSize hw h' hk (hother hc) (hzero ▸ hc.space_child hsw (Nat.zero_le _) ?_)⟩
    exact fun k hv => absurd (hc.isV_child hv).1 (Nat.not_lt_zero _)
  · exact ⟨own', pte', _, h.setSize hw h' hk (hother hc)
      (hc.space_child hsw hsu.size fun k hv => hsu.below k (hc.isV_child hv).2)⟩

theorem SpacesOk.free (hstep : s.next A tr (.free x) = some s') : SpacesFine tr s' := by
  rw [SpaceSys.next] at hstep
  obtain ⟨u, hu, hstep⟩ := Option.bind_eq_some_iff.1 hstep
  have hs := (h.space hu).2
  have hroot : (s.spaces x).map UserSpace.root = some u.root := by rw [hu]; rfl
  refine .of_call hstep (h.memory.procFree_wp hroot hs (le_TRAPFRAME_fits hs.size) hs.below
    fun vm' own' mem' h' hd => ⟨own', _, mem', h.setSpace h' hd.kernel (fun y hy tf sz hsy => hsy.congr ?_) ?_⟩)
  · exact upd_of_ne hy
  · exact fun w hw => by cases hw

theorem SpacesOk.step {a : SpaceAction} (hstep : SpaceStep A tr s a s') : SpacesFine tr s' := by
  cases a with
  | frame => exact h.frame hstep
  | create x frame => exact h.create hstep
  | alloc x newSize xperm => exact h.alloc hstep
  | dealloc x newSize => exact h.dealloc hstep
  | grow x n => exact h.grow hstep
  | fault x va => exact h.fault hstep
  | copy x y => exact h.copy hstep
  | free x => exact h.free hstep

end

theorem SpacesFine.of_reachable (h : Reachable (SpaceInit tr) (SpaceStep A tr) s) :
    SpacesFine tr s := by
  refine h.invariant (fun s hs => hs.fine) ?_
  rintro s a s' ⟨own, pte, mem, hs⟩ hstep
  exact hs.step hstep

end Steps

/-- **Tearing down an address space frees everything once.** In every state that is reached by
making, growing, shrinking, faulting and copying address spaces, the user pages of each of them lie
below its size; and `proc_free` with any size that they lie below returns, drops one reference of
every user page, gives back every table and changes no other page, so that the trapframe and the
trampoline stay. -/
theorem procFree_frees_once {A : Allocator} {tr : ℕ} {s : SpaceSys}
    (h : Reachable (SpaceInit tr) (SpaceStep A tr) s) {x : Space} {u : UserSpace}
    (hu : s.spaces x = some u) :
    PagesBelow s.vm u.root u.size ∧
    ∀ size, size + PGSIZE < USIZE → PagesBelow s.vm u.root size →
      ∃ vm', (Uvm.procFree A u.root size).run s.vm = .ok (⟨⟩, vm') ∧ TornDown s.vm vm' u.root ∧
        (vm'.used u.frame = true ∧ vm'.refs (pageIndex u.frame) = s.vm.refs (pageIndex u.frame)) ∧
        (IsPage tr → vm'.used tr = true ∧ vm'.refs (pageIndex tr) = s.vm.refs (pageIndex tr)) := by
  obtain ⟨own, pte, mem, hs⟩ := SpacesFine.of_reachable h
  obtain ⟨hframe, hsp⟩ := hs.space hu
  have hroot : (s.spaces x).map UserSpace.root = some u.root := by rw [hu]; rfl
  have hentry (k : Fin USERPAGES) : s.vm.entry u.root (uva k) = pte x (uva k) :=
    hs.memory.trees.entry hroot _ (uva_userVa k).aligned (uva_userVa k).lt_MAXVA
  refine ⟨fun va ha htop hv => ?_, fun size hsize hbelow => ?_⟩
  · obtain ⟨k, rfl⟩ := (UserVa.mk ha htop).exists_uva
    rw [hentry] at hv
    exact (lt_roundUp ha).2 (hsp.below k hv)
  · have hwp := hs.memory.procFree_wp (A := A) (E := fun _ => False) (Q := fun _ vm' => ∃ own' mem',
      MemOk vm' (upd (fun y => (s.spaces y).map UserSpace.root) x none) own' (upd pte x fun _ => 0) mem' ∧
        SameOutside x own own') hroot hsp hsize (fun k hv => ?_)
      fun vm' own' mem' h' hd => ⟨own', mem', h', hd.kernel⟩
    · obtain ⟨⟨⟩, vm', hrun, own', mem', h', hk⟩ := wp_total hwp
      have hkept {a : ℕ} {o : Owner Space} (ho : own a = some o) (hout : o.Outside x) :
          vm'.used a = true ∧ vm'.refs (pageIndex a) = s.vm.refs (pageIndex a) := by
        have hpage := hs.memory.pages.page ho
        have hsame := hs.memory.dropped_outside h' hk hpage ho hout
        refine hsame.imp_left fun hused => hused.trans ?_
        rw [hs.memory.pages.used hpage, ho]
        exact Option.some_ne_none _
      refine ⟨vm', hrun, hs.memory.tornDown hroot h' hk, hkept (hs.frames _ hframe) trivial, fun htr => ?_⟩
      obtain ⟨n, hn⟩ := hs.trampoline htr
      exact hkept hn trivial
    · have hk := uva_userVa k
      refine (lt_roundUp hk.aligned).1 (hbelow _ hk.aligned hk.top ?_)
      rwa [hentry]

/-- The memory at the start, with the trampoline in its first page. -/
def SpaceSys.start : SpaceSys :=
  ⟨{ Vm.blank with used := fun a => decide (a = KERNBASE) }, [], fun _ => none⟩

theorem SpaceSys.start_init : SpaceInit KERNBASE .start :=
  ⟨rfl, fun _ => rfl, fun _ _ _ => rfl, fun _ => rfl⟩

def firstSpace : Space := (⟨0, NPROC_pos⟩, false)

/-- An address space with two pages is given up. -/
theorem procFree_two_pages : ∃ s u vm', Reachable (SpaceInit KERNBASE) (SpaceStep bump KERNBASE) s ∧
    s.spaces firstSpace = some u ∧ u.size = 2 * PGSIZE ∧
    (s.vm.entry u.root PGSIZE).isV = true ∧
    (Uvm.procFree bump u.root u.size).run s.vm = .ok (⟨⟩, vm') ∧ TornDown s.vm vm' u.root := by
  obtain ⟨s, hrun, hs⟩ := Option.map_eq_some_iff.1
    (show ([.frame, .frame, .create firstSpace (KERNBASE + PGSIZE), .alloc firstSpace (2 * PGSIZE) PTE_W].foldlM
      (SpaceSys.next bump KERNBASE) .start).map (fun s => (s.spaces firstSpace).map fun u =>
        (u.size, (s.vm.entry u.root PGSIZE).isV)) = some (some (2 * PGSIZE, true)) by decide +kernel)
  obtain ⟨u, hu, hpair⟩ := Option.map_eq_some_iff.1 hs
  obtain ⟨hsize, hv⟩ := Prod.mk.inj hpair
  have hreach : Reachable (SpaceInit KERNBASE) (SpaceStep bump KERNBASE) s :=
    Reachable.foldlM hrun (.init SpaceSys.start_init)
  obtain ⟨hbelow, hfree⟩ := procFree_frees_once hreach hu
  obtain ⟨vm', hret, htorn, -⟩ := hfree u.size (by rw [hsize]; decide) hbelow
  exact ⟨s, u, vm', hreach, hu, hsize, hv, hret, htorn⟩

end Octopos
