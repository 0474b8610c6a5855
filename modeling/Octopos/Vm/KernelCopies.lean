import Octopos.Vm.Isolation
import Octopos.Vm.Sizes

/-!
# Copies between the kernel and user memory

`Uvm::copy_to` resolves a page through `vmfault` only if the user could not read it either. So a
copy to a page that is shared after a `fork` fails, although a store by the user would succeed
(`copyTo_shared`). It succeeds exactly if every page of the range that is there is writable
(`copyTo_stores`).

`vmfault` does not look at `PTE_U`: the kernel copies through a guard page that was shared by a
`fork` (`copyTo_guard`). Apart from such pages both copies only touch pages of the user.
-/

namespace Octopos

section Copies

variable {ι : Type} [DecidableEq ι] {write : Bool} {i : ι} {sz va len n : ℕ} {pt pt' : ι → ℕ → Pte}
  {res : Except VmError PUnit} {t : List Pte}
variable {k : Fin USERPAGES} {e : Pte} {va' : ℕ}

theorem forall_page {P : ℕ → Prop} (va n : ℕ) (hlen : 0 < len)
    (hn : pagePart va len = len → n = 0) :
    (∀ x < pagePart va len + n, P ((va + x) / PGSIZE * PGSIZE)) ↔ P (va / PGSIZE * PGSIZE) ∧
    ∀ x < n, P ((va / PGSIZE * PGSIZE + PGSIZE + x) / PGSIZE * PGSIZE) := by
  have hpos := pagePart_pos va hlen
  have hfirst : ∀ x < pagePart va len, (va + x) / PGSIZE * PGSIZE = va / PGSIZE * PGSIZE := by
    intro x hx
    have hfit := pagePart_fits va len
    have hpg : PGSIZE = 4096 := rfl
    rw [hpg] at hfit ⊢
    omega
  rcases pagePart_cases va len with ⟨hall, -⟩ | hnext
  · rw [hn hall, add_zero]
    refine ⟨fun h => ⟨h 0 hpos, fun x hx => absurd hx (Nat.not_lt_zero x)⟩, fun h x hx => ?_⟩
    rw [hfirst x hx]
    exact h.1
  · rw [← hnext]
    constructor
    · intro h
      refine ⟨h 0 (by omega), fun x hx => ?_⟩
      rw [add_assoc]
      exact h _ (by omega)
    · intro h x hx
      rcases lt_or_ge x (pagePart va len) with hlt | hge
      · rw [hfirst x hlt]
        exact h.1
      · obtain ⟨y, rfl⟩ := Nat.exists_eq_add_of_le hge
        rw [← add_assoc]
        exact h.2 y (by omega)

theorem setEntry_behind (x : ℕ) :
    setEntry pt i (uva k) e i ((uva k + PGSIZE + x) / PGSIZE * PGSIZE) =
      pt i ((uva k + PGSIZE + x) / PGSIZE * PGSIZE) := by
  refine setEntry_of_ne (.inr ?_)
  have hpg : PGSIZE = 4096 := rfl
  have ha := (uva_userVa k).aligned
  rw [hpg] at ha ⊢
  omega

/-- A copy comes through the page at an address, if there is memory: the page is there for the user,
or `vmfault` is asked for it and puts it there. -/
def Reaches (write : Bool) (pte : ℕ → Pte) (sz page : ℕ) : Prop :=
  ∃ k, uva k = page ∧
    ((pte (uva k)).isV = true ∧ (pte (uva k)).isU = true ∧ (write = true → (pte (uva k)).isW = true) ∨
      uva k < sz ∧ ((pte (uva k)).isV = false ∨ (pte (uva k)).isU = false ∧ (pte (uva k)).isCow = true))

theorem Resolved.reaches {pte : ℕ → Pte} (h : Resolved sz k (pte (uva k)) e)
    (hw : write = true → e.isW = true) : Reaches write pte sz (uva k) := by
  refine ⟨k, rfl, ?_⟩
  cases h with
  | direct hv hu => exact .inl ⟨hv, hu, hw⟩
  | fixed hlt hno hf =>
    refine .inr ⟨hlt, ?_⟩
    cases hf with
    | lazy _ hv => exact .inl hv
    | copied _ hv hc =>
      rw [hv, Bool.true_and] at hno
      exact .inr ⟨hno, hc⟩

theorem Stops.not_reaches {pte : ℕ → Pte} {e : VmError} (h : Stops write pte sz va e) :
    e = .alloc ∨ ¬Reaches write pte sz (va / PGSIZE * PGSIZE) := by
  cases h with
  | alloc _ => exact .inl rfl
  | outside hge =>
    refine .inr ?_
    rintro ⟨k, hk, -⟩
    exact absurd (lt_TRAPFRAME_of_page hk) (not_lt.2 hge)
  | beyond hl hsz hno =>
    refine .inr ?_
    rintro ⟨k, hk, ⟨hv, hu, -⟩ | ⟨hlt, -⟩⟩
    · obtain rfl := page_eq hl hk
      rw [hv, hu] at hno
      cases hno
    · obtain rfl := page_eq hl hk
      exact absurd hlt (not_lt.2 hsz)
  | guarded hl hv hu hc =>
    refine .inr ?_
    rintro ⟨k, hk, hreach⟩
    obtain rfl := page_eq hl hk
    rw [hv, hu, hc] at hreach
    simp at hreach
  | readOnly hl hwrite hv hu hw =>
    refine .inr ?_
    rintro ⟨k, hk, hreach⟩
    obtain rfl := page_eq hl hk
    rw [hv, hu, hw] at hreach
    simp [hwrite] at hreach

theorem reaches_behind (x : ℕ) :
    Reaches write (setEntry pt i (uva k) e i) sz ((uva k + PGSIZE + x) / PGSIZE * PGSIZE) ↔
      Reaches write (pt i) sz ((uva k + PGSIZE + x) / PGSIZE * PGSIZE) := by
  unfold Reaches
  refine exists_congr fun l => and_congr_right fun hl => ?_
  rw [hl, setEntry_behind]

theorem Copies.count_le (h : Copies write i sz pt va len res n t pt') : n ≤ len := by
  induction h with
  | done => exact le_rfl
  | stop _ _ => exact Nat.zero_le _
  | page _ _ _ _ _ ih => exact (Nat.add_le_add_left ih _).trans (Nat.add_sub_cancel' (pagePart_le _ _)).le

theorem Copies.all (h : Copies write i sz pt va len res n t pt') (hok : res = .ok ⟨⟩) :
    n = len := by
  induction h with
  | done => rfl
  | stop _ _ => cases hok
  | page _ _ _ _ _ ih =>
    rw [ih hok]
    exact Nat.add_sub_cancel' (pagePart_le _ _)

theorem Copies.rest_zero (h : Copies write i sz pt va (len - pagePart va' len) res n t pt')
    (hall : pagePart va' len = len) : n = 0 := by
  rw [hall, Nat.sub_self] at h
  exact h.of_zero

/-- A copy comes through the pages of the bytes that it copies. -/
theorem Copies.reaches (h : Copies write i sz pt va len res n t pt') :
    ∀ x < n, Reaches write (pt i) sz ((va + x) / PGSIZE * PGSIZE) := by
  induction h with
  | done => exact fun x hx => absurd hx (Nat.not_lt_zero x)
  | stop _ _ => exact fun x hx => absurd hx (Nat.not_lt_zero x)
  | @page pt pt' va len n k e res t hlen hk he hw hrest ih =>
    refine (forall_page (P := Reaches write (pt i) sz) va n hlen hrest.rest_zero).2 ⟨?_, fun x hx => ?_⟩
    · exact hk ▸ he.reaches hw
    · rw [← hk]
      exact (reaches_behind x).1 (ih x hx)

/-- With memory left, it stops at a page that it does not come through. -/
theorem Copies.stopped (h : Copies write i sz pt va len res n t pt') {e : VmError}
    (he : res = .error e) :
    n < len ∧ (e = .alloc ∨ ¬Reaches write (pt i) sz ((va + n) / PGSIZE * PGSIZE)) := by
  induction h with
  | done => cases he
  | stop hlen hs =>
    cases he
    exact ⟨hlen, hs.not_reaches⟩
  | @page pt pt' va len n k e' res t hlen hk _ _ hrest ih =>
    obtain ⟨hlt, hno⟩ := ih he
    have hle := pagePart_le va len
    refine ⟨by omega, hno.imp_right fun hno hreach => hno ((reaches_behind n).2 ?_)⟩
    rcases pagePart_cases va len with ⟨hall, -⟩ | hnext
    · omega
    · rwa [hk, ← hnext, add_assoc]

/-- A copy succeeds exactly if it comes through all pages, unless there is no memory. -/
theorem Copies.ok_iff (h : Copies write i sz pt va len res n t pt') (hne : res ≠ .error .alloc) :
    res = .ok ⟨⟩ ↔ ∀ x < len, Reaches write (pt i) sz ((va + x) / PGSIZE * PGSIZE) := by
  constructor
  · intro hok
    rw [← h.all hok]
    exact h.reaches
  · intro hall
    rcases hres : res with e | ⟨⟨⟩⟩
    · obtain ⟨hlt, rfl | hno⟩ := h.stopped hres
      · exact absurd hres hne
      · exact absurd (hall n hlt) hno
    · rfl

/-- The entry is one that `vmfault` would resolve although it is not for the user. -/
def Pte.SharedGuard (e : Pte) : Prop := e.isV = true ∧ e.isCow = true ∧ e.isU = false

theorem Resolved.isU_iff {e' : Pte} (h : Resolved sz k e e') : e'.isU = true ↔ ¬e.SharedGuard := by
  unfold Pte.SharedGuard
  cases h with
  | direct hv hu => simp [hu]
  | fixed _ hno hf =>
    cases hf with
    | lazy _ hv => simp [isU_lazy, hv]
    | copied _ hv hc => simp [isU_unshared, hv, hc]

/-- The pages that a copy touches are those of the user, except for shared guard pages. -/
theorem Copies.touched (h : Copies write i sz pt va len res n t pt') :
    (∀ e ∈ t, e.isU = true) ↔ ∀ x < n, ¬(pt i ((va + x) / PGSIZE * PGSIZE)).SharedGuard := by
  induction h with
  | done => exact ⟨fun _ x hx => absurd hx (Nat.not_lt_zero x), fun _ e he => absurd he List.not_mem_nil⟩
  | stop _ _ => exact ⟨fun _ x hx => absurd hx (Nat.not_lt_zero x), fun _ e he => absurd he List.not_mem_nil⟩
  | @page pt pt' va len n k e res t hlen hk he hw hrest ih =>
    rw [List.forall_mem_cons, he.isU_iff, ih,
      forall_page (P := fun v => ¬(pt i v).SharedGuard) va n hlen hrest.rest_zero, ← hk]
    simp only [setEntry_behind]

end Copies

/-! ## Copies of a process -/

variable {A : Allocator} {tr : ℕ} {own : ℕ → Option (Owner Space)} {pte : Space → ℕ → Pte}
  {mem : Space → Bytes} {p : Fin NPROC} {va len : ℕ} {src : List UInt8}
variable {s : MemSys} {E : VmPanic → Prop}

/-- `Uvm::copy_to` by the kernel for a process. -/
def kernelCopyTo (A : Allocator) (p : Fin NPROC) (src : List UInt8) (dst : ℕ) :
    MemM (Except VmError PUnit × List Pte) :=
  onSpace p fun root size => Uvm.copyTo A root size src dst

/-- `Uvm::copy_from` by the kernel for a process. -/
def kernelCopyFrom (A : Allocator) (p : Fin NPROC) (src len : ℕ) : MemM Uvm.CopyFrom :=
  onSpace p fun root size => Uvm.copyFrom A root size src len

theorem MemSys.entryOf_div (s : MemSys) (p : Fin NPROC) (va : ℕ) :
    s.entryOf p (va / PGSIZE * PGSIZE) = s.entryOf p va := by
  unfold MemSys.entryOf
  cases (s.procs p).pagetable with
  | none => rfl
  | some root => exact s.vm.entry_page root va

theorem SysCore.entryOf_page (h : SysCore tr s.vm s.procs own pte mem) (hva : va < TRAPFRAME) :
    s.entryOf p va = pte (p, false) (va / PGSIZE * PGSIZE) := by
  have hmax : va < MAXVA := hva.trans (by decide)
  rw [← s.entryOf_div, h.entryOf (Nat.mul_mod_left _ _) (page_lt_MAXVA hmax)]

theorem SysOk.copyTo_wp (h : SysOk tr s own pte mem) (hp : (s.procs p).live = true)
    (hva : va < 2 ^ 64) :
    wp (kernelCopyTo A p src va) (fun r s' => ∃ n pte',
      Copies true (p, false) (s.procs p).size pte va src.length r.1 n r.2 pte' ∧ ∀ k,
      s'.entryOf p (uva k) = pte' (p, false) (uva k)) E s := by
  refine h.onSpace_wp hp fun r tf hr hsp => ?_
  refine MemOk.copyTo_wp hr hsp.size le_rfl h.memory hva hsp.highOk fun res t n vm' own' pte' h' _ hc =>
    ⟨n, pte', hc, fun k => ?_⟩
  have hroot : (s.procs p).pagetable = some r := hr
  unfold MemSys.entryOf
  rw [hroot]
  exact h'.trees.entry hr _ (uva_userVa k).aligned (uva_userVa k).lt_MAXVA

theorem SysOk.copyFrom_wp (h : SysOk tr s own pte mem) (hp : (s.procs p).live = true)
    (hva : va < 2 ^ 64) :
    wp (kernelCopyFrom A p va len) (fun r _ => ∃ n pte',
      Copies false (p, false) (s.procs p).size pte va len r.result n r.touched pte') E s := by
  refine h.onSpace_wp hp fun r tf hr hsp => ?_
  exact MemOk.copyFrom_wp hr hsp.size le_rfl h.memory hva hsp.highOk fun res t n vm' own' pte' _ _ hc => ⟨n, pte', hc⟩

/-- The error of a copy to user memory, and the user bits of the entries it went through. -/
def copyOutcome (s : MemSys) (src : List UInt8) (dst : ℕ) : Option (Option VmError × List Bool) :=
  match (kernelCopyTo bump firstProc src dst).run s with
  | .ok ((.error e, t), _) => some (some e, t.map Pte.isU)
  | .ok ((.ok _, t), _) => some (none, t.map Pte.isU)
  | .error _ => none

theorem run_of_copyOutcome {dst : ℕ} {o : Option VmError} {l : List Bool}
    (h : copyOutcome s src dst = some (o, l)) :
    ∃ r t s', (kernelCopyTo bump firstProc src dst).run s = .ok ((r, t), s') ∧
      t.map Pte.isU = l ∧ r = match o with | some e => .error e | none => .ok ⟨⟩ := by
  unfold copyOutcome at h
  split at h <;> rename_i hrun <;> cases h
  · exact ⟨_, _, _, hrun, rfl, rfl⟩
  · exact ⟨_, _, _, hrun, rfl, rfl⟩

/-- A copy of `len` bytes at `va` only touched pages of the user, and it failed if another page is
in the range. -/
def RespectsUser (s : MemSys) (p : Fin NPROC) (va len : ℕ) (res : Except VmError PUnit)
    (t : List Pte) : Prop :=
  (∀ e ∈ t, e.isU = true) ∧
    (res = .ok ⟨⟩ → ∀ x < len, (s.entryOf p (va + x)).isV = true → (s.entryOf p (va + x)).isU = true)

/-- The kernel can copy to an address (`write`) or from it, if there is memory. -/
def MemSys.CanCopy (s : MemSys) (p : Fin NPROC) (write : Bool) (va : ℕ) : Prop :=
  Reaches write (s.entryOf p) (s.procs p).size (va / PGSIZE * PGSIZE)

theorem SysCore.canCopy {write : Bool} (h : SysCore tr s.vm s.procs own pte mem) :
    s.CanCopy p write va ↔
    Reaches write (pte (p, false)) (s.procs p).size (va / PGSIZE * PGSIZE) := by
  unfold MemSys.CanCopy Reaches
  simp only [h.entryOf_user]

theorem MemSys.CanCopy.lt {write : Bool} (h : s.CanCopy p write va) : va < TRAPFRAME := by
  obtain ⟨k, hk, -⟩ := h
  exact lt_TRAPFRAME_of_page hk

/-- No byte of the range is in a shared guard page, up to the first byte that the kernel cannot
copy. -/
def MemSys.NoSharedGuard (s : MemSys) (p : Fin NPROC) (write : Bool) (va len : ℕ) : Prop :=
  ∀ x < len, (∀ y ≤ x, s.CanCopy p write (va + y)) → ¬(s.entryOf p (va + x)).SharedGuard

theorem SysCore.respectsUser {write : Bool} {n : ℕ} {res : Except VmError PUnit} {t : List Pte}
    {pte' : Space → ℕ → Pte} (h : SysCore tr s.vm s.procs own pte mem)
    (hc : Copies write (p, false) (s.procs p).size pte va len res n t pte') :
    (s.NoSharedGuard p write va len → RespectsUser s p va len res t) ∧
      (res ≠ .error .alloc → RespectsUser s p va len res t → s.NoSharedGuard p write va len) := by
  have hcopied : ∀ x < n, s.CanCopy p write (va + x) := fun x hx => h.canCopy.2 (hc.reaches x hx)
  have htouched : (∀ e ∈ t, e.isU = true) ↔ ∀ x < n, ¬(s.entryOf p (va + x)).SharedGuard := by
    rw [hc.touched]
    exact forall₂_congr fun x hx => by rw [h.entryOf_page (hcopied x hx).lt]
  constructor
  · intro hno
    have hfree : ∀ x < n, ¬(s.entryOf p (va + x)).SharedGuard := fun x hx =>
      hno x (hx.trans_le hc.count_le) fun y hy => hcopied y (by omega)
    refine ⟨htouched.2 hfree, fun hok x hx hv => ?_⟩
    rw [← hc.all hok] at hx
    have hcan := hcopied x hx
    rw [h.entryOf_page hcan.lt] at hv ⊢
    obtain ⟨k, hk, ⟨-, hu, -⟩ | ⟨-, hnv | ⟨hu, hcow⟩⟩⟩ := h.canCopy.1 hcan
    · rwa [← hk]
    · rw [hk, hv] at hnv
      cases hnv
    · refine absurd ⟨?_, ?_, ?_⟩ (hfree x hx) <;> rw [h.entryOf_page hcan.lt]
      · exact hv
      · rwa [← hk]
      · rwa [← hk]
  · intro hne hrespects x hx hcan
    refine htouched.1 hrespects.1 x ?_
    by_contra hle
    cases hres : res with
    | ok _ => exact hle (by rwa [hc.all hres])
    | error e =>
      obtain ⟨-, rfl | hstop⟩ := hc.stopped hres
      · exact hne hres
      · exact hstop (h.canCopy.1 (hcan n (by omega)))

/-- **Copies respect the user bit**, except for guard pages that were shared. In every state that
processes reach while no size passes the trapframe, `Uvm::copy_to` and `Uvm::copy_from` return. If no
page that they can come to is a shared guard page, they only touch pages of the user and fail if
there are others. The converse holds, too, unless they run out of memory. -/
theorem copies_respect_user {s : MemSys}
    (h : Reachable MemInit (Guarded (fun s l => SbrkFits s l.1) (MemStep A tr)) s)
    (hp : (s.procs p).live = true) (hva : va < 2 ^ 64) :
    (∀ src, ∃ res t s', (kernelCopyTo A p src va).run s = .ok ((res, t), s') ∧
      (s.NoSharedGuard p true va src.length → RespectsUser s p va src.length res t) ∧
      (res ≠ .error .alloc → RespectsUser s p va src.length res t →
        s.NoSharedGuard p true va src.length)) ∧
    ∀ len, ∃ r s', (kernelCopyFrom A p va len).run s = .ok (r, s') ∧
      (s.NoSharedGuard p false va len → RespectsUser s p va len r.result r.touched) ∧
      (r.result ≠ .error .alloc → RespectsUser s p va len r.result r.touched →
        s.NoSharedGuard p false va len) := by
  obtain ⟨own, pte, mem, hI⟩ := SysOk.of_reachable h
  constructor
  · intro src
    obtain ⟨⟨res, t⟩, s', hrun, n, pte', hc, -⟩ := wp_total (hI.copyTo_wp hp hva : wp (kernelCopyTo A p src va) _ _ s)
    exact ⟨res, t, s', hrun, hI.respectsUser hc⟩
  · intro len
    obtain ⟨r, s', hrun, n, pte', hc⟩ := wp_total (hI.copyFrom_wp hp hva : wp (kernelCopyFrom A p va len) _ _ s)
    exact ⟨r, s', hrun, hI.respectsUser hc⟩

/-- An executable without segments: the guard page of the stack is its first page. -/
def onlyStack : ExecFile := fun _ _ =>
  some fun x => if x = 0 then 0x7F else if x = 1 then 0x45 else if x = 2 then 0x4C else if x = 3 then 0x46 else 0

/-- After a `fork` the kernel copies to the guard page. -/
theorem copyTo_guard : ∃ s, Reachable MemInit (MemStep bump KERNBASE) s ∧ ∃ t s',
    (kernelCopyTo bump firstProc [1] 0).run s = .ok ((.ok ⟨⟩, t), s') ∧ ∃ e ∈ t, e.isU = false := by
  obtain ⟨s, hrun, hs⟩ := Option.map_eq_some_iff.1
    (show (MemSys.start.runAll bump KERNBASE (fun _ _ => true) [.spawn firstProc, .exec firstProc onlyStack [],
      .fork firstProc secondProc]).map (fun s => copyOutcome s [1] 0) =
        some (some (none, [false])) by decide +kernel)
  obtain ⟨r, t, s', hcopy, ht, rfl⟩ := run_of_copyOutcome hs
  have hreach := MemSys.runAll_reachable hrun (.init MemSys.start_init)
  refine ⟨s, hreach.mono fun _ _ _ h => h.2, t, s', hcopy, ?_⟩
  exact List.mem_map.1 (ht ▸ List.mem_singleton_self false)

/-- The stack above the guard page is for the user, after a `fork`, too. -/
theorem copies_respect_user_stack :
    ∃ s, Reachable MemInit (Guarded (fun s l => SbrkFits s l.1) (MemStep bump KERNBASE)) s ∧
      ∃ res t s', (kernelCopyTo bump firstProc [1] PGSIZE).run s = .ok ((res, t), s') ∧
        RespectsUser s firstProc PGSIZE 1 res t := by
  obtain ⟨s, hrun, hs⟩ := Option.map_eq_some_iff.1
    (show (MemSys.start.runAll bump KERNBASE (fun s a => decide (SbrkFits s a))
      [.spawn firstProc, .exec firstProc onlyStack [], .fork firstProc secondProc]).map (fun s =>
        ((s.procs firstProc).live, (s.entryOf firstProc PGSIZE).isU)) = some (true, true) by decide +kernel)
  obtain ⟨hlive, hu⟩ := Prod.mk.inj hs
  have hreach : Reachable MemInit (Guarded (fun s l => SbrkFits s l.1) (MemStep bump KERNBASE)) s :=
    (MemSys.runAll_reachable hrun (.init MemSys.start_init)).mono fun _ _ _ h => ⟨of_decide_eq_true h.1, h.2⟩
  obtain ⟨res, t, s', hcopy, hok, -⟩ := (copies_respect_user hreach hlive (show PGSIZE < 2 ^ 64 by decide)).1 [1]
  refine ⟨s, hreach, res, t, s', hcopy, hok fun x hx _ hguard => ?_⟩
  obtain rfl : x = 0 := Nat.lt_one_iff.1 hx
  have hno : (s.entryOf firstProc PGSIZE).isU = false := hguard.2.2
  rw [hu] at hno
  cases hno

end Octopos
