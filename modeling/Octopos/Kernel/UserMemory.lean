import Octopos.Fs.Syscall
import Octopos.Vm.ArgStack

/-!
# User memory as the file system sees it

The file system knows user memory by the bytes that can be copied: a destination or a source has a
number of accessible bytes (`Dst`, `Src`), and a string is fetched from a partial memory (`fetchIn`).
Both agree with the page tables: a copy succeeds if it stays inside of the accessible bytes
(`copies_accessible`), and what `fetchString` fetches is what `fetchIn` fetches from the bytes that
the kernel can copy (`fetchString_fetchIn`).
-/

namespace Octopos

variable {A : Allocator} {tr addr va : ℕ} {p : Fin NPROC} {s s' : MemSys}
  {own : ℕ → Option (Owner Space)} {pte pte' : Space → ℕ → Pte} {mem : Space → Bytes}

/-! ## The accessible bytes -/

/-- The kernel can copy `n` bytes from `va` on, and not the one behind them. -/
def MemSys.CopiesUpTo (s : MemSys) (p : Fin NPROC) (write : Bool) (va n : ℕ) : Prop :=
  (∀ x < n, s.CanCopy p write (va + x)) ∧ ¬s.CanCopy p write (va + n)

theorem MemSys.CopiesUpTo.all_iff {write : Bool} {n len : ℕ} (h : s.CopiesUpTo p write va n) :
    (∀ x < len, s.CanCopy p write (va + x)) ↔ len ≤ n := by
  refine ⟨fun hall => ?_, fun hle x hx => h.1 x (hx.trans_le hle)⟩
  by_contra hlt
  exact h.2 (hall n (not_le.1 hlt))

/-- A copy to the user succeeds if the destination accepts the bytes, and a copy from the user if
the source has them, unless there is no memory. -/
theorem copies_accessible {s : PrivSys} {n len : ℕ} {src : List UInt8}
    (h : Reachable (fun s => MemInit s.sys) (PrivStep A tr) s)
    (hp : (s.sys.procs p).live = true) (hva : va < 2 ^ 64) :
    (s.sys.CopiesUpTo p true va n → ∃ r t, (kernelCopyTo A p src va).run s.sys = .ok (r, t) ∧
      (r.1 ≠ .error .alloc → (r.1 = .ok ⟨⟩ ↔ (Dst.user n).accepts src.length = true))) ∧
    (s.sys.CopiesUpTo p false va n → ∃ r t, (kernelCopyFrom A p va len).run s.sys = .ok (r, t) ∧
      (r.result ≠ .error .alloc → (r.result = .ok ⟨⟩ ↔ len ≤ n))) := by
  obtain ⟨own, pte, mem, hI, -⟩ := PrivSys.agrees_of_reachable h
  constructor
  · intro hn
    obtain ⟨r, t, hrun, m, pte', hc, -⟩ := wp_total (hI.copyTo_wp hp hva :
      wp (kernelCopyTo A p src va) _ _ s.sys)
    refine ⟨r, t, hrun, fun hne => ?_⟩
    simp only [hc.ok_iff hne, ← hI.canCopy, hn.all_iff, Dst.accepts, decide_eq_true_eq]
  · intro hn
    obtain ⟨r, t, hrun, m, pte', hc⟩ := wp_total (hI.copyFrom_wp hp hva :
      wp (kernelCopyFrom A p va len) _ _ s.sys)
    refine ⟨r, t, hrun, fun hne => ?_⟩
    simp only [hc.ok_iff hne, ← hI.canCopy, hn.all_iff]

/-! ## Strings -/

/-- What can be fetched can be fetched from a memory with more bytes. -/
theorem fetchIn_mono {m m' : ℕ → Option UInt8} (hm : ∀ j b, m j = some b → m' j = some b) {n i : ℕ}
    {result t : Name} (h : fetchIn m n i result = .ok t) : fetchIn m' n i result = .ok t := by
  induction n generalizing i result with
  | zero => exact h
  | succ n ih =>
    unfold fetchIn at h ⊢
    cases hb : m i with
    | none =>
      rw [hb] at h
      cases h
    | some b =>
      rw [hb] at h
      rw [hm i b hb]
      dsimp only at h ⊢
      split_ifs at h ⊢ with h0
      · exact h
      · exact ih h

/-- A page fault does not make more bytes accessible to a copy from the user. -/
theorem Faulted.reaches {ι : Type} {i : ι} {sz page : ℕ} {pt pt' : ι → ℕ → Pte}
    (h : Faulted i sz pt pt') (hr : Reaches false (pt' i) sz page) :
    Reaches false (pt i) sz page := by
  obtain ⟨k, hk, hentry⟩ := hr
  refine ⟨k, hk, ?_⟩
  rcases h i (uva k) with heq | ⟨-, -, hlt, hf⟩
  · rwa [heq] at hentry
  · generalize pt' i (uva k) = e at hf hentry
    cases hf with
    | lazy _ hv => exact .inr ⟨hlt, .inl hv⟩
    | copied _ hv hc =>
      cases hu : (pt i (uva k)).isU with
      | true => exact .inl ⟨hv, rfl, fun hw => by cases hw⟩
      | false => exact .inr ⟨hlt, .inr ⟨rfl, hc⟩⟩

open scoped Classical in
/-- The bytes from `addr` on that the kernel can copy from process `p`. -/
noncomputable def MemSys.bytesAt (s : MemSys) (b : Bytes) (p : Fin NPROC) (addr j : ℕ) :
    Option UInt8 :=
  if s.CanCopy p false (addr + j) then some (b (addr + j)) else none

theorem SysOk.copyByte_wp {E : VmPanic → Prop} (h : SysOk tr s own pte mem)
    (hp : (s.procs p).live = true) (hva : va < 2 ^ 64) :
    wp (kernelCopyFrom A p va 1) (fun r s' => s'.procs = s.procs ∧
      (∃ own' pte', SysOk tr s' own' pte' mem ∧ Faulted (p, false) (s.procs p).size pte pte') ∧
      (r.result = .ok ⟨⟩ → s.CanCopy p false va ∧ r.bytes = [mem (p, false) va])) E s := by
  refine h.onSpace_wp hp fun r tf hr hsp => ?_
  refine MemOk.copyFrom_wp hr hsp.size le_rfl h.memory hva hsp.highOk
    fun res t n vm' own' pte' h' hk hc => ⟨rfl, ⟨own', pte', h.same (h.faulted h' hk hc.faulted),
      hc.faulted⟩, fun hok => ?_⟩
  obtain rfl := hc.all hok
  exact ⟨h.canCopy.2 (hc.reaches 0 Nat.one_pos), rfl⟩

theorem SysOk.fetchString_wp (h : SysOk tr s own pte mem) (hp : (s.procs p).live = true) {m i : ℕ}
    {result : List UInt8} :
    wp (fetchString A p addr m i result) (fun r _ => ∀ t, r = some t →
      fetchIn (s.bytesAt (mem (p, false)) p addr) m i result = .ok t) (fun _ => True) s := by
  induction m generalizing s own pte i result with
  | zero =>
    refine wp_pure.2 fun t ht => ?_
    cases ht
    rfl
  | succ m ih =>
    refine wp_bind.2 (wp_liftVm (usizeAdd_cases (fun _ => trivial) fun hlt => wp_bind.2 ?_))
    refine wp_mono (h.copyByte_wp hp hlt) ?_ fun _ he => he
    rintro ⟨res, bytes, touched⟩ s' ⟨hprocs, ⟨own', pte', h', hfault⟩, hok⟩
    cases res with
    | error e => exact wp_pure.2 fun t ht => by cases ht
    | ok _ =>
      obtain ⟨hcan, hbytes⟩ := hok rfl
      dsimp only at hbytes
      subst hbytes
      rw [fetchIn, MemSys.bytesAt, if_pos hcan]
      refine wp_ite (fun h0 => wp_pure.2 fun t ht => ?_) fun h0 => ?_
      · cases ht
        exact if_pos h0
      · refine wp_mono (ih h' (by rw [hprocs]; exact hp)) (fun r _ hr t ht => ?_) fun _ _ => trivial
        refine (if_neg h0).trans (fetchIn_mono (fun j b hb => ?_) (hr t ht))
        -- a byte that can be copied later could be copied before
        unfold MemSys.bytesAt at hb ⊢
        split_ifs at hb with hlater
        have hnow : s.CanCopy p false (addr + j) := by
          rw [h.canCopy]
          rw [h'.canCopy, hprocs] at hlater
          exact hfault.reaches hlater
        rwa [if_pos hnow]

/-- What `fetch_string` gives the system calls is what it fetches from the bytes of the process. -/
theorem fetchString_fetchIn {s : PrivSys} {t : MemSys} {m : ℕ} {text : List UInt8}
    (h : Reachable (fun s => MemInit s.sys) (PrivStep A tr) s)
    (hp : (s.sys.procs p).live = true)
    (hrun : (fetchString A p addr m 0 []).run s.sys = .ok (some text, t)) :
    fetchIn (s.sys.bytesAt (s.view p) p addr) m 0 [] = .ok text := by
  obtain ⟨own, pte, mem, hI, hσ⟩ := PrivSys.agrees_of_reachable h
  refine fetchIn_mono (fun j b hb => ?_) (wp_ok (hI.fetchString_wp hp) hrun text rfl)
  unfold MemSys.bytesAt at hb ⊢
  split_ifs at hb ⊢ with hcan
  rw [← hb, hσ p hp _ hcan.lt]

end Octopos
