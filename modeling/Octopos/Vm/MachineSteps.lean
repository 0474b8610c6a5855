import Octopos.Vm.MachineRules

/-!
# Steps of processes on their memory

Every action keeps the invariant as long as no size passes the trapframe. Beside it runs the private
memory of each process: what the process stored, what it inherited and what `exec` loaded.
-/

namespace Octopos

/-! ## Private memories -/

/-- The number of bytes in the first `pages` pages of a range. -/
def copyLength : ℕ → ℕ → ℕ → ℕ
  | _, _, 0 => 0
  | va, len, pages + 1 =>
    pagePart va len + copyLength (va / PGSIZE * PGSIZE + PGSIZE) (len - pagePart va len) pages

/-- The private memories after an action with a result. -/
def privateAfter : (a : MemAction) → a.Result → (Fin NPROC → Bytes) → Fin NPROC → Bytes
  -- a new process has never touched a page
  | .spawn p, .ok _, σ => upd σ p fun _ => 0
  | .fork p q, .ok _, σ => upd σ q (σ p)
  -- the contents of whole pages that a shrink drops are forgotten
  | .sbrk p n, some old, σ => if n < 0 then upd σ p (shrunk old (old + n).toNat (σ p)) else σ
  | .store p va b, .ok _, σ => upd σ p (upd (σ p) va b)
  | .exec p file argv, .ok _, σ => upd σ p (Exec.imageBytes file argv)
  | .copyTo p src dst, (_, t), σ =>
    upd σ p (blit (σ p) dst (copyLength dst src.length t.length) fun x => src.getD x 0)
  | _, _, σ => σ

/-- The address spaces hold the private memories. -/
def Agrees (procs : Fin NPROC → ProcData) (mem : Space → Bytes) (σ : Fin NPROC → Bytes) : Prop :=
  ∀ p, (procs p).live = true → ∀ v < TRAPFRAME, mem (p, false) v = σ p v

/-- The executables of an action have program headers that can be read. -/
def MemAction.Readable : MemAction → Prop
  | .exec _ file _ => Exec.HeadersReadable file
  | _ => True

/-- What an action does. -/
structure Stepped (tr : ℕ) (s : MemSys) (own : ℕ → Option (Owner Space)) (mem : Space → Bytes)
    (a : MemAction) (r : a.Result) (s' : MemSys) (own' : ℕ → Option (Owner Space))
    (pte' : Space → ℕ → Pte) (mem' : Space → Bytes) : Prop where
  ok : SysOk tr s' own' pte' mem'
  agrees : ∀ σ, Agrees s.procs mem σ → Agrees s'.procs mem' (privateAfter a r σ)
  lost : a.Readable → ∀ b n, own' b = some (.static n) ↔ own b = some (.static n)

variable {A : Allocator} {tr : ℕ} {s s' : MemSys} {own : ℕ → Option (Owner Space)} {pte : Space → ℕ → Pte}
  {mem : Space → Bytes} {p q : Fin NPROC}
variable {d : ProcData} {own' : ℕ → Option (Owner Space)} {pte' : Space → ℕ → Pte}
  {mem' : Space → Bytes} {procs : Fin NPROC → ProcData} {σ : Fin NPROC → Bytes}

def MemSys.Bounded (s : MemSys) : Prop := ∀ p, (s.procs p).size ≤ TRAPFRAME

/-- The new size does not pass the trapframe. -/
def MemAction.Fits (s : MemSys) : MemAction → Prop
  | .sbrk p n => ((s.procs p).size : ℤ) + n ≤ TRAPFRAME
  | _ => True

theorem SysOk.of_core {vm' : Vm} (h : SysOk tr s own pte mem)
    (hc : SysCore tr vm' (upd s.procs p d) own' pte' mem')
    (hd : d = .new ∨ d.live = true ∧ d.pagetable ≠ none) :
    SysOk tr ⟨vm', upd s.procs p d⟩ own' pte' mem' := by
  refine ⟨hc, fun {q} hq => ?_, fun {q} hq => ?_⟩
  · rcases eq_or_ne q p with rfl | hne
    · change (upd s.procs q d q).live = false at hq
      change upd s.procs q d q = .new
      rw [upd_self] at hq ⊢
      exact hd.resolve_right fun hd => by rw [hd.1] at hq; cases hq
    · change (upd s.procs p d q).live = false at hq
      change upd s.procs p d q = .new
      rw [upd_of_ne hne] at hq ⊢
      exact h.unused hq
  · rcases eq_or_ne q p with rfl | hne
    · change (upd s.procs q d q).live = true at hq
      change (upd s.procs q d q).pagetable ≠ none
      rw [upd_self] at hq ⊢
      rcases hd with rfl | hd
      · cases hq
      · exact hd.2
    · change (upd s.procs p d q).live = true at hq
      change (upd s.procs p d q).pagetable ≠ none
      rw [upd_of_ne hne] at hq ⊢
      exact h.full hq

theorem SysOk.same {vm' : Vm} (h : SysOk tr s own pte mem)
    (hc : SysCore tr vm' s.procs own' pte' mem') :
    SysOk tr ⟨vm', s.procs⟩ own' pte' mem' := ⟨hc, h.unused, h.full⟩

theorem SysOk.root (h : SysOk tr s own pte mem) (hp : (s.procs p).live = true) :
    ∃ r, (s.procs p).pagetable = some r := Option.ne_none_iff_exists'.1 (h.full hp)

section Copies

variable {ι : Type} [DecidableEq ι] {write : Bool} {i : ι} {sz va len n : ℕ} {pt pt' : ι → ℕ → Pte}
  {res : Except VmError PUnit} {t : List Pte}

theorem Copies.length (h : Copies write i sz pt va len res n t pt') :
    n = copyLength va len t.length := by
  induction h with
  | done => rfl
  | stop _ _ => rfl
  | page _ hk _ _ _ ih =>
    rw [hk] at ih
    rw [ih]
    rfl

theorem Copies.top (h : Copies write i sz pt va len res n t pt') (hn : 0 < n) :
    va + n ≤ TRAPFRAME := by
  induction h with
  | done => exact absurd hn (Nat.lt_irrefl 0)
  | stop _ _ => exact absurd hn (Nat.lt_irrefl 0)
  | @page pt pt' va len n k _ _ _ hlen hk _ _ hrest ih =>
    have hnext := uva_next_le k
    have hpart : va + pagePart va len ≤ uva k + PGSIZE := by
      rcases pagePart_cases va len with ⟨heq, hle⟩ | heq
      · rw [heq, hk]
        exact hle
      · rw [heq, hk]
    rcases Nat.eq_zero_or_pos n with rfl | hpos
    · omega
    · have := ih hpos
      omega

end Copies

/-! ## Every action -/

theorem Agrees.set {b : Bytes} (h : Agrees procs mem σ)
    (hother : ∀ q, q ≠ p → mem' (q, false) = mem (q, false))
    (hself : d.live = true → ∀ v < TRAPFRAME, mem' (p, false) v = b v) :
    Agrees (upd procs p d) mem' (upd σ p b) := by
  intro q hq v hv
  rcases eq_or_ne q p with rfl | hne
  · rw [upd_self] at hq ⊢
    exact hself hq v hv
  · rw [upd_of_ne hne] at hq ⊢
    rw [hother q hne]
    exact h q hq v hv

theorem Agrees.blit {va n : ℕ} {src : Bytes} (h : Agrees procs mem σ) :
    Agrees procs (setBytes mem (p, false) va n src) (upd σ p (Octopos.blit (σ p) va n src)) := by
  intro q hq v hv
  rcases eq_or_ne q p with rfl | hne
  · rw [upd_self, setBytes_self]
    unfold Octopos.blit
    rw [h q hq v hv]
  · rw [upd_of_ne hne, setBytes_of_ne fun heq => hne (Prod.mk.inj heq).1]
    exact h q hq v hv

theorem Agrees.others (h : Agrees procs mem σ) (hp : (procs p).live = false)
    (hother : ∀ j, j ≠ (p, false) → mem' j = mem j) : Agrees procs mem' σ := by
  intro q hq v hv
  rw [hother]
  · exact h q hq v hv
  · intro heq
    rw [(Prod.mk.inj heq).1, hp] at hq
    cases hq

theorem blit_one (m : Bytes) (v : ℕ) (b : UInt8) : blit m v 1 (fun _ => b) = upd m v b := by
  funext x
  rw [upd_apply]
  unfold blit
  by_cases hx : x = v
  · rw [if_pos hx, if_pos (by omega)]
  · rw [if_neg hx, if_neg (by omega)]

theorem ne_space (h : q ≠ p) : ((q, false) : Space) ≠ (p, false) := fun heq => h (Prod.mk.inj heq).1

/-- A rule for an access to the memory of a process, which keeps the sizes. -/
theorem SysOk.onSpace_wp {α : Type} {f : ℕ → ℕ → VmM α} {Q : α → MemSys → Prop}
    {E : VmPanic → Prop} (h : SysOk tr s own pte mem) (hp : (s.procs p).live = true)
    (hf : ∀ r tf, rootsOf s.procs (p, false) = some r →
      SpaceOk pte (p, false) tr tf (s.procs p).size →
      wp (f r (s.procs p).size) (fun a vm' => Q a ⟨vm', s.procs⟩) E s.vm) :
    wp (onSpace p f) Q E s := by
  obtain ⟨r, hr⟩ := h.root hp
  obtain ⟨tf, -, hsp⟩ := h.space hr
  exact Octopos.onSpace_wp hr (hf r tf hr hsp)

variable {a : MemAction}

section

variable (h : SysOk tr s own pte mem)
include h

/-- **Every action keeps the description**, and the address spaces follow the private memories. -/
theorem SysOk.run_wp (ha : a.Allowed s) (hfit : a.Fits s) :
    wp (a.run A tr) (fun r s' => ∃ own' pte' mem',
      Stepped tr s own mem a r s' own' pte' mem') (fun _ => True) s := by
  obtain ⟨vm, procs⟩ := s
  cases a with
  | spawn p =>
    have hp := h.unused ha
    refine h.alloc_wp hp (fun e vm' own' mem' h' hmem hs => ⟨own', pte, mem', h.same h', ?_, fun _ => hs.static⟩)
      fun tf r vm' own' pte' h' ho hs => ⟨own', pte', mem, h.of_core h' (.inr ⟨rfl, Option.some_ne_none _⟩), ?_,
        fun _ => hs.static⟩
    · exact fun σ hσ => hσ.others ha hmem
    · refine fun σ hσ => hσ.set (fun _ _ => rfl) fun _ v hv => ?_
      obtain ⟨tf', -, hsp⟩ := h'.space (p := p) (r := r) (by rw [upd_self])
      rw [upd_self] at hsp
      have hround : roundUp 0 = 0 := by decide
      exact h'.memory.zero_above hsp (hround ▸ Nat.zero_le v) hv
  | fork p q =>
    obtain ⟨r, hr⟩ := h.root ha.1
    refine h.fork_wp hr (h.unused ha.2)
      (fun e vm' own' pte' mem' h' hmem _ hs => ⟨own', pte', mem', h.same h', ?_, fun _ => hs.static⟩)
      fun tf r' vm' own' pte' mem' h' hmem hbytes hs => ⟨own', pte', mem',
        h.of_core h' (.inr ⟨rfl, Option.some_ne_none _⟩), ?_, fun _ => hs.static⟩
    · exact fun σ hσ => hσ.others ha.2 hmem
    · refine fun σ hσ => hσ.set (fun x hx => hmem _ (ne_space hx)) fun _ v hv => ?_
      rw [hbytes v hv]
      exact hσ p ha.1 v hv
  | sbrk p n =>
    obtain ⟨r, hr⟩ := h.root ha.1
    have hlive : ∀ sz, ({ procs p with size := sz } : ProcData) = .new ∨
        (procs p).live = true ∧ (procs p).pagetable ≠ none := fun _ => .inr ⟨ha.1, h.full ha.1⟩
    refine h.sbrk_wp hr rfl (fun _ => trivial) (fun _ => trivial) (fun hn => ?_) (fun hn _ hlt => ?_)
      fun new vm' own' pte' hn _ hnew h' hs => ?_
    · have hle : (procs p).size + n.toNat ≤ TRAPFRAME := by
        change ((procs p).size : ℤ) + n ≤ (TRAPFRAME : ℕ) at hfit
        omega
      refine ⟨own, pte, mem, h.of_core (h.grow hr (Nat.le_add_right _ _) hle) (hlive _), fun σ hσ => ?_,
        fun _ _ _ => Iff.rfl⟩
      have hself := hσ.set (p := p) (d := { procs p with size := (procs p).size + n.toNat }) (b := σ p)
        (fun _ _ => rfl) fun _ => hσ p ha.1
      rw [upd_eq_self] at hself
      unfold privateAfter
      dsimp only
      rw [if_neg (not_lt.2 hn)]
      exact hself
    · exact ⟨own, pte, mem, h, fun σ hσ => hσ, fun _ _ _ => Iff.rfl⟩
    · refine ⟨own', pte', _, h.of_core h' (hlive _), fun σ hσ => ?_, fun _ => hs⟩
      unfold privateAfter
      dsimp only
      rw [if_pos hn, ← hnew, Int.toNat_natCast]
      refine hσ.set (fun x hx => upd_of_ne (ne_space hx)) fun _ v hv => ?_
      rw [upd_self]
      unfold shrunk blit
      rw [hσ p ha.1 v hv]
  | load p va =>
    change wp (onSpace p fun root size => Uvm.load A root size va) _ _ _
    refine h.onSpace_wp ha.1 fun r tf hr hsp => ?_
    refine h.memory.load_wp hr hsp.size ha.2 hsp.highOk fun res vm' own' pte' h' hk hf _ _ =>
      ⟨own', pte', mem, h.same (h.faulted h' hk hf), fun σ hσ => hσ, fun _ => hk.static⟩
  | store p va b =>
    change wp (onSpace p fun root size => Uvm.store A root size va b) _ _ _
    refine h.onSpace_wp ha.1 fun r tf hr hsp => ?_
    refine h.memory.store_wp hr hsp.size ha.2 hsp.highOk
      (fun e vm' own' pte' h' hk hf _ => ⟨own', pte', mem, h.same (h.faulted h' hk hf), fun σ hσ => hσ,
        fun _ => hk.static⟩)
      fun vm' own' pte' h' hk hf _ => ⟨own', pte', _, h.same (h.faulted h' hk hf), fun σ hσ => ?_,
        fun _ => hk.static⟩
    rw [privateAfter, ← blit_one]
    exact hσ.blit
  | exec p file argv =>
    obtain ⟨r, hr⟩ := h.root ha
    refine h.exec_wp hr (fun img vm' own' pte' mem' h' hmem hbytes hs _ _ => ⟨own', pte', mem',
        h.of_core h' (.inr ⟨ha, Option.some_ne_none _⟩), fun σ hσ => ?_, fun _ => hs⟩)
      (fun _ _ => trivial) (fun _ _ => trivial) fun e vm' own' h' hs =>
        ⟨own', pte, mem, h.same h', fun σ hσ => hσ, fun hread => (hs hread).static⟩
    refine hσ.set hmem fun _ v _ => ?_
    rw [hbytes]
  | copyTo p src dst =>
    change wp (onSpace p fun root size => Uvm.copyTo A root size src dst) _ _ _
    refine h.onSpace_wp ha.1 fun r tf hr hsp => ?_
    refine MemOk.copyTo_wp hr hsp.size le_rfl h.memory ha.2 hsp.highOk fun res t n vm' own' pte' h' hk hc =>
      ⟨own', pte', _, h.same (h.faulted h' hk hc.faulted), fun σ hσ => ?_, fun _ => hk.static⟩
    rw [privateAfter, ← hc.length]
    exact hσ.blit
  | copyFrom p src len =>
    change wp (onSpace p fun root size => Uvm.copyFrom A root size src len) _ _ _
    refine h.onSpace_wp ha.1 fun r tf hr hsp => ?_
    refine MemOk.copyFrom_wp hr hsp.size le_rfl h.memory ha.2 hsp.highOk fun res t n vm' own' pte' h' hk hc =>
      ⟨own', pte', mem, h.same (h.faulted h' hk hc.faulted), fun σ hσ => hσ, fun _ => hk.static⟩
  | free p =>
    refine h.free_wp fun vm' own' mem' h' hmem hs => ⟨own', _, mem', h.of_core h' (.inl rfl), fun σ hσ => ?_,
      fun _ => hs.static⟩
    have hself := hσ.set (p := p) (d := .new) (b := σ p) (fun x hx => hmem _ (ne_space hx)) fun hl => by cases hl
    rwa [upd_eq_self] at hself

theorem SysOk.bounded : s.Bounded := by
  intro p
  by_cases hp : (s.procs p).live = true
  · obtain ⟨r, hr⟩ := h.root hp
    obtain ⟨tf, -, hsp⟩ := h.space hr
    exact hsp.size
  · rw [h.unused (Bool.eq_false_of_not_eq_true hp)]
    exact Nat.zero_le _

theorem SysOk.fits {l : (a : MemAction) × a.Result} (hl : MemStep A tr s l s') (hb : s'.Bounded) :
    l.1.Fits s := by
  obtain ⟨a, r⟩ := l
  cases a with
  | sbrk p n =>
    obtain ⟨⟨hlive, -⟩, hrun⟩ := hl
    obtain ⟨rt, hr⟩ := h.root hlive
    have hold := h.bounded p
    change ((s.procs p).size : ℤ) + n ≤ (TRAPFRAME : ℕ)
    have hwp : wp (Proc.sbrk A p n) (fun _ s' => s'.Bounded → ((s.procs p).size : ℤ) + n ≤ (TRAPFRAME : ℕ))
        (fun _ => True) s := by
      refine h.sbrk_wp hr rfl (fun _ => trivial) (fun _ => trivial) (fun hn hb => ?_) (fun hn _ _ _ => by omega)
        fun _ _ _ _ hn _ _ _ _ _ => by omega
      have hnew := hb p
      dsimp only at hnew
      rw [upd_self] at hnew
      dsimp only at hnew
      omega
    exact wp_ok hwp hrun hb
  | _ => trivial

theorem SysOk.step {l : (a : MemAction) × a.Result} (hl : MemStep A tr s l s') (hfit : l.1.Fits s) :
    ∃ own' pte' mem', Stepped tr s own mem l.1 l.2 s' own' pte' mem' :=
  wp_ok (h.run_wp hl.1 hfit) hl.2

end

/-! ## Running actions -/

instance (s : MemSys) (a : MemAction) : Decidable (a.Allowed s) := by
  cases a <;> unfold MemAction.Allowed <;> infer_instance

/-- Run actions one after the other, as long as they pass the test `ok`. -/
def MemSys.runAll (A : Allocator) (tr : ℕ) (ok : MemSys → MemAction → Bool) :
    MemSys → List MemAction → Option MemSys
  | s, [] => some s
  | s, a :: as =>
    if a.Allowed s ∧ ok s a then
      match (a.run A tr).run s with
      | .ok (_, s') => runAll A tr ok s' as
      | .error _ => none
    else none

theorem MemSys.runAll_reachable {init : MemSys → Prop} {ok : MemSys → MemAction → Bool}
    {as : List MemAction} (h : s.runAll A tr ok as = some s')
    (hs : Reachable init (Guarded (fun s l => ok s l.1 = true) (MemStep A tr)) s) :
    Reachable init (Guarded (fun s l => ok s l.1 = true) (MemStep A tr)) s' := by
  induction as generalizing s with
  | nil =>
    cases h
    exact hs
  | cons a as ih =>
    unfold MemSys.runAll at h
    split_ifs at h with hok
    rcases hm : (a.run A tr).run s with e | ⟨r, t⟩
    · rw [hm] at h
      cases h
    · rw [hm] at h
      exact ih h (.step (l := ⟨a, r⟩) hs ⟨hok.2, hok.1, hm⟩)

def MemSys.start : MemSys := ⟨.blank, fun _ => .new⟩

theorem MemSys.start_init : MemInit .start := ⟨fun _ => rfl, fun _ _ _ => rfl⟩

def firstProc : Fin NPROC := ⟨0, NPROC_pos⟩

def secondProc : Fin NPROC := ⟨1, by decide⟩

def firstPage : Fin USERPAGES := ⟨0, by decide⟩

end Octopos
