import Octopos.Vm.KernelCopies

/-!
# The arguments of `exec`

`exec` pushes the argument strings to the new stack, one below the other, and under them the array
of their addresses (`Exec.argFit`, `Exec.argBytes`). After a successful `exec` the process finds its
arguments there (`exec_argLayout`). With as many arguments as the array has room for, or with a
string that is longer than the stack pointer is high, `exec` stops the kernel (`exec_panics`); this
is the only way in which it can stop (`exec_survives`).
-/

namespace Octopos

/-! ## The layout of the stack -/

/-- Strings `(a, arg)` in memory, each below the one before, inside of `[lo, hi)`. -/
structure Strings (b : Bytes) (l : List (ℕ × List UInt8)) (lo hi : ℕ) : Prop where
  bytes : ∀ x ∈ l, (∀ k < x.2.length, b (x.1 + k) = x.2.getD k 0) ∧ b (x.1 + x.2.length) = 0
  inside : ∀ x ∈ l, lo ≤ x.1 ∧ x.1 + x.2.length + 1 ≤ hi
  disjoint : l.Pairwise fun x y => y.1 + y.2.length + 1 ≤ x.1

theorem Strings.cons {b : Bytes} {l : List (ℕ × List UInt8)} {lo a hi : ℕ} {arg : List UInt8}
    (h : Strings b l lo a) (harg : ∀ k < arg.length, b (a + k) = arg.getD k 0)
    (hzero : b (a + arg.length) = 0) (hlo : lo ≤ a) (hhi : a + arg.length + 1 ≤ hi) :
    Strings b ((a, arg) :: l) lo hi := by
  refine ⟨?_, ?_, ?_⟩
  · exact List.forall_mem_cons.2 ⟨⟨harg, hzero⟩, h.bytes⟩
  · refine List.forall_mem_cons.2 ⟨⟨hlo, hhi⟩, fun x hx => ⟨(h.inside x hx).1, ?_⟩⟩
    have htop := (h.inside x hx).2
    omega
  · exact List.pairwise_cons.2 ⟨fun x hx => (h.inside x hx).2, h.disjoint⟩

namespace Exec

variable {base sp sp' argc : ℕ} {argv : List (List UInt8)} {ustack ustack' : List ℕ} {b b' : Bytes}

theorem place_aligned (sp n : ℕ) : place sp n % 16 = 0 := by
  unfold place
  omega

theorem place_le {n : ℕ} (h : n ≤ sp) : place sp n + n ≤ sp := by
  unfold place
  omega

theorem argBytes_strings (heq : argBytes argv (sp, ustack, b) = (sp', ustack', b'))
    (hfit : argFit base argv sp argc = .fits) :
    ∃ l : List (ℕ × List UInt8), l.map Prod.snd = argv ∧ ustack' = ustack ++ l.map Prod.fst ∧
    Strings b' l sp' sp ∧ sp' ≤ sp ∧ argFit base [] sp' (argc + argv.length) = .fits ∧ ∀ v,
    v < sp' ∨ sp ≤ v → b' v = b v := by
  induction argv generalizing sp ustack b argc with
  | nil =>
    obtain ⟨rfl, rfl, rfl⟩ := Prod.mk.inj heq |>.imp_right Prod.mk.inj
    exact ⟨[], rfl, (List.append_nil _).symm, ⟨nofun, nofun, .nil⟩, le_rfl, hfit, fun _ _ => rfl⟩
  | cons arg argv ih =>
    rw [argFit] at hfit
    split_ifs at hfit with hfull hunder hlow
    have hplace := place_le (not_lt.1 hunder)
    unfold place at hfit hlow hplace
    rw [argBytes] at heq
    generalize sp - (arg.length + 1) - (sp - (arg.length + 1)) % 16 = a at *
    obtain ⟨l, hargs, hstack, hstr, hle, hrest, hkeep⟩ := ih heq hfit
    have hhere : ∀ v, a ≤ v → b' v = _ := fun v hv => hkeep v (.inr hv)
    refine ⟨(a, arg) :: l, by rw [List.map_cons, hargs], ?_, hstr.cons (fun k hk => ?_) ?_ hle (by omega),
      by omega, ?_, fun v hv => ?_⟩
    · rw [hstack, List.append_assoc]
      rfl
    · rw [hhere _ (Nat.le_add_right a k), blit_outside (by omega), blit_inside hk]
    · have hlast := hhere (a + arg.length + 0) (by omega)
      rwa [blit_inside Nat.one_pos] at hlast
    · rw [List.length_cons, ← Nat.succ_add_eq_add_succ]
      exact hrest
    · rw [hkeep v (by omega), blit_outside (by omega), blit_outside (by omega)]

def pointerBytes (a : ℕ) : List UInt8 := (List.range 8).map fun i => UInt8.ofNat (a / 256 ^ i % 256)

theorem pointerBytes_getD (a : ℕ) {k : ℕ} (hk : k < 8) :
    (pointerBytes a).getD k 0 = leBytes a k := by
  unfold pointerBytes leBytes
  rw [List.getD_eq_getElem?_getD, List.getElem?_map, List.getElem?_range hk, Option.map_some, Option.getD_some]
  exact UInt8.toNat.inj (by rw [UInt8.toNat_ofNat', UInt8.toNat_ofNat', Nat.mod_mod])

theorem pointers_getD (l : List ℕ) {j k : ℕ} (hj : j < l.length) (hk : k < 8) :
    (l.flatMap pointerBytes).getD (8 * j + k) 0 = leBytes (l.getD j 0) k := by
  induction l generalizing j with
  | nil => exact absurd hj (Nat.not_lt_zero j)
  | cons a l ih =>
    have hlen : (pointerBytes a).length = 8 := by
      unfold pointerBytes
      rw [List.length_map, List.length_range]
    rw [List.flatMap_cons]
    cases j with
    | zero =>
      rw [Nat.mul_zero, Nat.zero_add, List.getD_append _ _ _ _ (hlen ▸ hk), pointerBytes_getD a hk]
      rfl
    | succ j =>
      rw [List.getD_append_right _ _ _ _ (by omega), hlen, show 8 * (j + 1) + k - 8 = 8 * j + k by omega,
        ih (Nat.lt_of_succ_lt_succ hj)]
      rfl

theorem ustackBytes_getD (ustack : List ℕ) {j k : ℕ} (hj : j ≤ ustack.length) (hk : k < 8) :
    (ustackBytes ustack).getD (8 * j + k) 0 = leBytes (ustack.getD j 0) k := by
  have hlen : j < (ustack ++ [0]).length := by
    rw [List.length_append]
    exact Nat.lt_succ_of_le hj
  refine (pointers_getD (ustack ++ [0]) hlen hk).trans ?_
  rcases hj.lt_or_eq with hlt | rfl
  · rw [List.getD_append _ _ _ _ hlt]
  · rw [List.getD_append_right _ _ _ _ le_rfl, Nat.sub_self, List.getD_eq_default _ _ le_rfl]
    rfl

end Exec

/-- The arguments `(a, arg)` on a stack: under the strings stands the array of their addresses, with
a zero at its end. -/
structure ArgLayout (b : Bytes) (size sp : ℕ) (l : List (ℕ × List UInt8)) : Prop where
  aligned : sp % 16 = 0
  stack : size - USERSTACK * PGSIZE ≤ sp
  pointers : ∀ j < l.length, leNat b (sp + 8 * j) 8 = (l.map Prod.fst).getD j 0
  null : leNat b (sp + 8 * l.length) 8 = 0
  array : sp + 8 * (l.length + 1) ≤ size
  strings : Strings b l (sp + 8 * (l.length + 1)) size

variable {file : ExecFile} {argv : List (List UInt8)} {img : ExecImage}

theorem Strings.congr {b b' : Bytes} {l : List (ℕ × List UInt8)} {lo hi lo' : ℕ}
    (h : Strings b l lo hi) (hlo : lo' ≤ lo) (hb : ∀ v, lo ≤ v → b' v = b v) :
    Strings b' l lo' hi := by
  refine ⟨fun x hx => ⟨fun k hk => ?_, ?_⟩, fun x hx => ⟨hlo.trans (h.inside x hx).1, (h.inside x hx).2⟩, h.disjoint⟩
  · rw [hb _ ((h.inside x hx).1.trans (Nat.le_add_right _ _))]
    exact (h.bytes x hx).1 k hk
  · rw [hb _ ((h.inside x hx).1.trans (Nat.le_add_right _ _))]
    exact (h.bytes x hx).2

/-- The arguments `(a, arg)` of an image: the bytes `b` and the stack pointer `sp` are those before
the array is pushed. -/
structure Exec.Pushed (file : ExecFile) (argv : List (List UInt8)) (img : ExecImage)
    (l : List (ℕ × List UInt8)) (sp : ℕ) (b : Bytes) : Prop where
  args : l.map Prod.snd = argv
  argc : img.argc = l.length
  strings : Strings b l sp img.size
  top : sp ≤ img.size
  program : ∀ v < sp, b v = (Exec.program file).2 v
  aligned : img.sp % 16 = 0
  stack : img.size - USERSTACK * PGSIZE ≤ img.sp
  array : img.sp + (l.length + 1) * 8 ≤ sp
  bytes : Exec.imageBytes file argv = blit b img.sp ((l.length + 1) * 8)
    fun x => (Exec.ustackBytes (l.map Prod.fst)).getD x 0

theorem Exec.Made.pushed (h : Exec.Made file argv img) :
    ∃ l sp b, Exec.Pushed file argv img l sp b := by
  obtain ⟨-, htop, hfits, hsp, hargc⟩ := h
  rcases hpushed : Exec.pushed file argv with ⟨sp, ustack, b⟩
  rw [hpushed] at hsp hargc
  rw [← htop] at hfits
  have heq : Exec.argBytes argv (img.size, [], (Exec.program file).2) = (sp, ustack, b) := by
    rw [htop]
    exact hpushed
  obtain ⟨l, rfl, rfl, hstr, hle, hlast, hkeep⟩ := Exec.argBytes_strings heq hfits
  rw [List.nil_append, List.length_map] at hsp hargc
  rw [Nat.zero_add, List.length_map, Exec.argFit] at hlast
  split_ifs at hlast with hfull hunder hlow
  have hplace := Exec.place_le (not_lt.1 hunder)
  have hal := Exec.place_aligned sp ((l.length + 1) * 8)
  have hbytes := Exec.imageBytes_eq hpushed
  rw [length_ustackBytes, List.nil_append, List.length_map] at hbytes
  rw [← hsp] at hlow hplace hal hbytes
  exact ⟨l, sp, b, rfl, hargc, hstr, hle, fun v hv => hkeep v (.inl hv), hal, not_lt.1 hlow, hplace, hbytes⟩

theorem Exec.Pushed.layout {l : List (ℕ × List UInt8)} {sp : ℕ} {b : Bytes}
    (h : Exec.Pushed file argv img l sp b) (hsize : img.size ≤ TRAPFRAME) :
    ArgLayout (Exec.imageBytes file argv) img.size img.sp l := by
  have harray := h.array
  have htop := h.top
  -- the words of the array
  have hword : ∀ j ≤ l.length, leNat (blit b img.sp ((l.length + 1) * 8)
      fun x => (Exec.ustackBytes (l.map Prod.fst)).getD x 0) (img.sp + 8 * j) 8 =
        (l.map Prod.fst).getD j 0 % 256 ^ 8 := by
    intro j hj
    refine leNat_of_bytes fun k hk => ?_
    rw [Nat.add_assoc, blit_inside (by omega), Exec.ustackBytes_getD _ (by rwa [List.length_map]) hk]
  rw [h.bytes]
  refine ⟨h.aligned, h.stack, fun j hj => ?_, ?_, by omega, h.strings.congr (by omega) fun v hv =>
    blit_outside (by omega)⟩
  · rw [hword j hj.le, Nat.mod_eq_of_lt]
    have hmem : (l.map Prod.fst).getD j 0 ∈ l.map Prod.fst := by
      rw [List.getD_eq_getElem _ _ (by rwa [List.length_map])]
      exact List.getElem_mem _
    obtain ⟨x, hx, hxa⟩ := List.mem_map.1 hmem
    have hin := (h.strings.inside x hx).2
    have htf : TRAPFRAME = 2 ^ 38 - 8192 := rfl
    have hpow : 256 ^ 8 = 2 ^ 64 := rfl
    rw [← hxa]
    omega
  · rw [hword _ le_rfl, List.getD_eq_default _ _ (List.length_map _).le]
    rfl

/-! ## What the new program finds -/

variable {A : Allocator} {tr va : ℕ} {p : Fin NPROC} {s s' : MemSys} {own : ℕ → Option (Owner Space)}
  {pte : Space → ℕ → Pte} {mem : Space → Bytes} {E : VmPanic → Prop}

theorem SysOk.load_direct {k : Fin USERPAGES} (h : SysOk tr s own pte mem)
    (hp : (s.procs p).live = true) (hk : uva k = va / PGSIZE * PGSIZE)
    (hy : (pte (p, false) (uva k)).allows false = true) :
    (userLoad A p va).run s = .ok (.ok (mem (p, false) va), s) := by
  have hwp : wp (userLoad A p va) (fun r s' => r = .ok (mem (p, false) va) ∧ s' = s) (fun _ => False) s := by
    refine h.onSpace_wp hp fun r tf hr hsp => ?_
    unfold Uvm.load
    rw [Uvm.userAccess]
    refine wp_bind.2 (wp_bind.2 (h.memory.access_wp hr hsp.highOk (fun hno => ?_) fun l hl _ =>
      wp_pure.2 (wp_bind.2 (wp_get.2 (wp_pure.2 ⟨?_, rfl⟩)))))
    · rw [hno k hk] at hy
      cases hy
    · have hview := h.memory.views (p, false) k (va % PGSIZE) (Nat.mod_lt _ (by decide))
      rw [if_pos (Pte.isV_of_allows hy), hk, Nat.div_add_mod'] at hview
      rw [hview, hl]
  obtain ⟨r, s', hrun, rfl, rfl⟩ := wp_total hwp
  exact hrun

theorem SysOk.exec_wp (h : SysOk tr s own pte mem) (hp : (s.procs p).live = true)
    (hE : ¬file.Bounded → ∀ e, E e)
    (hpanic : Exec.argFit (Exec.top file - USERSTACK * PGSIZE) argv (Exec.top file) 0 = .panics →
      ∀ e, E e) :
    wp (Proc.exec A tr p file argv) (fun res s' => ∀ img, res = .ok img → Exec.Made file argv img ∧
      (s'.procs p).live = true ∧ (s'.procs p).size = img.size ∧ ∃ own' pte' mem',
      SysOk tr s' own' pte' mem' ∧ mem' (p, false) = Exec.imageBytes file argv ∧
      ImagePages pte' (p, false) img.size (Exec.writable file)) E s := by
  obtain ⟨r, hr⟩ := h.root hp
  refine h.toSysCore.exec_wp hr (fun img vm' own' pte' mem' h' _ hbytes _ hmade hpages img' heq => ?_) hE hpanic
    fun e vm' own' _ _ img hno => (by cases hno)
  cases heq
  refine ⟨hmade, ?_, ?_, own', pte', mem', h.of_core h' (.inr ⟨hp, Option.some_ne_none _⟩), hbytes, hpages⟩
  · change (upd s.procs p _ p).live = true
    rw [upd_self]
    exact hp
  · change (upd s.procs p _ p).size = img.size
    rw [upd_self]

/-- **The arguments of a program.** After a successful `exec`, in every state that processes reach
while no size passes the trapframe, the process can load its arguments from its stack: the array of
their addresses at the stack pointer, and above it the strings. They lie above a page that is not
for the user, they do not overlap, and the value that `exec` returns is their number. -/
theorem exec_argLayout
    (h : Reachable MemInit (Guarded (fun s l => SbrkFits s l.1) (MemStep A tr)) s)
    (hp : (s.procs p).live = true) (hrun : (Proc.exec A tr p file argv).run s = .ok (.ok img, s')) :
    img.argc = argv.length ∧ (s'.procs p).size = img.size ∧
    (s'.entryOf p (img.size - (USERSTACK + 1) * PGSIZE)).isU = false ∧
    ∃ b l, (∀ va, img.size - USERSTACK * PGSIZE ≤ va → va < img.size →
        (userLoad A p va).run s' = .ok (.ok (b va), s')) ∧
      l.map Prod.snd = argv ∧ ArgLayout b img.size img.sp l := by
  obtain ⟨own, pte, mem, hI⟩ := SysOk.of_reachable h
  obtain ⟨hmade, hlive, hsize, own', pte', mem', hI', hbytes, hpages⟩ :=
    wp_ok (hI.exec_wp (E := fun _ => True) hp (fun _ _ => trivial) fun _ _ => trivial) hrun img rfl
  have hbound := hI'.bounded p
  rw [hsize] at hbound
  obtain ⟨l, sp, b, hpushed⟩ := hmade.pushed
  have hargc : img.argc = argv.length := by rw [hpushed.argc, ← hpushed.args, List.length_map]
  have hal : img.size % PGSIZE = 0 := by
    rw [hmade.size]
    exact Exec.top_aligned file
  refine ⟨hargc, hsize, ?_, _, l, fun va hlo hhi => ?_, hpushed.args, hpushed.layout hbound⟩
  · have hst : (USERSTACK + 1) * PGSIZE = 20480 := rfl
    have hpg : PGSIZE = 4096 := rfl
    have htop : 20480 ≤ img.size := by
      rw [hmade.size]
      exact Nat.le_add_left _ _
    have hguard : UserVa (img.size - (USERSTACK + 1) * PGSIZE) := by
      refine ⟨?_, ?_⟩
      · rw [hst, hpg]
        rw [hpg] at hal
        omega
      · rw [hst]
        omega
    obtain ⟨k, hk⟩ := hguard.exists_uva
    rw [← hk, hI'.entryOf_user]
    exact hpages.guard k hk
  · have hlow : va / PGSIZE * PGSIZE < TRAPFRAME :=
      lt_of_le_of_lt (Nat.div_mul_le_self va PGSIZE) (hhi.trans_le hbound)
    obtain ⟨k, hk⟩ := (UserVa.mk (Nat.mul_mod_left _ _) hlow).exists_uva
    have hbase : img.size - USERSTACK * PGSIZE ≤ uva k := by
      have hst : USERSTACK * PGSIZE = 16384 := rfl
      have hpg : PGSIZE = 4096 := rfl
      rw [hst] at hlo ⊢
      rw [hpg] at hal hk
      omega
    obtain ⟨hv, hu, hr, -⟩ := hpages.stack k hbase (by
      rw [hk]
      exact lt_of_le_of_lt (Nat.div_mul_le_self va PGSIZE) hhi)
    rw [← hbytes]
    refine hI'.load_direct hlive hk ?_
    unfold Pte.allows
    rw [hv, hu, hr]
    rfl

/-! ## Arguments that stop the kernel -/

/-- The part of the stack that the strings take, each from a multiple of 16 on. -/
def Exec.stringRoom (argv : List (List UInt8)) : ℕ :=
  (argv.map fun arg => (arg.length + 16) / 16 * 16).sum

/-- Arguments for a program with the stack below `top`. They are not `MAXARG` strings with room on
the stack, and below the strings with room before it, each of the first `MAXARG` strings fits above
address 0. -/
structure Exec.ArgsOk (top : ℕ) (argv : List (List UInt8)) : Prop where
  count : argv.length = MAXARG → USERSTACK * PGSIZE < Exec.stringRoom argv
  string : ∀ args arg rest, argv = args ++ arg :: rest → args.length < MAXARG →
    Exec.stringRoom args ≤ USERSTACK * PGSIZE → Exec.stringRoom args + arg.length < top

theorem Exec.place_of_aligned {sp n : ℕ} (h : sp % 16 = 0) (hn : n < sp) :
    Exec.place sp (n + 1) + (n + 16) / 16 * 16 = sp := by
  unfold Exec.place
  omega

theorem Exec.argFit_ne_panics {base sp argc : ℕ} (hbase : PGSIZE ≤ base) (hsp : base ≤ sp)
    (hal : sp % 16 = 0) (hargc : argc ≤ MAXARG) :
    Exec.argFit base argv sp argc ≠ .panics ↔
    (argc + argv.length = MAXARG → sp < base + Exec.stringRoom argv) ∧ ∀ args arg rest,
    argv = args ++ arg :: rest → argc + args.length < MAXARG → base + Exec.stringRoom args ≤ sp →
    Exec.stringRoom args + arg.length < sp := by
  have hpg : PGSIZE = 4096 := rfl
  have hmax : MAXARG = 32 := rfl
  induction argv generalizing sp argc with
  | nil =>
    rw [Exec.argFit]
    have hroom : Exec.stringRoom [] = 0 := rfl
    rw [hroom, List.length_nil]
    by_cases hfull : MAXARG ≤ argc
    · rw [if_pos hfull]
      refine iff_of_false (fun hno => hno rfl) fun hno => ?_
      have hlow := hno.1 (by omega)
      omega
    · rw [if_neg hfull, if_neg (by omega)]
      refine iff_of_true (by split_ifs <;> simp) ⟨by omega, fun args arg rest heq => ?_⟩
      simp at heq
  | cons a argv ih =>
    have hroom (l : List (List UInt8)) :
        Exec.stringRoom (a :: l) = (a.length + 16) / 16 * 16 + Exec.stringRoom l := List.sum_cons
    rw [Exec.argFit, hroom, List.length_cons]
    by_cases hfull : MAXARG ≤ argc
    · rw [if_pos hfull]
      exact iff_of_true (by simp) ⟨by omega, fun args arg rest _ hlt => by omega⟩
    rw [if_neg hfull]
    by_cases hunder : sp < a.length + 1
    · rw [if_pos hunder]
      refine iff_of_false (fun hno => hno rfl) fun hno => ?_
      have hfirst := hno.2 [] a argv rfl (not_le.1 hfull) hsp
      have hnil : Exec.stringRoom [] = 0 := rfl
      omega
    rw [if_neg hunder]
    have hplace := Exec.place_of_aligned hal (show a.length < sp by omega)
    by_cases hlow : Exec.place sp (a.length + 1) < base
    · rw [if_pos hlow]
      refine iff_of_true (by simp) ⟨by omega, fun args arg rest heq _ hfit => ?_⟩
      cases args with
      | nil =>
        obtain ⟨rfl, -⟩ := List.cons.inj heq
        have hnil : Exec.stringRoom [] = 0 := rfl
        omega
      | cons b args =>
        obtain ⟨rfl, -⟩ := List.cons.inj heq
        rw [hroom] at hfit
        omega
    -- the other strings are below this one
    rw [if_neg hlow]
    refine (ih (not_lt.1 hlow) (Exec.place_aligned _ _) (by omega)).trans ?_
    refine and_congr ⟨fun h _ => ?_, fun h _ => ?_⟩ ⟨fun h args arg rest heq hlt hfit => ?_,
      fun h args arg rest heq hlt hfit => ?_⟩
    · have := h (by omega)
      omega
    · have := h (by omega)
      omega
    · cases args with
      | nil =>
        obtain ⟨rfl, -⟩ := List.cons.inj heq
        have hnil : Exec.stringRoom [] = 0 := rfl
        omega
      | cons b args =>
        obtain ⟨rfl, hrest⟩ := List.cons.inj heq
        rw [hroom] at hfit ⊢
        rw [List.length_cons] at hlt
        have := h args arg rest hrest (by omega) (by omega)
        omega
    · have := h (a :: args) arg rest (congrArg _ heq) (by rw [List.length_cons]; omega) (by rw [hroom]; omega)
      rw [hroom] at this
      omega

theorem Exec.le_top (file : ExecFile) : (USERSTACK + 1) * PGSIZE ≤ Exec.top file :=
  Nat.le_add_left _ _

/-- The arguments decide what becomes of `exec`, unless it fails before it comes to them. -/
theorem SysOk.exec_outcome (h : SysOk tr s own pte mem) (hp : (s.procs p).live = true)
    (hfile : file.Bounded) :
    (∀ argv, ∃ e s', (Proc.exec A tr p file argv).run s = .ok (.error e, s')) ∨
    ∀ argv, wp (Proc.exec A tr p file argv)
      (fun res _ =>
        (Exec.argFit (Exec.top file - USERSTACK * PGSIZE) argv (Exec.top file) 0 = .fails ∧
          ∃ e, res = .error e) ∨
        Exec.argFit (Exec.top file - USERSTACK * PGSIZE) argv (Exec.top file) 0 = .fits ∧
          ∃ img, res = .ok img ∧ img.size = Exec.top file)
      (fun _ => Exec.argFit (Exec.top file - USERSTACK * PGSIZE) argv (Exec.top file) 0 = .panics)
      s := by
  obtain ⟨root, hroot⟩ := h.root hp
  obtain ⟨tf, htf, hsp⟩ := h.space hroot
  have hprepare : wp (Exec.prepare A tr file tf) (fun res vm' => ∀ r sz, res = .ok (r, sz) →
      sz = Exec.top file ∧ Exec.Loadable file ∧ Stacked (rootsOf s.procs) own pte mem (p, true) r tr tf vm'
        (Exec.top file) (Exec.program file).2 (Exec.writable file)) (fun _ => False) s.vm :=
    h.memory.prepare_wp (rootsOf_exec s.procs p) (fun hno => absurd hfile hno)
      (fun _ _ _ _ _ _ _ _ _ _ hno => by cases hno) (fun _ _ _ _ _ hno => by cases hno)
      fun r vm' hl hs r' sz heq => by
        obtain ⟨rfl, rfl⟩ := Prod.mk.inj (Except.ok.inj heq)
        exact ⟨rfl, hl, hs⟩
  obtain ⟨res, vm', hrun, hres⟩ := wp_total hprepare
  rcases res with e | ⟨r, sz⟩
  · left
    intro argv
    have hwp : wp (Proc.exec A tr p file argv) (fun res _ => res = .error e) (fun _ => False) s := by
      unfold Proc.exec
      refine wp_bind.2 (wp_getProc ?_)
      rw [hroot, htf]
      dsimp only
      rw [Exec.image_eq]
      exact wp_bind.2 (wp_liftVm (wp_bind.2 (wp_of_run hrun (wp_pure.2 (wp_pure.2 rfl)))))
    obtain ⟨res, s', hexec, rfl⟩ := wp_total hwp
    exact ⟨e, s', hexec⟩
  · right
    intro argv
    obtain ⟨rfl, hl, hs⟩ := hres r sz rfl
    refine h.toSysCore.commit_wp hroot (fun img _ _ _ _ _ _ _ _ hmade _ =>
      .inr ⟨hmade.fits, img, rfl, hmade.size⟩) htf ?_
    rw [Exec.image_eq]
    refine wp_bind.2 (wp_of_run hrun ?_)
    refine h.memory.pushImage_wp (rootsOf_exec s.procs p) hsp.size hl hs (fun hno _ => hno)
      (fun hno e _ _ => .inl ⟨hno, e, rfl⟩) fun img vm'' hr hmade hs' => ⟨hmade, ?_⟩
    rw [hr]
    exact hs'

theorem Exec.argsOk_iff (file : ExecFile) : Exec.ArgsOk (Exec.top file) argv ↔
    Exec.argFit (Exec.top file - USERSTACK * PGSIZE) argv (Exec.top file) 0 ≠ .panics := by
  have htop := Exec.le_top file
  have hal := Exec.top_aligned file
  have hroom : (USERSTACK + 1) * PGSIZE = 20480 := rfl
  have hst : USERSTACK * PGSIZE = 16384 := rfl
  have hpg : PGSIZE = 4096 := rfl
  rw [hpg] at hal
  rw [Exec.argFit_ne_panics (by omega) (by omega) (by omega) (Nat.zero_le _), Nat.zero_add]
  constructor
  · intro h
    refine ⟨fun hlen => ?_, fun args arg rest heq hlt hfit => ?_⟩
    · have := h.count hlen
      omega
    · rw [Nat.zero_add] at hlt
      exact h.string args arg rest heq hlt (by omega)
  · rintro ⟨hcount, hstring⟩
    refine ⟨fun hlen => ?_, fun args arg rest heq hlt hfit => ?_⟩
    · have := hcount hlen
      omega
    · exact hstring args arg rest heq (by omega) (by omega)

/-- **`exec` survives its arguments**, in every state that processes reach while no size passes the
trapframe, for every file, if the arguments are as `Exec.ArgsOk` says. For all others it panics,
unless it fails before it comes to the arguments. -/
theorem exec_survives (h : Reachable MemInit (Guarded (fun s l => SbrkFits s l.1) (MemStep A tr)) s)
    (hp : (s.procs p).live = true) (hfile : file.Bounded) (argv : List (List UInt8)) :
    (Exec.ArgsOk (Exec.top file) argv →
      ∃ res s', (Proc.exec A tr p file argv).run s = .ok (res, s')) ∧
    (¬Exec.ArgsOk (Exec.top file) argv → (∃ e, (Proc.exec A tr p file argv).run s = .error e) ∨
      ∀ argv, ∃ e s', (Proc.exec A tr p file argv).run s = .ok (.error e, s')) := by
  obtain ⟨own, pte, mem, hI⟩ := SysOk.of_reachable h
  rw [Exec.argsOk_iff, not_not]
  rcases hI.exec_outcome (A := A) hp hfile with hfails | hargs
  · refine ⟨fun _ => ?_, fun _ => .inr hfails⟩
    obtain ⟨e, s', hrun⟩ := hfails argv
    exact ⟨_, s', hrun⟩
  · constructor
    · intro hne
      obtain ⟨res, s', hrun, -⟩ :=
        wp_total (wp_mono (hargs argv) (fun _ _ hres => hres) fun _ he => hne he)
      exact ⟨res, s', hrun⟩
    · intro hpanic
      left
      cases hrun : (Proc.exec A tr p file argv).run s with
      | error e => exact ⟨e, rfl⟩
      | ok r => rcases wp_ok (hargs argv) hrun with ⟨hfit, -⟩ | ⟨hfit, -⟩ <;> rw [hpanic] at hfit <;> cases hfit

/-! ## Arguments from user memory -/

/-- The loop of `fetch_string` with `m` bytes to go; the errors are all `BadAddress`. -/
def fetchString (A : Allocator) (p : Fin NPROC) (addr : ℕ) :
    ℕ → ℕ → List UInt8 → MemM (Option (List UInt8))
  | 0, _, result => return some result
  | m + 1, i, result => do
    let va ← liftVm (usizeAdd addr i)
    let copy ← kernelCopyFrom A p va 1
    match copy.result with
    | .error _ => return none
    | .ok _ =>
      let b := copy.bytes.getD 0 0
      if b = 0 then return some result
      else fetchString A p addr m (i + 1) (result ++ utf8 b)

/-- The loop of `sys_exec` over the pointers to the arguments, with `m` pointers to go. -/
def fetchArgv (A : Allocator) (p : Fin NPROC) (uargv : ℕ) : ℕ → ℕ → List (List UInt8) →
    MemM (Option (List (List UInt8)))
  | 0, _, argv => return some argv
  | m + 1, i, argv => do
    let va ← liftVm (usizeAdd uargv (i * 8))
    let copy ← kernelCopyFrom A p va 8
    match copy.result with
    | .error _ => return none
    | .ok _ =>
      let uarg := leNat (fun x => copy.bytes.getD x 0) 0 8
      if uarg = 0 then return some argv
      else
        match ← fetchString A p uarg PGSIZE 0 [] with
        | none => return none
        | some arg => fetchArgv A p uargv m (i + 1) (argv ++ [arg])

/-- The arguments and the memory side of `sys_exec`. -/
def sysExecMem (A : Allocator) (tr : ℕ) (p : Fin NPROC) (file : ExecFile) (uargv : ℕ) :
    MemM (Option (Except ExecError ExecImage)) := do
  match ← fetchArgv A p uargv MAXARG 0 [] with
  | none => return none
  | some argv =>
    let r ← Proc.exec A tr p file argv
    return some r

def ExecFile.ofBytes (data : List UInt8) : ExecFile := fun o n =>
  if o + n ≤ data.length then some fun x => data.getD (o + x) 0 else none

theorem ExecFile.bounded_ofBytes {data : List UInt8} (h : data.length ≤ MAXFILE * BSIZE) :
    (ExecFile.ofBytes data).Bounded := by
  intro o n b _ hread
  unfold ExecFile.ofBytes at hread
  split_ifs at hread with hle
  exact hle.trans h

def noSegments : List UInt8 := [0x7F, 0x45, 0x4C, 0x46] ++ List.replicate 60 0

/-- An array of `MAXARG` pointers to the address 256, where an empty string is. -/
def emptyArgs : List UInt8 := (List.replicate MAXARG [0, 1, 0, 0, 0, 0, 0, 0]).flatten

/-- `MAXARG` empty strings, which `sys_exec` collects from user memory, stop the kernel. -/
theorem exec_panics : ∃ s : MemSys,
    Reachable MemInit (Guarded (fun s l => SbrkFits s l.1) (MemStep bump KERNBASE)) s ∧
    (s.procs firstProc).live = true ∧
    (sysExecMem bump KERNBASE firstProc (.ofBytes noSegments) 0).run s = .error .index := by
  obtain ⟨s, hrun, hs⟩ := Option.map_eq_some_iff.1
    (show (MemSys.start.runAll bump KERNBASE (fun s a => decide (SbrkFits s a))
      [.spawn firstProc, .sbrk firstProc 4096, .copyTo firstProc emptyArgs 0]).map (fun s =>
        ((s.procs firstProc).live,
          match (sysExecMem bump KERNBASE firstProc (.ofBytes noSegments) 0).run s with
          | .error e => some e
          | .ok _ => none)) = some (true, some .index) by decide +kernel)
  obtain ⟨hlive, hpanic⟩ := Prod.mk.inj hs
  refine ⟨s, (MemSys.runAll_reachable hrun (.init MemSys.start_init)).mono fun _ _ _ h =>
    ⟨of_decide_eq_true h.1, h.2⟩, hlive, ?_⟩
  split at hpanic
  · next e hrun => rw [hrun, Option.some.inj hpanic]
  · cases hpanic

theorem twoArgs_run :
    ∃ s : MemSys,
    Reachable MemInit (Guarded (fun s l => SbrkFits s l.1) (MemStep bump KERNBASE)) s ∧
    (s.procs firstProc).live = true ∧ ∃ img s',
    (Proc.exec bump KERNBASE firstProc (.ofBytes noSegments) [[104, 105], []]).run s =
      .ok (.ok img, s') := by
  obtain ⟨s, hrun, hs⟩ := Option.map_eq_some_iff.1
    (show (MemSys.start.runAll bump KERNBASE (fun s a => decide (SbrkFits s a)) [.spawn firstProc]).map (fun s =>
        ((s.procs firstProc).live,
          returnsOk ((Proc.exec bump KERNBASE firstProc (.ofBytes noSegments) [[104, 105], []]).run s) fun _ _ => true)) =
        some (true, true) by decide +kernel)
  obtain ⟨hlive, hexec⟩ := Prod.mk.inj hs
  refine ⟨s, (MemSys.runAll_reachable hrun (.init MemSys.start_init)).mono fun _ _ _ h =>
    ⟨of_decide_eq_true h.1, h.2⟩, hlive, ?_⟩
  obtain ⟨img, s', hrun, -⟩ := exists_of_returnsOk hexec
  exact ⟨img, s', hrun⟩

theorem exec_argLayout_two : ∃ (s s' : MemSys) (img : ExecImage),
    (Proc.exec bump KERNBASE firstProc (.ofBytes noSegments) [[104, 105], []]).run s =
      .ok (.ok img, s') ∧
    img.argc = 2 ∧ ∃ b l, l.map Prod.snd = [[104, 105], []] ∧ ArgLayout b img.size img.sp l := by
  obtain ⟨s, hreach, hlive, img, s', hrun⟩ := twoArgs_run
  obtain ⟨hargc, -, -, b, l, -, hargs, hlayout⟩ := exec_argLayout hreach hlive hrun
  exact ⟨s, s', img, hrun, hargc, b, l, hargs, hlayout⟩

theorem exec_survives_two : ∃ (s : MemSys) (res : Except ExecError ExecImage) (s' : MemSys),
    (s.procs firstProc).live = true ∧
    (Proc.exec bump KERNBASE firstProc (.ofBytes noSegments) [[104, 105], []]).run s =
      .ok (res, s') := by
  obtain ⟨s, hreach, hlive, -⟩ := twoArgs_run
  have hfile : (ExecFile.ofBytes noSegments).Bounded := ExecFile.bounded_ofBytes (by decide)
  have hargs : Exec.ArgsOk (Exec.top (.ofBytes noSegments)) [[104, 105], []] := by
    refine ⟨fun hlen => absurd hlen (by decide), fun args arg rest heq _ hroom => ?_⟩
    have hshort : ∀ arg ∈ [[104, 105], ([] : List UInt8)], arg.length ≤ 2 := by decide
    have harg := hshort arg (heq ▸ List.mem_append_right _ List.mem_cons_self)
    have htop : 20480 ≤ Exec.top (.ofBytes noSegments) := Exec.le_top _
    have hst : USERSTACK * PGSIZE = 16384 := rfl
    omega
  obtain ⟨res, s', hrun⟩ := (exec_survives hreach hlive hfile _).1 hargs
  exact ⟨s, res, s', hlive, hrun⟩

end Octopos
