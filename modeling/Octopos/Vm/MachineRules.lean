import Octopos.Vm.Machine

/-!
# Rules for the actions on processes

One rule for each action, in terms of the description of the memory of all processes (`SysCore`).
The rules say how the bytes of the address spaces change, and which pages of the kernel there
are.
-/

namespace Octopos

variable {A : Allocator} {tr : ℕ} {vm : Vm} {procs : Fin NPROC → ProcData}
  {own : ℕ → Option (Owner Space)} {pte : Space → ℕ → Pte} {mem : Space → Bytes} {p q : Fin NPROC}
  {E : VmPanic → Prop} {vm' : Vm} {pte' : Space → ℕ → Pte} {sz r : ℕ}

/-- The pages in use from the start and the tables of the other address spaces are the same. -/
def SameForeign (x : Space) (own own' : ℕ → Option (Owner Space)) : Prop :=
  ∀ a o, o.Outside x → o ≠ .kernel → (own' a = some o ↔ own a = some o)

section SameForeign

variable {x : Space} {own' own'' : ℕ → Option (Owner Space)}

theorem SameForeign.refl (own : ℕ → Option (Owner Space)) : SameForeign x own own :=
  fun _ _ _ _ => Iff.rfl

theorem SameForeign.trans (h : SameForeign x own own') (h' : SameForeign x own' own'') :
    SameForeign x own own'' := fun a o ho hk => (h' a o ho hk).trans (h a o ho hk)

theorem SameOutside.foreign (h : SameOutside x own own') : SameForeign x own own' :=
  fun a o ho _ => h a o ho

theorem SameForeign.static (h : SameForeign x own own') (a : ℕ) (n : UInt8) :
    own' a = some (.static n) ↔ own a = some (.static n) := h a _ trivial fun h => by cases h

theorem SameForeign.upd {a : ℕ} {o : Option (Owner Space)}
    (ha : own a = none ∨ own a = some .kernel) (ho : o = none ∨ o = some .kernel) :
    SameForeign x own (Octopos.upd own a o) := by
  intro b o' _ hk
  rcases eq_or_ne b a with rfl | hne
  · rw [upd_self]
    have hno : ∀ {y : Option (Owner Space)}, y = none ∨ y = some .kernel → y ≠ some o' := by
      rintro y (rfl | rfl) heq
      · cases heq
      · exact hk (Option.some.inj heq).symm
    exact ⟨fun h => absurd h (hno ho), fun h => absurd h (hno ha)⟩
  · rw [upd_of_ne hne]

end SameForeign

theorem wp_liftVm {α : Type} {m : VmM α} {Q : α → MemSys → Prop}
    (h : wp m (fun a vm' => Q a ⟨vm', procs⟩) E vm) : wp (liftVm m) Q E ⟨vm, procs⟩ := by
  unfold wp at h ⊢
  unfold liftVm StateT.run at *
  dsimp only
  rcases hm : m vm with e | ⟨a, vm'⟩ <;> rw [hm] at h
  · exact h
  · exact h

theorem wp_updProc {f : ProcData → ProcData} {Q : PUnit → MemSys → Prop}
    (h : Q ⟨⟩ ⟨vm, upd procs p (f (procs p))⟩) : wp (updProc p f) Q E ⟨vm, procs⟩ := h

theorem wp_getProc {Q : ProcData → MemSys → Prop} (h : Q (procs p) ⟨vm, procs⟩) :
    wp (getProc p) Q E ⟨vm, procs⟩ := h

/-- `Proc::free` behind the trapframe. -/
def Proc.freeSpace (A : Allocator) (p : Fin NPROC) (data : ProcData) : MemM PUnit :=
  match data.pagetable with
  | some pagetable => do
    updProc p fun d => { d with pagetable := none }
    let _ ← liftVm (Uvm.procFree A pagetable data.size)
    updProc p fun d => { d with size := 0, live := false }
  | none => updProc p fun d => { d with size := 0, live := false }

section

variable (h : SysCore tr vm procs own pte mem)
include h

theorem SysCore.free_wp {Q : PUnit → MemSys → Prop}
    (hQ : ∀ vm' own' mem',
      SysCore tr vm' (upd procs p .new) own' (upd pte (p, false) fun _ => 0) mem' →
      (∀ j, j ≠ (p, false) → mem' j = mem j) → SameForeign (p, false) own own' →
      Q ⟨⟩ ⟨vm', upd procs p .new⟩) : wp (Proc.free A p) Q E ⟨vm, procs⟩ := by
  -- the address space, once the trapframe is gone
  have hlast : ∀ {vm' own' mem'}, MemOk vm' (upd (rootsOf procs) (p, false) none) own'
      (upd pte (p, false) fun _ => 0) mem' → (∀ j, j ≠ (p, false) → mem' j = mem j) →
      (∀ a, own' a = some .kernel ↔ own a = some .kernel ∧ (procs p).trapframe ≠ some a) →
      SameForeign (p, false) own own' → Q ⟨⟩ ⟨vm', upd procs p .new⟩ := by
    intro vm' own' mem' h' hmem hk hs
    refine hQ vm' own' mem' (h.update h' (fun a => ?_) (fun a hd => by cases hd) (fun q hne tf sz hsp => ?_)
      fun r hr => by cases hr) hmem hs
    · rw [hk]
      exact ⟨.inr, fun h => h.resolve_left fun hd => by cases hd⟩
    · exact hsp.congr (upd_of_ne fun heq => hne (Prod.mk.inj heq).1)
  have hsecond : ∀ {vm1 own1 procs1}, MemOk vm1 (rootsOf procs) own1 pte mem →
      (∀ a, own1 a = some .kernel ↔ own a = some .kernel ∧ (procs p).trapframe ≠ some a) →
      SameForeign (p, false) own own1 →
      procs1 = upd procs p { procs p with trapframe := none } →
      wp (Proc.freeSpace A p (procs p)) Q E ⟨vm1, procs1⟩ := by
    rintro vm1 own1 procs1 h1 hk1 hs1 rfl
    unfold Proc.freeSpace
    cases hpt : (procs p).pagetable with
    | none =>
      have hroot : rootsOf procs (p, false) = none := hpt
      have hroots : upd (rootsOf procs) (p, false) none = rootsOf procs := by
        rw [← hpt, ← rootsOf_proc, upd_eq_self]
      have hpte : upd pte (p, false) (fun _ => 0) = pte := by
        have hblank : pte (p, false) = fun _ => 0 := funext fun va => h1.trees.blank hroot va
        rw [← hblank, upd_eq_self]
      refine wp_updProc ?_
      rw [upd_self, upd_idem, hpt]
      exact hlast (by rw [hroots, hpte]; exact h1) (fun _ _ => rfl) hk1 hs1
    | some r =>
      obtain ⟨tf, -, hsp⟩ := h.space hpt
      have hroot : rootsOf procs (p, false) = some r := hpt
      refine wp_bind.2 (wp_updProc (wp_bind.2 (wp_liftVm (h1.procFree_wp hroot hsp
        (le_TRAPFRAME_fits hsp.size) hsp.below fun vm' own' mem' h' hd => wp_updProc ?_))))
      rw [upd_self, upd_idem, upd_self, upd_idem]
      refine hlast h' hd.others (fun a => ?_) (hs1.trans hd.kernel.foreign)
      rw [hd.kernel.kernel a, hk1]
  unfold Proc.free
  refine wp_bind.2 (wp_getProc ?_)
  dsimp only
  cases htf : (procs p).trapframe with
  | none =>
    refine hsecond h.memory (fun a => ?_) (.refl own) ?_
    · rw [htf]
      exact ⟨fun ha => ⟨ha, fun hno => by cases hno⟩, And.left⟩
    · rw [← htf, upd_eq_self]
  | some tf =>
    have hkern := (h.frames tf).2 ⟨p, htf⟩
    refine wp_bind.2 (wp_updProc (wp_bind.2 (wp_liftVm (h.memory.free_wp hkern fun vm1 h1 => ?_))))
    refine hsecond h1 (fun a => ?_) (.upd (.inr hkern) (.inl rfl)) rfl
    rw [htf, upd_apply]
    split_ifs with ha
    · rw [ha]
      exact ⟨fun h => (by cases h), fun h => absurd rfl h.2⟩
    · exact ⟨fun hk => ⟨hk, fun heq => ha (Option.some.inj heq).symm⟩, And.left⟩

theorem SysCore.blank (hp : procs p = .new) :
    upd pte (p, false) (fun _ => 0) = pte ∧
    upd (rootsOf procs) (p, false) none = rootsOf procs := by
  have hroot : rootsOf procs (p, false) = none := by
    rw [rootsOf_proc, hp]
    rfl
  have hblank : pte (p, false) = fun _ => 0 := funext fun va => h.memory.trees.blank hroot va
  exact ⟨by rw [← hblank, upd_eq_self], by rw [← hroot, upd_eq_self]⟩

theorem SysCore.enter {d : ProcData} {own' : ℕ → Option (Owner Space)} (hp : procs p = .new)
    (hd : d.pagetable = none) (hm : MemOk vm' (rootsOf procs) own' pte mem)
    (hk : ∀ a, own' a = some .kernel ↔ d.trapframe = some a ∨ own a = some .kernel)
    (hnew : ∀ a, d.trapframe = some a → own a ≠ some .kernel) :
    SysCore tr vm' (upd procs p d) own' pte mem := by
  refine h.update (by rw [hd, (h.blank hp).2]; exact hm) (fun a => ?_)
    (fun a hda ha => absurd ha (hnew a hda)) (fun _ _ _ _ hsp => hsp) fun r hr => ?_
  · rw [hk, hp]
    exact or_congr Iff.rfl ⟨fun ha => ⟨ha, fun hno => by cases hno⟩, And.left⟩
  · rw [hd] at hr
    cases hr

theorem SysCore.alloc_wp {Q : Except KernelError PUnit → MemSys → Prop} (hp : procs p = .new)
    (herr : ∀ e vm' own' mem', SysCore tr vm' procs own' pte mem' →
      (∀ j, j ≠ (p, false) → mem' j = mem j) → SameForeign (p, false) own own' →
      Q (.error e) ⟨vm', procs⟩)
    (hok : ∀ tf r vm' own' pte',
      SysCore tr vm' (upd procs p ⟨true, some tf, some r, 0⟩) own' pte' mem →
      Others (p, false) pte pte' → SameForeign (p, false) own own' →
      Q (.ok ⟨⟩) ⟨vm', upd procs p ⟨true, some tf, some r, 0⟩⟩) :
    wp (Proc.alloc A tr p) Q E ⟨vm, procs⟩ := by
  -- the errors after which the slot is freed again
  have hfree : ∀ {vm1 own1 d} {e : KernelError}, SysCore tr vm1 (upd procs p d) own1 pte mem →
      SameForeign (p, false) own own1 →
      wp (Proc.free A p) (fun _ s' => wp (pure (.error e) : MemM (Except KernelError PUnit)) Q E s') E
        ⟨vm1, upd procs p d⟩ := by
    intro vm1 own1 d e h1 hs1
    refine h1.free_wp fun vm' own' mem' h' hmem hs => wp_pure.2 ?_
    rw [upd_idem, ← hp, upd_eq_self] at h' ⊢
    rw [(h.blank hp).1] at h'
    exact herr e vm' own' mem' h' hmem (hs1.trans hs)
  unfold Proc.alloc
  refine wp_bind.2 (wp_updProc (wp_bind.2 (wp_liftVm ?_)))
  rw [hp]
  refine h.memory.alloc_wp (fun vm1 h1 => wp_bind.2 (hfree ?_ (.refl own)))
    fun tf vm1 hnone hpage h1 _ => wp_bind.2 (wp_updProc ?_)
  · exact h.enter hp rfl h1 (fun a => ⟨.inr, fun ha => ha.resolve_left fun hd => by cases hd⟩) fun a hd => by cases hd
  rw [upd_self, upd_idem]
  have hcore : SysCore tr vm1 (upd procs p ⟨true, some tf, none, 0⟩) (upd own tf (some .kernel)) pte mem := by
    refine h.enter hp rfl h1 (fun a => ?_) fun a hd ha => ?_
    · rw [upd_apply]
      split_ifs with ha
      · exact ⟨fun _ => .inl (congrArg some ha.symm), fun _ => rfl⟩
      · exact ⟨.inr, fun h => h.resolve_left fun hd => ha (Option.some.inj hd).symm⟩
    · cases hd
      rw [hnone] at ha
      cases ha
  have hstat : SameForeign (p, false) own (upd own tf (some .kernel)) := .upd (.inl hnone) (.inr rfl)
  have hroot : rootsOf (upd procs p ⟨true, some tf, none, 0⟩) (p, false) = none := by
    rw [rootsOf_proc, upd_self]
  refine wp_bind.2 (wp_liftVm (hcore.memory.createPagetable_wp hroot
    (fun e vm2 own2 h2 hk2 => wp_bind.2 (hfree ?_ (hstat.trans hk2.foreign)))
    fun r vm2 own2 pte2 h2 hk2 ho2 hs2 => wp_bind.2 (wp_updProc (wp_pure.2 ?_))))
  · refine ⟨h2, fun a => ?_, hcore.distinct, hcore.space⟩
    rw [hk2.kernel a]
    exact hcore.frames a
  · rw [upd_self, upd_idem]
    refine hok tf r vm2 own2 pte2 ?_ ho2 (hstat.trans hk2.foreign)
    have hupd := hcore.update (p := p) (d := ⟨true, some tf, some r, 0⟩) h2 (fun a => ?_)
      (fun a hd _ => ?_) (fun q hne tf' sz hsp => ?_) fun r' _ => ⟨tf, rfl, hs2⟩
    · rwa [upd_idem] at hupd
    · rw [hk2.kernel a, upd_self]
      dsimp only
      rw [upd_apply]
      split_ifs with ha
      · rw [ha]
        exact ⟨fun _ => .inl rfl, fun _ => rfl⟩
      · exact ⟨fun hk => .inr ⟨hk, fun heq => ha (Option.some.inj heq).symm⟩,
          fun hk => (hk.resolve_left fun hd => ha (Option.some.inj hd).symm).1⟩
    · rw [upd_self]
      exact hd
    · exact hsp.congr (ho2 _ fun heq => hne (Prod.mk.inj heq).1)

end

/-! ## `fork` -/

theorem Copied.spaces {m : ℕ} {x : Fin NPROC} {tf : ℕ}
    (h : Copied pte pte' (p, false) (q, false) m) (hx : x ≠ q)
    (hs : SpaceOk pte (x, false) tr tf sz) : SpaceOk pte' (x, false) tr tf sz := by
  rcases eq_or_ne x p with rfl | hxp
  · exact h.space_parent hs
  · refine hs.congr (funext fun va => h.rest _ va (.inl ⟨?_, ?_⟩))
    · exact fun heq => hxp (Prod.mk.inj heq).1
    · exact fun heq => hx (Prod.mk.inj heq).1

section

variable (h : SysCore tr vm procs own pte mem)
include h

theorem SysCore.copied {own' : ℕ → Option (Owner Space)} {mem' : Space → Bytes} {m : ℕ}
    (h' : MemOk vm' (rootsOf procs) own' pte' mem') (hk : SameOutside (q, false) own own')
    (hc : Copied pte pte' (p, false) (q, false) m) (hs : sz ≤ TRAPFRAME)
    (hb : ∀ k, (pte' (q, false) (uva k)).isV = true → uva k < sz) :
    SysCore tr vm' (upd procs q { procs q with size := sz }) own' pte' mem' := by
  refine h.update ?_ (fun a => ?_) (fun a hd _ => hd) (fun x hx tf' sz hs => hc.spaces hx hs) fun r hr => ?_
  · dsimp only
    rw [← rootsOf_proc, upd_eq_self]
    exact h'
  · rw [hk.kernel a]
    refine ⟨fun ha => ?_, fun ha => ha.elim (fun hd => (h.frames a).2 ⟨q, hd⟩) And.left⟩
    exact or_iff_not_imp_left.2 fun hne => ⟨ha, hne⟩
  · obtain ⟨tf, htf, hsp⟩ := h.space hr
    exact ⟨tf, htf, hc.space_child hsp hs hb⟩

theorem SysCore.copy_wp {Q : Except VmError PUnit → Vm → Prop} {rp rq : ℕ}
    (hp : (procs p).pagetable = some rp) (hq : (procs q).pagetable = some rq)
    (hsize : (procs p).size = sz) (hnew : (procs q).size = 0) (hpq : p ≠ q)
    (herr : ∀ e vm' own' pte', SysCore tr vm' procs own' pte' mem →
      Copied pte pte' (p, false) (q, false) 0 → SameForeign (q, false) own own' →
      Q (.error e) vm')
    (hok : ∀ vm' own' pte' mem', SysCore tr vm' (upd procs q { procs q with size := sz }) own' pte'
        mem' → (∀ j, j ≠ (q, false) → mem' j = mem j) →
      (∀ v < TRAPFRAME, mem' (q, false) v = mem (p, false) v) → SameForeign (q, false) own own' →
      Q (.ok ⟨⟩) vm') : wp (Uvm.copy A rp rq sz) Q E vm := by
  have hrp : rootsOf procs (p, false) = some rp := hp
  have hrq : rootsOf procs (q, false) = some rq := hq
  obtain ⟨tfp, -, hsp⟩ := h.space hp
  obtain ⟨tfq, -, hsq⟩ := h.space hq
  rw [hnew] at hsq
  rw [hsize] at hsp
  have hij : (p, false) ≠ (q, false) := fun heq => hpq (Prod.mk.inj heq).1
  refine h.memory.copy_wp card_space_lt hrp hrq hij hsp hsq (fun e vm2 own2 pte2 h2 hk2 hc => ?_)
    fun vm2 own2 pte2 h2 hk2 hc => ?_
  · have hcore := h.copied h2 hk2 hc (Nat.zero_le _) fun k hv => absurd (hc.isV_child hv).1 (Nat.not_lt_zero _)
    rw [← hnew, upd_eq_self] at hcore
    exact herr e vm2 own2 pte2 hcore hc hk2.foreign
  · refine hok vm2 own2 pte2 _ (h.copied h2 hk2 hc hsp.size fun k hv => hsp.below k (hc.isV_child hv).2)
      (fun j hj => setBytes_of_ne hj _ _ _) (fun v hv => ?_) hk2.foreign
    rw [setBytes_self]
    rcases lt_or_ge v (roundUp sz) with hlt | hge
    · exact blit_start hlt
    · have hround : roundUp 0 = 0 := by decide
      rw [blit_outside (.inr (by rw [zero_add]; exact hge)), h.memory.zero_above hsp hge hv]
      exact h.memory.zero_above hsq (hround ▸ Nat.zero_le v) hv

theorem SysCore.undone {pte1 pte2 : Space → ℕ → Pte} (hq : procs q = .new) (hpq : p ≠ q)
    (ho : Others (q, false) pte pte1) (hc : Copied pte1 pte2 (p, false) (q, false) 0) :
    Copied pte (upd pte2 (q, false) fun _ => 0) (p, false) (q, false) 0 := by
  have hij : (p, false) ≠ (q, false) := fun heq => hpq (Prod.mk.inj heq).1
  have hroot : rootsOf procs (q, false) = none := by
    rw [rootsOf_proc, hq]
    rfl
  refine ⟨fun k => ?_, fun k hk => absurd hk (Nat.not_lt_zero _), fun k _ => ?_, fun l va hout => ?_⟩
  · rw [upd_of_ne hij, ← ho _ hij]
    exact hc.parent k
  · rw [upd_self]
    exact Pte.isV_zero
  · rcases eq_or_ne l (q, false) with rfl | hl
    · rw [upd_self]
      exact (h.memory.trees.blank hroot va).symm
    · rw [upd_of_ne hl, ← ho l hl]
      exact hc.rest l va hout

theorem SysCore.fork_wp {Q : Except KernelError PUnit → MemSys → Prop} {rp : ℕ}
    (hp : (procs p).pagetable = some rp) (hq : procs q = .new)
    (herr : ∀ e vm' own' pte' mem', SysCore tr vm' procs own' pte' mem' →
      (∀ j, j ≠ (q, false) → mem' j = mem j) → Copied pte pte' (p, false) (q, false) 0 →
      SameForeign (q, false) own own' → Q (.error e) ⟨vm', procs⟩)
    (hok : ∀ tf r vm' own' pte' mem',
      SysCore tr vm' (upd procs q ⟨true, some tf, some r, (procs p).size⟩) own' pte' mem' →
      (∀ j, j ≠ (q, false) → mem' j = mem j) →
      (∀ v < TRAPFRAME, mem' (q, false) v = mem (p, false) v) → SameForeign (q, false) own own' →
      Q (.ok ⟨⟩) ⟨vm', upd procs q ⟨true, some tf, some r, (procs p).size⟩⟩) :
    wp (Proc.fork A tr p q) Q E ⟨vm, procs⟩ := by
  have hpq : p ≠ q := by
    rintro rfl
    rw [hq] at hp
    cases hp
  unfold Proc.fork
  have hself : Copied pte pte (p, false) (q, false) 0 := by
    refine ⟨fun _ => .inl rfl, fun k hk => absurd hk (Nat.not_lt_zero _), fun k _ => ?_, fun _ _ _ => rfl⟩
    rw [h.memory.trees.blank (by rw [rootsOf_proc, hq]; rfl)]
    exact Pte.isV_zero
  refine wp_bind.2 (h.alloc_wp hq (fun e vm' own' mem' h' hmem hs => wp_pure.2
    (herr e vm' own' pte mem' h' hmem hself hs)) fun tf r vm1 own1 pte1 h1 ho1 hs1 => ?_)
  refine wp_bind.2 (wp_getProc (wp_bind.2 (wp_getProc ?_)))
  have hp1 : upd procs q ⟨true, some tf, some r, 0⟩ p = procs p := upd_of_ne hpq
  have hq1 : upd procs q ⟨true, some tf, some r, 0⟩ q = ⟨true, some tf, some r, 0⟩ := upd_self _ _ _
  rw [hp1, hq1, hp]
  refine wp_bind.2 (wp_liftVm (h1.copy_wp (by rw [hp1, hp]) (by rw [hq1]) (by rw [hp1]) (by rw [hq1]) hpq
    (fun e vm2 own2 pte2 h2 hc2 hs2 => wp_bind.2 ?_)
    fun vm2 own2 pte2 mem2 h2 hmem2 hbytes2 hs2 => wp_bind.2 (wp_updProc (wp_pure.2 ?_))))
  · refine h2.free_wp fun vm3 own3 mem3 h3 hmem3 hs3 => wp_pure.2 ?_
    rw [upd_idem, ← hq, upd_eq_self] at h3 ⊢
    exact herr _ vm3 own3 _ mem3 h3 hmem3 (h.undone hq hpq ho1 hc2) ((hs1.trans hs2).trans hs3)
  · rw [upd_idem, hq1] at h2 ⊢
    exact hok tf r vm2 own2 pte2 mem2 h2 hmem2 hbytes2 (hs1.trans hs2)

end

/-! ## `sbrk` -/

theorem SysCore.resize {own' : ℕ → Option (Owner Space)} {mem' : Space → Bytes}
    (h : SysCore tr vm procs own pte mem) (h' : MemOk vm' (rootsOf procs) own' pte' mem')
    (hk : SameOutside (p, false) own own') (ho : Others (p, false) pte pte')
    (hhigh : ∀ va, TRAPFRAME ≤ va → pte' (p, false) va = pte (p, false) va) (hs : sz ≤ TRAPFRAME)
    (hb : ∀ k, (pte' (p, false) (uva k)).isV = true → uva k < sz) :
    SysCore tr vm' (upd procs p { procs p with size := sz }) own' pte' mem' := by
  refine h.update ?_ (fun a => ?_) (fun a hd _ => hd)
    (fun x hx tf' sz hs => hs.congr (ho _ fun heq => hx (Prod.mk.inj heq).1)) fun r hr => ?_
  · dsimp only
    rw [← rootsOf_proc, upd_eq_self]
    exact h'
  · rw [hk.kernel a]
    refine ⟨fun ha => ?_, fun ha => ha.elim (fun hd => (h.frames a).2 ⟨p, hd⟩) And.left⟩
    exact or_iff_not_imp_left.2 fun hne => ⟨ha, hne⟩
  · obtain ⟨tf, htf, hsp⟩ := h.space hr
    refine ⟨tf, htf, hs, hb, ?_, ?_⟩
    · rw [hhigh _ (by decide)]
      exact hsp.trampoline
    · rw [hhigh _ le_rfl]
      exact hsp.trapframe

theorem SysCore.grow (h : SysCore tr vm procs own pte mem) (hp : (procs p).pagetable = some r)
    (hle : (procs p).size ≤ sz) (hs : sz ≤ TRAPFRAME) :
    SysCore tr vm (upd procs p { procs p with size := sz }) own pte mem := by
  obtain ⟨tf, -, hsp⟩ := h.space hp
  exact h.resize h.memory (.refl own) (fun _ _ => rfl) (fun _ _ => rfl) hs fun k hv => (hsp.below k hv).trans_le hle

/-- The bytes of the pages that a shrinking process gives up. -/
def shrunk (old new : ℕ) (b : Bytes) : Bytes :=
  blit b (roundUp new) (roundUp old - roundUp new) fun _ => 0

theorem SysCore.sbrk_wp {Q : Option ℕ → MemSys → Prop} {n : ℤ}
    (h : SysCore tr vm procs own pte mem) (hp : (procs p).pagetable = some r)
    (hsize : (procs p).size = sz) (hmin : n = -Proc.ISIZE → E .overflow)
    (hover : (USIZE : ℤ) ≤ sz + n → E .overflow)
    (hgrow : 0 ≤ n → Q (some sz) ⟨vm, upd procs p { procs p with size := sz + n.toNat }⟩)
    (hbad : n < 0 → n ≠ -Proc.ISIZE → (sz : ℤ) + n < 0 → Q none ⟨vm, procs⟩)
    (hshrink : ∀ (new : ℕ) vm' own' pte', n < 0 → n ≠ -Proc.ISIZE → (new : ℤ) = sz + n →
      SysCore tr vm' (upd procs p { procs p with size := new }) own' pte'
        (upd mem (p, false) (shrunk sz new (mem (p, false)))) →
      (∀ a n, own' a = some (.static n) ↔ own a = some (.static n)) →
      Q (some sz) ⟨vm', upd procs p { procs p with size := new }⟩) :
    wp (Proc.sbrk A p n) Q E ⟨vm, procs⟩ := by
  obtain ⟨tf, -, hsp⟩ := h.space hp
  rw [hsize] at hsp
  unfold Proc.sbrk Proc.grow
  refine wp_bind.2 (wp_getProc (wp_bind.2 (wp_bind.2 (wp_getProc ?_))))
  rw [hp, hsize]
  dsimp only
  refine wp_ite (fun hpos => ?_) fun hnpos => wp_ite (fun hneg => ?_) fun hnneg => ?_
  · rw [if_pos (decide_eq_true hpos.le)]
    refine wp_bind.2 (wp_liftVm ?_)
    unfold usizeAdd
    refine wp_ite (fun hbig => hover (by omega)) fun _ => wp_pure.2 (wp_bind.2 (wp_updProc (wp_pure.2 ?_)))
    exact hgrow hpos.le
  · refine wp_ite (fun hm => hmin hm) fun hm => wp_ite (fun hlt => wp_pure.2 ?_) fun hge => ?_
    · exact hbad hneg hm (by omega)
    · rw [not_lt] at hge
      have hroot : rootsOf procs (p, false) = some r := hp
      refine wp_bind.2 (wp_liftVm (h.memory.dealloc_wp hroot hsp.size (fun hle => ?_)
        fun vm' own' pte' hlt h' hk' hc => wp_bind.2 (wp_updProc (wp_pure.2 ?_))))
      · omega
      · refine hshrink (sz - (-n).toNat) vm' own' pte' hneg hm (by omega) ?_ hk'.static
        refine h.resize h' hk' (fun j hj => funext fun va => hc.kept j va (.inl hj)) (fun va hva => ?_)
          (hlt.le.trans hsp.size) fun k hv => ?_
        · exact hc.kept _ va (.inr (.inr (.inl ((roundUp_le_TRAPFRAME hsp.size).trans hva))))
        · have ha := (uva_userVa k).aligned
          rw [← lt_roundUp ha]
          by_contra hge'
          rw [not_lt] at hge'
          rcases lt_or_ge (uva k) (roundUp sz) with hk | hk
          · rw [hc.gone _ ha hge' hk] at hv
            cases hv
          · rw [hc.kept _ _ (.inr (.inr (.inl hk)))] at hv
            exact absurd ((lt_roundUp ha).2 (hsp.below k hv)) (not_lt.2 hk)
  · have hn : n = 0 := by omega
    have hz := hgrow hn.ge
    have hself : { procs p with size := sz } = procs p := by rw [← hsize]
    rw [hn, Int.toNat_zero, add_zero, hself, upd_eq_self] at hz
    exact hz

/-! ## Accesses and copies -/

theorem onSpace_wp {α : Type} {f : ℕ → ℕ → VmM α} {Q : α → MemSys → Prop}
    (hp : (procs p).pagetable = some r)
    (h : wp (f r (procs p).size) (fun a vm' => Q a ⟨vm', procs⟩) E vm) :
    wp (onSpace p f) Q E ⟨vm, procs⟩ := by
  unfold onSpace
  refine wp_bind.2 (wp_getProc ?_)
  rw [hp]
  exact wp_liftVm h

theorem SysCore.faulted {own' : ℕ → Option (Owner Space)} {mem' : Space → Bytes}
    (h : SysCore tr vm procs own pte mem) (h' : MemOk vm' (rootsOf procs) own' pte' mem')
    (hk : SameOutside (p, false) own own') (hf : Faulted (p, false) (procs p).size pte pte') :
    SysCore tr vm' procs own' pte' mem' := by
  refine ⟨h', fun a => (hk.kernel a).trans (h.frames a), h.distinct, fun {q r} hq => ?_⟩
  obtain ⟨tf, htf, hsp⟩ := h.space hq
  refine ⟨tf, htf, hsp.faulted hf fun heq => ?_⟩
  rw [(Prod.mk.inj heq).1]

/-! ## `exec` -/

/-- The new image takes the place of the old one. -/
def swapImage (p : Fin NPROC) : Equiv.Perm Space := Equiv.swap (p, true) (p, false)

theorem swapImage_new (p : Fin NPROC) : swapImage p (p, false) = (p, true) :=
  Equiv.swap_apply_right _ _

theorem swapImage_old (p : Fin NPROC) : swapImage p (p, true) = (p, false) :=
  Equiv.swap_apply_left _ _

theorem swapImage_other {x : Space} (h : x.1 ≠ p) : swapImage p x = x :=
  Equiv.swap_apply_of_ne_of_ne (fun heq => h (congrArg Prod.fst heq)) fun heq => h (congrArg Prod.fst heq)

section Exec

variable {file : ExecFile} {argv : List (List UInt8)} {Q : Except ExecError ExecImage → MemSys → Prop}
  (h : SysCore tr vm procs own pte mem) (hp : (procs p).pagetable = some r)
  (hok : ∀ img vm' own' pte' mem',
    SysCore tr vm' (upd procs p { procs p with pagetable := some img.root, size := img.size }) own' pte' mem' →
    (∀ q, q ≠ p → mem' (q, false) = mem (q, false)) → mem' (p, false) = Exec.imageBytes file argv →
    (∀ a n, own' a = some (.static n) ↔ own a = some (.static n)) → Exec.Made file argv img →
    ImagePages pte' (p, false) img.size (Exec.writable file) →
    Q (.ok img) ⟨vm', upd procs p { procs p with pagetable := some img.root, size := img.size }⟩)

include h hp hok

theorem SysCore.commit_wp {tf : ℕ} (htf : (procs p).trapframe = some tf)
    (himage : wp (Exec.image A tr file tf (procs p).size argv) (fun res vm' => match res with
      | .error e => Q (.error e) ⟨vm', procs⟩
      | .ok img => Exec.Made file argv img ∧ Stacked (rootsOf procs) own pte mem (p, true) img.root tr tf vm'
          img.size (Exec.imageBytes file argv) (Exec.writable file)) E vm) :
    wp (Proc.exec A tr p file argv) Q E ⟨vm, procs⟩ := by
  obtain ⟨tf', htf', hsp⟩ := h.space hp
  obtain rfl : tf' = tf := Option.some.inj (htf'.symm.trans htf)
  have hroot : rootsOf procs (p, false) = some r := hp
  unfold Proc.exec
  refine wp_bind.2 (wp_getProc ?_)
  rw [hp, htf]
  dsimp only
  refine wp_bind.2 (wp_liftVm (wp_mono himage ?_ fun _ he => he))
  rintro (e | img) vm1 hres
  · exact wp_pure.2 hres
  obtain ⟨hmade, own1, pte1, h1, hk1, ho1, hs1, hpages⟩ := hres
  have hne : (p, false) ≠ (p, true) := fun heq => by cases (Prod.mk.inj heq).2
  have hroot1 : upd (rootsOf procs) (p, true) (some img.root) (p, false) = some r :=
    (upd_of_ne hne).trans hroot
  have hsp1 := hsp.congr (ho1 _ hne)
  refine wp_bind.2 (wp_updProc (wp_bind.2 (wp_liftVm (h1.procFree_wp hroot1 hsp1
    (le_TRAPFRAME_fits hsp1.size) hsp1.below fun vm2 own2 mem2 h2 hd2 => wp_pure.2 ?_))))
  have h3 := h2.rename (swapImage p)
  have hnew : upd pte1 (p, false) (fun _ => 0) (swapImage p (p, false)) = pte1 (p, true) := by
    rw [swapImage_new, upd_of_ne hne.symm]
  have hother : ∀ q, q ≠ p → upd pte1 (p, false) (fun _ => 0) (swapImage p (q, false)) = pte (q, false) := by
    intro q hq
    rw [swapImage_other hq, upd_of_ne fun heq => hq (Prod.mk.inj heq).1, ho1 _ fun heq => hq (Prod.mk.inj heq).1]
  have hroots : (fun x => upd (upd (rootsOf procs) (p, true) (some img.root)) (p, false) none (swapImage p x)) =
      upd (rootsOf procs) (p, false) (some img.root) := by
    funext ⟨q, b⟩
    rcases eq_or_ne q p with rfl | hq
    · cases b with
      | true => rw [swapImage_old, upd_self, upd_of_ne hne.symm, rootsOf_exec]
      | false => rw [swapImage_new, upd_of_ne hne.symm, upd_self, upd_self]
    · rw [swapImage_other hq, upd_of_ne fun heq => hq (Prod.mk.inj heq).1,
        upd_of_ne fun heq => hq (Prod.mk.inj heq).1, upd_of_ne fun heq => hq (Prod.mk.inj heq).1]
  rw [hroots] at h3
  have hkern : ∀ a o, (∀ i n, o ≠ .table i n) → o.Outside (p, false) → o.Outside (p, true) →
      ((own2 a).map (Owner.rename (swapImage p).symm) = some o ↔ own a = some o) := by
    intro a o htable hold hnew
    rw [map_rename htable, hd2.kernel a o hold, hk1 a o hnew]
  refine hok img vm2 _ _ _ (h.update h3 (fun a => ?_) (fun a hd _ => hd)
    (fun q hq tf' sz hs => hs.congr (hother q hq)) fun r' _ => ⟨tf', htf, hs1.congr hnew⟩)
    (fun q hq => ?_) ?_ (fun a n => hkern a (.static n) (fun _ _ h => by cases h) trivial trivial) hmade
    (hpages.congr hnew)
  · rw [hkern a .kernel (fun _ _ h => by cases h) trivial trivial]
    refine ⟨fun ha => ?_, fun ha => ha.elim (fun hd => (h.frames a).2 ⟨p, hd⟩) And.left⟩
    exact or_iff_not_imp_left.2 fun hne => ⟨ha, hne⟩
  · rw [swapImage_other hq, hd2.others _ fun heq => hq (Prod.mk.inj heq).1,
      upd_of_ne fun heq => hq (Prod.mk.inj heq).1]
  · rw [swapImage_new, hd2.others _ hne.symm, upd_self]

theorem SysCore.exec_wp (hE : ¬file.Bounded → ∀ e, E e)
    (hpanic : Exec.argFit (Exec.top file - USERSTACK * PGSIZE) argv (Exec.top file) 0 = .panics →
      ∀ e, E e)
    (herr : ∀ e vm' own', SysCore tr vm' procs own' pte mem →
      (Exec.HeadersReadable file → SameOutside (p, true) own own') → Q (.error e) ⟨vm', procs⟩) :
    wp (Proc.exec A tr p file argv) Q E ⟨vm, procs⟩ := by
  obtain ⟨tf, htf, hsp⟩ := h.space hp
  have hcore : ∀ {vm' own'}, MemOk vm' (rootsOf procs) own' pte mem →
      (∀ a, own' a = some .kernel ↔ own a = some .kernel) → SysCore tr vm' procs own' pte mem :=
    fun h' hk => ⟨h', fun a => (hk a).trans (h.frames a), h.distinct, h.space⟩
  have hkept : ∀ {e vm'}, Kept (rootsOf procs) own pte mem (p, true) vm' → Q (.error e) ⟨vm', procs⟩ := by
    rintro e vm' ⟨own', h', hk'⟩
    exact herr e vm' own' (hcore h' fun a => hk'.kernel a) fun _ => hk'
  refine h.commit_wp hp hok htf ?_
  rw [Exec.image_eq]
  refine wp_bind.2 (h.memory.prepare_wp (rootsOf_exec procs p) hE (fun e r' vm' sz b w hno hb => wp_pure.2 ?_)
    (fun e vm' hkeep => wp_pure.2 (hkept hkeep)) fun r' vm1 hload hs1 => ?_)
  · obtain ⟨own', h', hk'⟩ := hb.forget h.memory (rootsOf_exec procs p)
    exact herr e vm' own' (hcore h' hk') fun hyes => absurd hyes hno
  · refine h.memory.pushImage_wp (rootsOf_exec procs p) hsp.size hload hs1 hpanic (fun _ e vm' hkeep => hkept hkeep)
      fun img vm2 hroot hmade hs2 => ⟨hmade, ?_⟩
    rw [hroot]
    exact hs2

end Exec

end Octopos
