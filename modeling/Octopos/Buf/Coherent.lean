import Octopos.Buf.Refs

/-!
# A read returns what the last holder left

The invariant of the cache (`CacheCore`) says where the contents of every block are and what the
processes inside of `read` and `release` know about their buffers. A step of a process touches at
most one buffer, which nobody else holds (`StepOn`), so what the others know stays true.
-/

namespace Octopos

/-! ## Positions -/

namespace BufPc

/-- The buffer to which a process has a reference but not the lock. -/
def waits : BufPc → Option (Fin NBUF)
  | lock _ i => some i
  | unref i => some i
  | _ => none

/-- The buffer that a process has locked inside of `read`. -/
def owns : BufPc → Option (Fin NBUF)
  | check _ i => some i
  | load _ i => some i
  | fill _ i => some i
  | _ => none

def reads : BufPc → Option BlockId
  | lock k _ => some k
  | check k _ => some k
  | load k _ => some k
  | fill k _ => some k
  | _ => none

theorem owns_eq_none {c : BufPc} (h : c.reads = none) : c.owns = none := by
  cases c <;> first | rfl | cases h

end BufPc

section Positions

variable {P : Type} {s s' : CacheSys P} {p q : P} {i j : Fin NBUF} {t : Option (Fin NBUF)}
  {k : BlockId} {pins pins' : List ℕ} {b : ℕ}

/-- Process `p` has the lock of buffer `i`, which belongs to block `k`. -/
structure Held (s : CacheSys P) (p : P) (k : BlockId) (i : Fin NBUF) : Prop where
  holder : s.holder i = some p
  block : (s.buf i).block = k

/-- What a process knows about its buffer. -/
def BufPc.Ok (s : CacheSys P) (p : P) : BufPc → Prop
  | run => True
  | lock k i => (s.buf i).block = k
  | check k i => Held s p k i ∧ s.dirty i = false ∧
      ((s.buf i).valid = true → (s.buf i).data = s.left k)
  | load k i => Held s p k i ∧ s.dirty i = false ∧ (s.buf i).valid = false
  | fill k i => Held s p k i ∧ s.dirty i = false ∧ (s.buf i).valid = false ∧
      (s.buf i).data = s.disk k
  | unref _ => True

/-- The step from `s` to `s'` leaves buffer `i` and the contents of its block alone. -/
structure Untouched (s s' : CacheSys P) (i : Fin NBUF) : Prop where
  block : (s'.buf i).block = (s.buf i).block
  valid : (s'.buf i).valid = (s.buf i).valid
  data : (s'.buf i).data = (s.buf i).data
  dirty : s'.dirty i = s.dirty i
  disk : s'.disk (s.buf i).block = s.disk (s.buf i).block
  left : s'.left (s.buf i).block = s.left (s.buf i).block

/-- A step of `p` that touches buffer `t` at most. -/
structure StepOn (p : P) (t : Option (Fin NBUF)) (s s' : CacheSys P) : Prop where
  pc : ∀ q ≠ p, s'.pc q = s.pc q
  own : ∀ i q, t = some i → s.holder i = some q → q = p
  holder : ∀ j, t ≠ some j → s'.holder j = s.holder j
  blocks : ∀ j, (s.buf j).ref ≠ 0 → (s'.buf j).block = (s.buf j).block
  same : ∀ j q, t ≠ some j → s.holder j = some q → Untouched s s' j

theorem Held.of_untouched (h : Held s p k i) (hholder : s'.holder i = s.holder i)
    (hi : Untouched s s' i) : Held s' p k i :=
  ⟨hholder.trans h.holder, hi.block.trans h.block⟩

/-- The buffer has what the last holder of its block left. -/
def CacheSys.Fresh (s : CacheSys P) (i : Fin NBUF) : Prop := (s.buf i).data = s.left (s.buf i).block

theorem CacheSys.Fresh.of_untouched (h : s.Fresh i) (hi : Untouched s s' i) : s'.Fresh i := by
  unfold CacheSys.Fresh at h ⊢
  rw [hi.data, hi.block, hi.left]
  exact h

theorem StepOn.fresh (h : StepOn p t s s') (hi : s.holder i = some p) (ht : t ≠ some i)
    (hf : s.Fresh i) : s'.Fresh i :=
  hf.of_untouched (h.same i p ht hi)

theorem StepOn.ne (h : StepOn p t s s') (hq : q ≠ p) (hi : s.holder i = some q) : t ≠ some i :=
  fun ht => hq (h.own i q ht hi)

theorem StepOn.untouched (h : StepOn p t s s') (hq : q ≠ p) (hi : s.holder i = some q) :
    Untouched s s' i :=
  h.same i q (h.ne hq hi) hi

theorem StepOn.held (h : StepOn p t s s') (hq : q ≠ p) (hi : Held s q k i) : Held s' q k i :=
  hi.of_untouched (h.holder i (h.ne hq hi.holder)) (h.untouched hq hi.holder)

section Counted

variable [Fintype P]

/-- The buffers, the processes that use them, and the contents of the blocks. -/
structure CacheCore (s : CacheSys P) (pins : List ℕ) : Prop where
  refs : RefOk s.buf s.holder (fun p => (s.pc p).waits) pins
  data : DataOk s.buf s.holder s.dirty s.disk s.left pins
  pcs : ∀ p, (s.pc p).Ok s p
  held : ∀ i p, s.holder i = some p → (s.buf i).valid = true ∨ (s.pc p).owns = some i

section

variable (h : CacheCore s pins)
include h

theorem CacheCore.pc_of_ne (hstep : StepOn p t s s') (hq : q ≠ p) : (s'.pc q).Ok s' q := by
  have hok := h.pcs q
  have hrefs (i : Fin NBUF) (hi : (s.pc q).waits = some i) := h.refs.ref_ne_zero_of_waits hi
  rw [hstep.pc q hq]
  cases hc : s.pc q with
  | run => trivial
  | unref i => trivial
  | lock k i =>
    rw [hc] at hok hrefs
    exact (hstep.blocks i (hrefs i rfl)).trans hok
  | check k i =>
    rw [hc] at hok
    obtain ⟨hheld, hclean, hleft⟩ := hok
    have hi := hstep.untouched hq hheld.holder
    refine ⟨hstep.held hq hheld, hi.dirty.trans hclean, fun hv => ?_⟩
    have hk := hi.left
    rw [hheld.block] at hk
    rw [hi.data, hk]
    exact hleft (hi.valid.symm.trans hv)
  | load k i =>
    rw [hc] at hok
    obtain ⟨hheld, hclean, hv⟩ := hok
    have hi := hstep.untouched hq hheld.holder
    exact ⟨hstep.held hq hheld, hi.dirty.trans hclean, hi.valid.trans hv⟩
  | fill k i =>
    rw [hc] at hok
    obtain ⟨hheld, hclean, hv, hdisk⟩ := hok
    have hi := hstep.untouched hq hheld.holder
    have hk := hi.disk
    rw [hheld.block] at hk
    exact ⟨hstep.held hq hheld, hi.dirty.trans hclean, hi.valid.trans hv, hi.data.trans (hdisk.trans hk.symm)⟩

theorem CacheCore.step (hstep : StepOn p t s s')
    (hrefs : RefOk s'.buf s'.holder (fun p => (s'.pc p).waits) pins')
    (hdata : DataOk s'.buf s'.holder s'.dirty s'.disk s'.left pins') (hpc : (s'.pc p).Ok s' p)
    (htouched : ∀ i q, t = some i → s'.holder i = some q →
      q = p ∧ ((s'.buf i).valid = true ∨ (s'.pc p).owns = some i))
    (howns : ∀ i, (s.pc p).owns = some i → (s'.buf i).valid = true ∨ (s'.pc p).owns = some i) :
    CacheCore s' pins' := by
  refine ⟨hrefs, hdata, fun q => ?_, fun i q hi => ?_⟩
  · by_cases hq : q = p
    · rw [hq]
      exact hpc
    · exact h.pc_of_ne hstep hq
  · by_cases ht : t = some i
    · obtain ⟨rfl, hv⟩ := htouched i q ht hi
      exact hv
    · rw [hstep.holder i ht] at hi
      have hsame := hstep.same i q ht hi
      rw [hsame.valid]
      by_cases hq : q = p
      · subst hq
        rcases h.held i q hi with hv | ho
        · exact Or.inl hv
        · rw [← hsame.valid]
          exact howns i ho
      · rw [hstep.pc q hq]
        exact h.held i q hi

theorem CacheCore.block_ne (hi : s.holder i = some p)
    (hj : s.holder j = some q) (hji : j ≠ i) : (s.buf j).block ≠ (s.buf i).block := fun hblock =>
  hji (h.refs.eq_of_block (h.refs.ne_spare (h.refs.ref_ne_zero_of_holder hj))
    (h.refs.ne_spare (h.refs.ref_ne_zero_of_holder hi)) hblock)

theorem CacheCore.valid (hi : s.holder i = some p) (hp : (s.pc p).owns ≠ some i) :
    (s.buf i).valid = true :=
  (h.held i p hi).resolve_right hp

theorem CacheCore.unique (hi : (s.buf i).valid = true) (j : Fin NBUF)
    (hj : (s.buf j).valid = true) (hblock : (s.buf j).block = (s.buf i).block) : j = i :=
  h.refs.eq_of_valid hj hi hblock

theorem CacheCore.disk_eq_left (hi : Held s p k i) (hv : (s.buf i).valid = false) :
    s.disk k = s.left k := by
  refine h.data.home k fun j hj => ?_
  by_contra hne
  have hvj : (s.buf j).valid = true := by
    cases hvj : (s.buf j).valid
    · exact absurd hvj hne
    · rfl
  have hspare : j = CacheSys.head ∨ (s.buf j).block ≠ (0, 0) := by
    by_contra hor
    rw [not_or, not_not] at hor
    rw [(h.refs.spare j hor.1 hor.2).2] at hvj
    cases hvj
  have hji : j = i := h.refs.eq_of_block hspare
    (h.refs.ne_spare (h.refs.ref_ne_zero_of_holder hi.holder)) (hj.trans hi.block.symm)
  rw [hji, hv] at hvj
  cases hvj

theorem CacheCore.step_run (hstep : StepOn p t s s') (hp : s.pc p = .run) (hp' : s'.pc p = .run)
    (hrefs : RefOk s'.buf s'.holder (fun p => (s'.pc p).waits) pins')
    (hdata : DataOk s'.buf s'.holder s'.dirty s'.disk s'.left pins')
    (htouched : ∀ i q, t = some i → s'.holder i = some q → q = p ∧ (s'.buf i).valid = true) :
    CacheCore s' pins' := by
  refine h.step hstep hrefs hdata (by rw [hp']; trivial) (fun i q ht hq => ?_) fun i hi => ?_
  · exact ⟨(htouched i q ht hq).1, Or.inl (htouched i q ht hq).2⟩
  · rw [hp] at hi
    cases hi

theorem CacheCore.valid_of_run (hp : s.pc p = .run) (hi : s.holder i = some p) :
    (s.buf i).valid = true :=
  h.valid hi (by rw [hp]; exact fun he => by cases he)

end

end Counted

/-! ## Steps in the cache -/

/-- The two states agree in everything that the cache is about. -/
structure SameCache (s s' : CacheSys P) : Prop where
  buf : s'.buf = s.buf
  holder : s'.holder = s.holder
  dirty : s'.dirty = s.dirty
  disk : s'.disk = s.disk
  left : s'.left = s.left
  pc : s'.pc = s.pc

theorem StepOn.same_right {u : CacheSys P} (h : StepOn p t s s') (hu : SameCache s' u) :
    StepOn p t s u := by
  obtain ⟨buf, prev, next, holder, disk, header, outstanding, commit, pc, dirty, left, written, output⟩ := u
  obtain ⟨rfl, rfl, rfl, rfl, rfl, rfl⟩ := hu
  refine ⟨h.pc, h.own, h.holder, h.blocks, fun j q ht hj => ?_⟩
  have := h.same j q ht hj
  exact ⟨this.block, this.valid, this.data, this.dirty, this.disk, this.left⟩

theorem CacheCore.same [Fintype P] {u : CacheSys P} (h : CacheCore s pins) (hu : SameCache s u) :
    CacheCore u pins := by
  obtain ⟨buf, prev, next, holder, disk, header, outstanding, commit, pc, dirty, left, written, output⟩ := u
  obtain ⟨rfl, rfl, rfl, rfl, rfl, rfl⟩ := hu
  refine ⟨h.refs, h.data, fun q => ?_, h.held⟩
  have hq := h.pcs q
  dsimp only
  cases hc : s.pc q <;> rw [hc] at hq
  · trivial
  · exact hq
  · exact ⟨⟨hq.1.1, hq.1.2⟩, hq.2⟩
  · exact ⟨⟨hq.1.1, hq.1.2⟩, hq.2⟩
  · exact ⟨⟨hq.1.1, hq.1.2⟩, hq.2⟩
  · trivial

theorem stepOn_refl (s : CacheSys P) (p : P) : StepOn p none s s where
  pc _ _ := rfl
  own _ _ ht := by cases ht
  holder _ _ := rfl
  blocks _ _ := rfl
  same _ _ _ _ := ⟨rfl, rfl, rfl, rfl, rfl, rfl⟩

theorem stepOn_buffer (hown : ∀ q, s.holder i = some q → q = p) (hpc : ∀ q ≠ p, s'.pc q = s.pc q)
    (hbuf : ∀ j ≠ i, s'.buf j = s.buf j)
    (hblock : (s.buf i).ref ≠ 0 → (s'.buf i).block = (s.buf i).block)
    (hholder : ∀ j ≠ i, s'.holder j = s.holder j) (hdirty : ∀ j ≠ i, s'.dirty j = s.dirty j)
    (hdisk : ∀ j ≠ i, ∀ q, s.holder j = some q → s'.disk (s.buf j).block = s.disk (s.buf j).block)
    (hleft : ∀ j ≠ i, ∀ q, s.holder j = some q → s'.left (s.buf j).block = s.left (s.buf j).block) :
    StepOn p (some i) s s' := by
  have hne {j : Fin NBUF} (hj : some i ≠ some j) : j ≠ i := fun he => hj (by rw [he])
  refine ⟨hpc, fun j q hj => ?_, fun j hj => hholder j (hne hj), fun j hj => ?_, fun j q hj hq => ?_⟩
  · cases hj
    exact hown q
  · by_cases hji : j = i
    · rw [hji] at hj ⊢
      exact hblock hj
    · rw [hbuf j hji]
  · have hji := hne hj
    exact ⟨by rw [hbuf j hji], by rw [hbuf j hji], by rw [hbuf j hji], hdirty j hji, hdisk j hji q hq,
      hleft j hji q hq⟩

/-! ## Steps of a holder -/

section

variable (hi : s.holder i = some p)
include hi

theorem own_of_holder (q : P) (hq : s.holder i = some q) : q = p :=
  Option.some.inj (hq.symm.trans hi)

theorem stepOn_setBuf {x : Buf} (hx : x.block = (s.buf i).block) :
    StepOn p (some i) s (s.setBuf i x) :=
  stepOn_buffer (own_of_holder hi) (fun _ _ => rfl) (fun _ => upd_of_ne)
    (fun _ => (congrArg Buf.block (upd_self ..)).trans hx)
    (fun _ _ => rfl) (fun _ _ => rfl) (fun _ _ _ _ => rfl) fun _ _ _ _ => rfl

theorem stepOn_setData (data : Bytes) : StepOn p (some i) s (s.setData i data) := by
  refine stepOn_buffer (own_of_holder hi) (fun _ _ => rfl) (fun _ => upd_of_ne)
    (fun _ => ?_) (fun _ _ => rfl) (fun _ => upd_of_ne) (fun _ _ _ _ => rfl) fun _ _ _ _ => rfl
  rw [show (s.setData i data).buf i = { s.buf i with data := data } from upd_self ..]

theorem stepOn_clean : StepOn p (some i) s { s with dirty := upd s.dirty i false } :=
  stepOn_buffer (own_of_holder hi) (fun _ _ => rfl) (fun _ _ => rfl) (fun _ => rfl) (fun _ _ => rfl)
    (fun _ => upd_of_ne) (fun _ _ _ _ => rfl) fun _ _ _ _ => rfl

theorem stepOn_pin (r : ℕ) :
    StepOn p (some i) s { s.setBuf i { s.buf i with ref := r } with dirty := upd s.dirty i false } :=
  stepOn_buffer (own_of_holder hi) (fun _ _ => rfl) (fun _ => upd_of_ne)
    (fun _ => (sameData_setRef s.buf i r i).1) (fun _ _ => rfl) (fun _ => upd_of_ne)
    (fun _ _ _ _ => rfl) fun _ _ _ _ => rfl

end

theorem stepOn_setRef (s : CacheSys P) (p : P) (i : Fin NBUF) (r : ℕ) :
    StepOn p none s (s.setBuf i { s.buf i with ref := r }) where
  pc _ _ := rfl
  own _ _ ht := by cases ht
  holder _ _ := rfl
  blocks j _ := (sameData_setRef s.buf i r j).1
  same j _ _ _ :=
    let h := sameData_setRef s.buf i r j
    ⟨h.1, h.2.1, h.2.2, rfl, rfl, rfl⟩

section Holder

variable [Fintype P]

section

variable (h : CacheCore s pins)
include h

theorem CacheCore.setData (hp : s.pc p = .run) (hi : s.holder i = some p) (data : Bytes) :
    CacheCore (s.setData i data) pins := by
  refine h.step_run (stepOn_setData hi data) hp hp (h.refs.setBuf hi rfl rfl)
    (h.data.setData hi data) fun j q hj hq => ?_
  cases hj
  exact ⟨own_of_holder hi q hq, (congrArg Buf.valid (upd_self ..)).trans (h.valid_of_run hp hi)⟩

theorem stepOn_flush (hi : s.holder i = some p) : StepOn p (some i) s (s.flush i) :=
  stepOn_buffer (own_of_holder hi) (fun _ _ => rfl) (fun _ _ => rfl) (fun _ => rfl) (fun _ _ => rfl)
    (fun _ => upd_of_ne) (fun _ hj _ hq => upd_of_ne (h.block_ne hi hq hj)) fun _ _ _ _ => rfl

theorem CacheCore.flush (hp : s.pc p = .run) (hi : s.holder i = some p) :
    CacheCore (s.flush i) pins := by
  have hv := h.valid_of_run hp hi
  refine h.step_run (stepOn_flush h hi) hp hp h.refs (h.data.flush hv (h.unique hv)) fun _ q hj hq => ?_
  cases hj
  exact ⟨own_of_holder hi q hq, hv⟩

theorem CacheCore.absorb (hp : s.pc p = .run) (hi : s.holder i = some p)
    (hpin : Pinned pins (s.buf i).block) :
    CacheCore { s with dirty := upd s.dirty i false } pins := by
  refine h.step_run (stepOn_clean hi) hp hp h.refs (h.data.pin (fun _ => id) hpin) fun _ q hj hq => ?_
  cases hj
  exact ⟨own_of_holder hi q hq, h.valid_of_run hp hi⟩

theorem CacheCore.pin (hp : s.pc p = .run) (hi : Held s p (ROOTDEV, b) i) (hb : b ∉ pins) :
    CacheCore { s.setBuf i { s.buf i with ref := (s.buf i).ref + 1 } with
      dirty := upd s.dirty i false } (pins ++ [b]) := by
  have hdata := (h.data.pin (List.subset_append_left pins [b]) (i := i)
    (by rw [hi.block]; exact ⟨rfl, by simp⟩)).congr (sameData_setRef s.buf i ((s.buf i).ref + 1))
  refine h.step_run (stepOn_pin hi.holder _) hp hp (h.refs.pin hi.block hb) hdata fun _ q hj hq => ?_
  cases hj
  refine ⟨own_of_holder hi.holder q hq, ?_⟩
  exact (sameData_setRef s.buf i _ i).2.1.trans (h.valid_of_run hp hi.holder)

end

theorem CacheCore.unpin (h : CacheCore s (b :: pins)) (hp : s.pc p = .run)
    (hi : Held s p (ROOTDEV, b) i) (hb : b ∉ pins)
    (hdisk : s.disk (s.buf i).block = (s.buf i).data) :
    CacheCore (s.setBuf i { s.buf i with ref := (s.buf i).ref - 1 }) pins := by
  have hdata := (h.data.unpin fun j hv hj => ?_).congr (sameData_setRef s.buf i ((s.buf i).ref - 1))
  · refine h.step_run (stepOn_setRef s p i _) hp hp (h.refs.unpin hi.block hb) hdata ?_
    intro j q ht
    cases ht
  · rw [h.unique (h.valid_of_run hp hi.holder) j hv (hj.trans hi.block.symm)]
    exact hdisk

end Holder

section Moves

variable [DecidableEq P]

theorem waits_goto (s : CacheSys P) (p : P) (c : BufPc) :
    (fun q => ((s.goto p c).pc q).waits) = upd (fun q => (s.pc q).waits) p c.waits := by
  funext q
  by_cases hq : q = p
  · subst hq
    rw [upd_self]
    exact congrArg BufPc.waits (upd_self ..)
  · rw [upd_of_ne hq]
    exact congrArg BufPc.waits (upd_of_ne hq)

theorem waits_goto_same {c : BufPc} (hc : c.waits = (s.pc p).waits) :
    (fun q => ((s.goto p c).pc q).waits) = fun q => (s.pc q).waits := by
  rw [waits_goto, hc]
  exact upd_eq_self _ p

theorem goto_pc (s : CacheSys P) (p : P) (c : BufPc) : (s.goto p c).pc p = c :=
  upd_self ..

theorem StepOn.goto (h : StepOn p t s s') (c : BufPc) : StepOn p t s (s'.goto p c) where
  pc q hq := (upd_of_ne hq).trans (h.pc q hq)
  own := h.own
  holder := h.holder
  blocks := h.blocks
  same j q ht hj :=
    let hsame := h.same j q ht hj
    ⟨hsame.block, hsame.valid, hsame.data, hsame.dirty, hsame.disk, hsame.left⟩

theorem stepOn_miss (hi : s.holder i = none) (hzero : (s.buf i).ref = 0) :
    StepOn p (some i) s
      ((s.setBuf i { s.buf i with block := k, valid := false, ref := (s.buf i).ref + 1 }).goto p
        (.lock k i)) := by
  refine stepOn_buffer ?_ (fun _ => upd_of_ne) (fun _ => upd_of_ne) (fun hne => absurd hzero hne)
    (fun _ _ => rfl) (fun _ _ => rfl) (fun _ _ _ _ => rfl) fun _ _ _ _ => rfl
  intro q hq
  rw [hi] at hq
  cases hq

theorem stepOn_lock (hi : s.holder i = none) (c : BufPc) :
    StepOn p (some i) s ({ s with holder := upd s.holder i (some p) }.goto p c) := by
  refine stepOn_buffer ?_ (fun _ => upd_of_ne) (fun _ _ => rfl) (fun _ => rfl) (fun _ => upd_of_ne)
    (fun _ _ => rfl) (fun _ _ _ _ => rfl) fun _ _ _ _ => rfl
  intro q hq
  rw [hi] at hq
  cases hq

variable [Fintype P]

section

variable (h : CacheCore s pins)
include h

theorem CacheCore.hit (hp : s.pc p = .run) (hi : i = CacheSys.head ∨ (s.buf i).block ≠ (0, 0)) :
    CacheCore
      ((s.setBuf i { s.buf i with ref := (s.buf i).ref + 1 }).goto p (.lock (s.buf i).block i))
      pins := by
  refine h.step ((stepOn_setRef s p i _).goto _) ?_ (h.data.congr (sameData_setRef s.buf i _)) ?_ ?_ ?_
  · rw [waits_goto]
    exact h.refs.hit hi (by rw [hp]; rfl)
  · rw [goto_pc]
    exact (sameData_setRef s.buf i _ i).1
  · intro j q ht
    cases ht
  · intro j hj
    rw [hp] at hj
    cases hj

theorem CacheCore.miss (hp : s.pc p = .run) (hi : i ≠ CacheSys.head) (hzero : (s.buf i).ref = 0)
    (hk : ∀ j, (s.buf j).block ≠ k) :
    CacheCore
      ((s.setBuf i { s.buf i with block := k, valid := false, ref := (s.buf i).ref + 1 }).goto p
        (.lock k i)) pins := by
  have hnone := h.refs.holder_none hzero
  refine h.step (stepOn_miss hnone hzero) ?_ (h.data.miss hnone (h.refs.not_pinned hzero) _) ?_ ?_ ?_
  · rw [waits_goto]
    exact h.refs.miss (by rw [hp]; rfl) hi hzero hk
  · rw [goto_pc]
    exact congrArg Buf.block (upd_self ..)
  · intro j q hj hq
    cases hj
    exact absurd (hnone.symm.trans hq) (by simp)
  · intro j hj
    rw [hp] at hj
    cases hj

theorem CacheCore.lock (hp : s.pc p = .lock k i) (hi : s.holder i = none) :
    CacheCore ({ s with holder := upd s.holder i (some p) }.goto p (.check k i)) pins := by
  have hblock : (s.buf i).block = k := by
    have hok := h.pcs p
    rw [hp] at hok
    exact hok
  refine h.step (stepOn_lock hi _) ?_ h.data.lock ?_ ?_ ?_
  · rw [waits_goto]
    exact h.refs.lock (by rw [hp]; rfl) hi
  · rw [goto_pc]
    obtain ⟨hclean, hleft⟩ := h.data.idle i hi
    rw [hblock] at hleft
    exact ⟨⟨upd_self .., hblock⟩, hclean, hleft⟩
  · intro j q hj hq
    cases hj
    have hq' : (upd s.holder i (some p)) i = some q := hq
    rw [upd_self] at hq'
    refine ⟨(Option.some.inj hq').symm, Or.inr ?_⟩
    rw [goto_pc]
    rfl
  · intro j hj
    rw [hp] at hj
    cases hj

theorem CacheCore.check (hp : s.pc p = .check k i) (hv : (s.buf i).valid = true) :
    CacheCore (s.goto p .run) pins := by
  refine h.step ((stepOn_refl s p).goto _) ?_ h.data ?_ ?_ ?_
  · rw [waits_goto_same (by rw [hp]; rfl)]
    exact h.refs
  · rw [goto_pc]
    trivial
  · intro j q ht
    cases ht
  · intro j hj
    rw [hp] at hj
    cases hj
    exact Or.inl hv

theorem CacheCore.request (hp : s.pc p = .check k i) (hv : (s.buf i).valid = false) :
    CacheCore (s.goto p (.load k i)) pins := by
  have hok := h.pcs p
  rw [hp] at hok
  obtain ⟨hheld, hclean, -⟩ := hok
  refine h.step ((stepOn_refl s p).goto _) ?_ h.data ?_ ?_ ?_
  · rw [waits_goto_same (by rw [hp]; rfl)]
    exact h.refs
  · rw [goto_pc]
    exact ⟨⟨hheld.holder, hheld.block⟩, hclean, hv⟩
  · intro j q ht
    cases ht
  · intro j hj
    rw [hp] at hj
    cases hj
    rw [goto_pc]
    exact Or.inr rfl

theorem CacheCore.load (hp : s.pc p = .load k i) :
    CacheCore ((s.setBuf i { s.buf i with data := s.disk (s.buf i).block }).goto p (.fill k i))
      pins := by
  have hok := h.pcs p
  rw [hp] at hok
  obtain ⟨hheld, hclean, hv⟩ := hok
  have hself : upd s.buf i { s.buf i with data := s.disk (s.buf i).block } i =
      { s.buf i with data := s.disk (s.buf i).block } := upd_self ..
  refine h.step ((stepOn_setBuf hheld.holder (by rfl)).goto _) ?_ (h.data.load hv _) ?_ ?_ ?_
  · rw [waits_goto_same (by rw [show (s.setBuf i _).pc p = s.pc p from rfl, hp]; rfl)]
    exact h.refs.setBuf hheld.holder rfl rfl
  · rw [goto_pc]
    refine ⟨⟨hheld.holder, ?_⟩, hclean, ?_, ?_⟩
    · exact (congrArg Buf.block hself).trans hheld.block
    · exact (congrArg Buf.valid hself).trans hv
    · refine (congrArg Buf.data hself).trans ?_
      rw [hheld.block]
      rfl
  · intro j q hj hq
    cases hj
    rw [goto_pc]
    exact ⟨own_of_holder hheld.holder q hq, Or.inr rfl⟩
  · intro j hj
    rw [hp] at hj
    cases hj
    rw [goto_pc]
    exact Or.inr rfl

theorem CacheCore.fill (hp : s.pc p = .fill k i) :
    CacheCore ((s.setBuf i { s.buf i with valid := true }).goto p .run) pins := by
  have hok := h.pcs p
  rw [hp] at hok
  obtain ⟨hheld, -, -, hdisk⟩ := hok
  have hself : upd s.buf i { s.buf i with valid := true } i = { s.buf i with valid := true } :=
    upd_self ..
  refine h.step ((stepOn_setBuf hheld.holder (by rfl)).goto _) ?_
    (h.data.fill hheld.holder (by rw [hdisk, hheld.block])) ?_ ?_ ?_
  · rw [waits_goto_same (by rw [show (s.setBuf i _).pc p = s.pc p from rfl, hp]; rfl)]
    exact h.refs.setBuf hheld.holder rfl rfl
  · rw [goto_pc]
    trivial
  · intro j q hj hq
    cases hj
    exact ⟨own_of_holder hheld.holder q hq, Or.inl (congrArg Buf.valid hself)⟩
  · intro j hj
    rw [hp] at hj
    cases hj
    exact Or.inl (congrArg Buf.valid hself)

theorem CacheCore.unref (hp : s.pc p = .unref i) :
    CacheCore ((s.setBuf i { s.buf i with ref := (s.buf i).ref - 1 }).goto p .run) pins := by
  refine h.step ((stepOn_setRef s p i _).goto _) ?_ (h.data.congr (sameData_setRef s.buf i _)) ?_ ?_ ?_
  · rw [waits_goto]
    exact h.refs.unref (by rw [hp]; rfl)
  · rw [goto_pc]
    trivial
  · intro j q ht
    cases ht
  · intro j hj
    rw [hp] at hj
    cases hj

theorem stepOn_unlock (la : LogArea) (hi : s.holder i = some p) (user : Bool) :
    StepOn p (some i) s (s.unlock la p i user) :=
  stepOn_buffer (own_of_holder hi) (fun _ => upd_of_ne) (fun _ _ => rfl) (fun _ => rfl)
    (fun _ => upd_of_ne) (fun _ _ => rfl) (fun _ _ _ _ => rfl)
    fun _ hj _ hq => upd_of_ne (h.block_ne hi hq hj)

theorem CacheCore.unlock (la : LogArea) (hp : s.pc p = .run) (hi : s.holder i = some p)
    (hclean : s.dirty i = false) (user : Bool) : CacheCore (s.unlock la p i user) pins := by
  have hv := h.valid_of_run hp hi
  refine h.step (stepOn_unlock h la hi user) ?_ (h.data.unlock hv hclean (h.unique hv)) ?_ ?_ ?_
  · rw [show (fun q => ((s.unlock la p i user).pc q).waits) = upd (fun q => (s.pc q).waits) p (some i)
      from waits_goto s p (.unref i)]
    exact h.refs.unlock (by rw [hp]; rfl) hi
  · rw [show (s.unlock la p i user).pc p = .unref i from upd_self ..]
    trivial
  · intro j q hj hq
    cases hj
    have hq' : upd s.holder i none i = some q := hq
    rw [upd_self] at hq'
    cases hq'
  · intro j hj
    rw [hp] at hj
    cases hj

end

end Moves

end Positions

end Octopos
