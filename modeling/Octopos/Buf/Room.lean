import Octopos.Buf.CommitSteps
import Octopos.Lib.Links

/-!
# Room in the buffer cache

The list of buffers has all of them behind its head, and the head itself is never used (`ListOk`):
`init` makes buffer `0` the head, so only `NBUF - 1` buffers can be recycled. `get` looks at all of
them, and it panics if and only if each is pinned by the log, held or awaited (`get_panics`). There
are `NBUF = LOGBLOCKS` buffers, so the operations that `begin_op` admits can pin all that can be
recycled (`get_panics_pinned`).
-/

namespace Octopos

section Room

variable {P : Type} {s s' : CacheSys P} {p : P} {i j : Fin NBUF} {k : BlockId} {la : LogArea}

/-- The list has all buffers behind its head, and the head is not in use. -/
structure ListOk (s : CacheSys P) : Prop where
  head : (s.buf CacheSys.head).ref = 0
  list : ∃ l, Circle s.prev s.next CacheSys.head l ∧ ∀ i ≠ CacheSys.head, i ∈ l

/-- The log pins the buffer, or a process holds it or waits for it. -/
def CacheSys.InUse (s : CacheSys P) (i : Fin NBUF) : Prop :=
  Pinned s.pins (s.buf i).block ∨ (s.holder i).isSome ∨ ∃ p, (s.pc p).waits = some i

/-! ## The list -/

theorem circle_init :
    Circle (fun i : Fin NBUF => i - 1) (fun i => i + 1) CacheSys.head (List.finRange NBUF).tail :=
  ⟨by decide, by unfold Linked; decide⟩

theorem listOk_boot (disk : BlockId → Bytes) : ListOk (CacheSys.boot disk : CacheSys P) :=
  ⟨rfl, _, circle_init, by decide⟩

theorem ListOk.setBuf (h : ListOk s) (x : Buf) (hx : i = CacheSys.head → x.ref = 0) :
    ListOk (s.setBuf i x) := by
  refine ⟨?_, h.list⟩
  change (upd s.buf i x CacheSys.head).ref = 0
  by_cases hi : CacheSys.head = i
  · rw [hi, upd_self]
    exact hx hi.symm
  · rw [upd_of_ne hi]
    exact h.head

theorem ListOk.setBuf_ref (h : ListOk s) (x : Buf) (hx : x.ref = (s.buf i).ref) :
    ListOk (s.setBuf i x) := by
  refine h.setBuf x fun hi => ?_
  rw [hx, hi]
  exact h.head

theorem ListOk.moveToFront (h : ListOk s) (hi : i ≠ CacheSys.head) : ListOk (s.moveToFront i) := by
  obtain ⟨l, hcircle, hall⟩ := h.list
  obtain ⟨xs, ys, rfl⟩ := List.append_of_mem (hall i hi)
  refine ⟨h.head, i :: (xs ++ ys), hcircle.front, fun j hj => ?_⟩
  exact List.perm_middle.mem_iff.1 (hall j hj)

/-- The loop of `get` takes the last buffer of the list that is not in use. -/
theorem recycle_eq_find {l : List (Fin NBUF)} {fuel : ℕ}
    (hlinks : Linked s.prev s.next (CacheSys.head :: l ++ [j])) (hhead : CacheSys.head ∉ l)
    (hfuel : l.length < fuel) :
    s.recycle fuel (s.prev j) = l.reverse.find? fun i => (s.buf i).ref = 0 := by
  induction l using List.reverseRecOn generalizing j fuel with
  | nil =>
    obtain ⟨fuel, rfl⟩ := Nat.exists_eq_add_one_of_ne_zero (Nat.ne_zero_of_lt hfuel)
    rw [(Linked.succ hlinks).2, CacheSys.recycle, if_pos rfl]
    rfl
  | append_singleton l x ih =>
    obtain ⟨fuel, rfl⟩ := Nat.exists_eq_add_one_of_ne_zero (Nat.ne_zero_of_lt hfuel)
    rw [List.mem_append, List.mem_singleton, not_or] at hhead
    rw [← List.cons_append, List.append_assoc, List.singleton_append] at hlinks
    obtain ⟨hleft, hlast⟩ := List.isChain_split.1 hlinks
    rw [(Linked.succ hlast).2, CacheSys.recycle, if_neg (Ne.symm hhead.2), List.reverse_concat, List.find?_cons]
    by_cases hx : (s.buf x).ref = 0
    · simp [hx]
    · rw [if_neg hx, ih hleft hhead.1 (by rw [List.length_append] at hfuel; simpa using hfuel)]
      simp [hx]

theorem recycle_eq {l : List (Fin NBUF)} (h : Circle s.prev s.next CacheSys.head l) :
    s.recycle NBUF (s.prev CacheSys.head) = l.reverse.find? fun i => (s.buf i).ref = 0 := by
  apply recycle_eq_find h.links (List.nodup_cons.1 h.nodup).1
  have hcard := h.nodup.length_le_card
  rwa [Fintype.card_fin, List.length_cons] at hcard

theorem ListOk.recycle_eq_none (h : ListOk s) :
    s.recycle NBUF (s.prev CacheSys.head) = none ↔ ∀ i ≠ CacheSys.head, (s.buf i).ref ≠ 0 := by
  obtain ⟨l, hcircle, hall⟩ := h.list
  have hout := (List.nodup_cons.1 hcircle.nodup).1
  rw [recycle_eq hcircle, List.find?_eq_none]
  simp only [List.mem_reverse, decide_eq_true_eq]
  refine ⟨fun href i hi => href i (hall i hi), fun href i hi => href i ?_⟩
  rintro rfl
  exact hout hi

variable [DecidableEq P]

theorem ListOk.get (h : ListOk s) (hhead : (s.buf CacheSys.head).block = (0, 0)) (hk : k ≠ (0, 0))
    (hs : s.get p k = some s') : ListOk s' := by
  unfold CacheSys.get at hs
  split at hs
  next i hi =>
    cases hs
    refine ⟨(h.setBuf _ fun hi' => ?_).head, h.list⟩
    rw [← block_of_find hi, hi', hhead] at hk
    exact absurd rfl hk
  next =>
    split at hs
    next i hi =>
      cases hs
      exact ⟨(h.setBuf _ fun hi' => absurd hi' (ref_of_recycle hi).1).head, h.list⟩
    next => cases hs

theorem ListOk.unref (h : ListOk s) (hi : i ≠ CacheSys.head) : ListOk (s.unref p i) := by
  have hset : ListOk ((s.setBuf i { s.buf i with ref := (s.buf i).ref - 1 }).goto p .run) :=
    ⟨(h.setBuf _ fun hi' => absurd hi' hi).head, h.list⟩
  unfold CacheSys.unref
  dsimp only
  split
  · exact hset.moveToFront hi
  · exact hset

omit [DecidableEq P] in
theorem ListOk.setData (h : ListOk s) (data : Bytes) : ListOk (s.setData i data) :=
  ⟨(h.setBuf_ref { s.buf i with data := data } rfl).head, h.list⟩

theorem ListOk.commitStep (h : ListOk s) (hhead : (s.buf CacheSys.head).block = (0, 0))
    {c : CommitPc} (hs : s.commitStep la p c = some s') : ListOk s' := by
  have hdev : ∀ b, ((ROOTDEV, b) : BlockId) ≠ (0, 0) := fun b hb => Nat.one_ne_zero (congrArg Prod.fst hb)
  cases c with
  | round install n tail pc =>
    cases pc with
    | first =>
      change (if tail < n then s.get p (la.block tail) else _) = some s' at hs
      split_ifs at hs
      · exact h.get hhead (hdev _) hs
      all_goals
        cases hs
        exact ⟨h.head, h.list⟩
    | second a => exact h.get hhead (hdev _) hs
    | copy a b =>
      cases hs
      exact ⟨(h.setData _).head, h.list⟩
    | unpin a b =>
      cases hs
      refine ⟨(h.setBuf { s.buf b with ref := (s.buf b).ref - 1 } fun hb => ?_).head, h.list⟩
      rw [hb, h.head]
    | _ =>
      cases hs
      exact ⟨h.head, h.list⟩
  | head last pc =>
    cases pc with
    | read => exact h.get hhead (hdev _) hs
    | put a =>
      cases hs
      exact ⟨(h.setData _).head, h.list⟩
    | _ =>
      cases hs
      exact ⟨h.head, h.list⟩
  | _ =>
    cases hs
    exact ⟨h.head, h.list⟩

variable [Fintype P]

theorem ListOk.call (h : ListOk s) (hrefs : CacheCore s s.pins) {a : CacheAction}
    (ha : a ≠ .read (0, 0)) (hs : s.call la p a = some s') : ListOk s' := by
  cases a with
  | go => cases hs
  | read k => exact h.get hrefs.refs.head (fun hk => ha (congrArg _ hk)) hs
  | modify i data =>
    simp only [CacheSys.call] at hs
    split_ifs at hs
    cases hs
    exact h.setData data
  | logWrite i =>
    simp only [CacheSys.call, CacheSys.logWrite] at hs
    split_ifs at hs with hi
    · cases hs
      exact ⟨h.head, h.list⟩
    · cases hs
      refine ⟨(h.setBuf { s.buf i with ref := (s.buf i).ref + 1 } fun hi' => ?_).head, h.list⟩
      exact absurd (hi' ▸ h.head) (hrefs.refs.ref_ne_zero_of_holder hi.1)
  | release i =>
    simp only [CacheSys.call] at hs
    split_ifs at hs
    cases hs
    exact ⟨h.head, h.list⟩
  | beginOp =>
    simp only [CacheSys.call] at hs
    split_ifs at hs
    cases hs
    exact ⟨h.head, h.list⟩
  | endOp =>
    simp only [CacheSys.call, CacheSys.endOp] at hs
    split_ifs at hs
    all_goals
      cases hs
      exact ⟨h.head, h.list⟩

theorem ListOk.stepOf (h : ListOk s) (hrefs : CacheCore s s.pins) {a : CacheAction}
    (ha : a ≠ .read (0, 0)) (hs : s.step la p a = some s') : ListOk s' := by
  unfold CacheSys.step at hs
  cases hp : s.pc p with
  | lock k i =>
    rw [hp] at hs
    dsimp only at hs
    split_ifs at hs
    cases hs
    exact ⟨h.head, h.list⟩
  | check k i =>
    rw [hp] at hs
    dsimp only at hs
    split_ifs at hs
    all_goals
      cases hs
      exact ⟨h.head, h.list⟩
  | load k i =>
    rw [hp] at hs
    cases hs
    exact ⟨(h.setBuf_ref { s.buf i with data := s.disk (s.buf i).block } rfl).head, h.list⟩
  | fill k i =>
    rw [hp] at hs
    cases hs
    exact ⟨(h.setBuf_ref { s.buf i with valid := true } rfl).head, h.list⟩
  | unref i =>
    rw [hp] at hs
    cases hs
    refine h.unref ?_
    rintro rfl
    have hwaits : (s.pc p).waits = some CacheSys.head := by
      rw [hp]
      rfl
    exact hrefs.refs.ref_ne_zero_of_waits hwaits h.head
  | run =>
    rw [hp] at hs
    cases hc : s.commit with
    | none =>
      rw [hc] at hs
      exact h.call hrefs ha hs
    | some x =>
      rw [hc] at hs
      dsimp only at hs
      split_ifs at hs
      · exact h.commitStep hrefs.refs.head hs
      · exact h.call hrefs ha hs

/-! ## The panic of `get` -/

omit [DecidableEq P] in
theorem CacheCore.inUse_iff (h : CacheCore s s.pins) (i : Fin NBUF) :
    s.InUse i ↔ (s.buf i).ref ≠ 0 := by
  have hrefs := h.refs.refs i
  unfold CacheSys.InUse
  constructor
  · rintro (hpin | hholder | ⟨p, hp⟩)
    · exact fun hzero => h.refs.not_pinned hzero hpin
    · obtain ⟨p, hp⟩ := Option.isSome_iff_exists.1 hholder
      exact h.refs.ref_ne_zero_of_holder hp
    · exact h.refs.ref_ne_zero_of_waits hp
  · intro hne
    by_contra hno
    rw [not_or, not_or] at hno
    obtain ⟨hpin, hholder, hwaits⟩ := hno
    refine hne ?_
    rw [hrefs, refCount, if_neg hholder, if_neg hpin]
    exact Nat.eq_zero_of_not_pos fun hpos => hwaits (exists_of_uses_pos hpos)

omit [DecidableEq P] in
/-- There are not more buffers in use than pinned blocks, held buffers and waiting processes. -/
theorem CacheCore.card_inUse (h : CacheCore s s.pins) (hall : ∀ i ≠ CacheSys.head, s.InUse i) :
    NBUF - 1 ≤ s.pins.length + (Finset.univ.filter fun i => (s.holder i).isSome).card +
      (Finset.univ.filter fun p => (s.pc p).waits.isSome).card := by
  classical
  have hsub : Finset.univ.erase CacheSys.head ⊆ (Finset.univ.filter fun i => Pinned s.pins (s.buf i).block) ∪
        (Finset.univ.filter fun i => (s.holder i).isSome) ∪
        (Finset.univ.filter fun p => (s.pc p).waits.isSome).image fun p => (s.pc p).waits.getD CacheSys.head := by
    intro i hi
    simp only [Finset.mem_union, Finset.mem_filter, Finset.mem_univ, true_and, Finset.mem_image]
    rcases hall i (Finset.ne_of_mem_erase hi) with hpin | hholder | ⟨p, hp⟩
    · exact .inl (.inl hpin)
    · exact .inl (.inr hholder)
    · exact .inr ⟨p, by rw [hp]; rfl, by rw [hp]; rfl⟩
  -- pinned buffers are those of different blocks
  have hpins : (Finset.univ.filter fun i => Pinned s.pins (s.buf i).block).card ≤ s.pins.length := by
    refine (Finset.card_le_card_of_injOn (fun i => (s.buf i).block.2) (t := s.pins.toFinset) ?_ ?_).trans
      s.pins.toFinset_card_le
    · intro i hi
      exact Finset.mem_coe.2 (List.mem_toFinset.2 (Finset.mem_filter.1 hi).2.2)
    · intro i hi j hj hij
      obtain ⟨hi, -⟩ := (Finset.mem_filter.1 hi).2
      obtain ⟨hj, -⟩ := (Finset.mem_filter.1 hj).2
      exact h.refs.eq_of_block (ne_spare_of_dev hi) (ne_spare_of_dev hj) (Prod.ext (hi.trans hj.symm) hij)
  have hcard := Finset.card_le_card hsub
  rw [Finset.card_erase_of_mem (Finset.mem_univ _), Finset.card_univ, Fintype.card_fin] at hcard
  refine hcard.trans ((Finset.card_union_le _ _).trans (Nat.add_le_add ?_ Finset.card_image_le))
  exact (Finset.card_union_le _ _).trans (Nat.add_le_add_right hpins _)

/-- Runs from the start that do not read block `0` of device `0`, the mark of a buffer that was
never used. -/
def CacheSys.Runs (la : LogArea) : CacheSys P → Prop :=
  Reachable (fun s => ∃ disk, s = CacheSys.boot disk) (Guarded (fun _ l => l.2 ≠ .read (0, 0)) (CacheStep la))

theorem CacheSys.Runs.ok (h : CacheSys.Runs la s) : CacheInv la s ∧ ListOk s := by
  refine Reachable.invariant (I := fun s => CacheInv la s ∧ ListOk s) ?_ ?_ h
  · rintro _ ⟨disk, rfl⟩
    exact ⟨cacheInv_init (cacheInit_boot disk), listOk_boot disk⟩
  · rintro s l s' ⟨hinv, hlist⟩ ⟨ha, hs⟩
    have hclear : ListOk { s with output := none } := ⟨hlist.head, hlist.list⟩
    exact ⟨hinv.next hs, hclear.stepOf hinv.clear.core ha hs⟩

/-- `get` panics if and only if the block has no buffer and each buffer behind the head of the list
is pinned, held or awaited; then there are at least `NBUF - 1` pinned blocks, held buffers and
waiting processes. -/
theorem get_panics (h : CacheSys.Runs la s) (p : P) (k : BlockId) :
    (s.get p k = none ↔ (∀ i, (s.buf i).block ≠ k) ∧ ∀ i ≠ CacheSys.head, s.InUse i) ∧
      (s.get p k = none →
        NBUF - 1 ≤ s.pins.length + (Finset.univ.filter fun i => (s.holder i).isSome).card +
        (Finset.univ.filter fun p => (s.pc p).waits.isSome).card) := by
  obtain ⟨hinv, hlist⟩ := h.ok
  have hiff : s.get p k = none ↔ (∀ i, (s.buf i).block ≠ k) ∧ ∀ i ≠ CacheSys.head, s.InUse i := by
    simp only [hinv.core.inUse_iff]
    rw [← hlist.recycle_eq_none]
    unfold CacheSys.get
    cases hfind : s.find k with
    | some i => exact iff_of_false (Option.some_ne_none _) fun hno => hno.1 i (block_of_find hfind)
    | none =>
      dsimp only
      cases hrec : s.recycle NBUF (s.prev CacheSys.head) with
      | some i => exact iff_of_false (Option.some_ne_none _) fun hno => Option.some_ne_none _ hno.2
      | none => exact iff_of_true rfl ⟨block_ne_of_find hfind, rfl⟩
  exact ⟨hiff, fun hnone => hinv.core.card_inUse (hiff.1 hnone).2⟩

end Room

/-! ## A cache that the log fills -/

/-- Process `p` reads block `b`, which gets buffer `i`, logs it and releases it. -/
def logBlock (p : Fin 3) (b : ℕ) (i : Fin NBUF) : List (Fin 3 × CacheAction) :=
  [(p, .read (ROOTDEV, b)), (p, .go), (p, .go), (p, .go), (p, .go), (p, .logWrite i), (p, .release i), (p, .go)]

/-- The block that an action reads. -/
def CacheAction.reads : CacheAction → Option BlockId
  | read k => some k
  | _ => none

/-- Three operations; two of them log ten blocks and the last one nine. -/
def fillCache : List (Fin 3 × CacheAction) :=
  [(0, .beginOp), (1, .beginOp), (2, .beginOp)] ++
    (List.range 29).flatMap fun m => logBlock (Fin.ofNat 3 (m / MAXOPBLOCKS)) (100 + m) (Fin.ofNat NBUF (29 - m))

def CacheAction.logs : CacheAction → Bool
  | logWrite _ => true
  | _ => false

theorem fillCache_run : ∃ s : CacheSys (Fin 3),
    fillCache.foldlM (CacheSys.nextState · ⟨2, 31⟩) (CacheSys.boot fun _ _ => 0) = some s ∧
      s.header.length = 29 ∧ s.outstanding = 3 ∧ (∀ i, s.holder i = none) ∧
      s.get 2 (ROOTDEV, 129) = none := by
  have hrun : (fillCache.foldlM (CacheSys.nextState · ⟨2, 31⟩) (CacheSys.boot fun _ _ => 0)).map
      (fun s => decide (s.header.length = 29 ∧ s.outstanding = 3 ∧ (∀ i, s.holder i = none) ∧
        (s.get 2 (ROOTDEV, 129)).isNone)) = some true := by
    decide +kernel
  obtain ⟨s, hs, hend⟩ := Option.map_eq_some_iff.1 hrun
  obtain ⟨hheader, hout, hholder, hget⟩ := of_decide_eq_true hend
  exact ⟨s, hs, hheader, hout, hholder, Option.isNone_iff_eq_none.1 hget⟩

theorem CacheSys.Runs.foldlM {P : Type} [DecidableEq P] {la : LogArea} {s s' : CacheSys P}
    (h : CacheSys.Runs la s) {ls : List (P × CacheAction)}
    (hls : ∀ l ∈ ls, l.2 ≠ .read (0, 0))
    (hs : ls.foldlM (CacheSys.nextState · la) s = some s') : CacheSys.Runs la s' := by
  induction ls generalizing s with
  | nil => cases hs; exact h
  | cons l ls ih =>
    rw [List.foldlM_cons] at hs
    obtain ⟨t, ht, hs⟩ := Option.bind_eq_some_iff.1 hs
    obtain ⟨hl, hls⟩ := List.forall_mem_cons.1 hls
    exact ih (.step h ⟨hl, ht⟩) hls hs

theorem fillCache_runs : ∃ s : CacheSys (Fin 3), CacheSys.Runs ⟨2, 31⟩ s ∧
    s.header.length = 29 ∧ s.outstanding = 3 ∧ s.get 2 (ROOTDEV, 129) = none := by
  obtain ⟨s, hs, hheader, hout, -, hget⟩ := fillCache_run
  have hstart : CacheSys.Runs ⟨2, 31⟩ (CacheSys.boot fun _ _ => 0 : CacheSys (Fin 3)) :=
    .init ⟨_, rfl⟩
  refine ⟨s, hstart.foldlM (fun l hl hread => ?_) hs, hheader, hout, hget⟩
  have hreads : ∀ l ∈ fillCache, l.2.reads ≠ some (0, 0) := by decide +kernel
  refine hreads l hl ?_
  rw [hread]
  rfl

/-- The third operation may log one block more and no buffer is held, but there is no buffer for the
block. -/
theorem get_panics_pinned :
    (∀ p, (fillCache.filter fun l => l.1 = p ∧ l.2.logs).length ≤ MAXOPBLOCKS) ∧
    ∃ s, fillCache.foldlM (CacheSys.nextState · ⟨2, 31⟩) (CacheSys.boot fun _ _ => 0) = some s ∧
      s.header.length = 29 ∧ s.outstanding = 3 ∧ (∀ i, s.holder i = none) ∧
      s.get 2 (ROOTDEV, 129) = none := by
  obtain ⟨s, hs, hheader, hout, hholder, hget⟩ := fillCache_run
  exact ⟨by decide +kernel, s, hs, hheader, hout, hholder, hget⟩

theorem get_panics_filled : ∃ s : CacheSys (Fin 3), CacheSys.Runs ⟨2, 31⟩ s ∧
    s.get 2 (ROOTDEV, 129) = none ∧ ∀ i ≠ CacheSys.head, s.InUse i := by
  obtain ⟨s, hruns, -, -, hget⟩ := fillCache_runs
  exact ⟨s, hruns, hget, ((get_panics hruns 2 _).1.1 hget).2⟩

end Octopos
