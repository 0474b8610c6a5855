import Octopos.Buf.Room
import Mathlib.Order.WithBot

/-!
# The order of the buffer list

The calls of `BCache` in any order, on blocks of devices other than `0`. The list by the links
`next` has every buffer once, and the buffers stand in it in the order in which their counts last
fell to `0` in `release`, so `get` recycles the one that has been unused longest (`lru_list`).
-/

namespace Octopos

/-- The cache; for each buffer the handles of `get` that `release` has not taken back, and when its
count last fell to `0` in `release`. -/
structure LruSys (P : Type) where
  cache : CacheSys P
  handles : Fin NBUF → ℕ
  freed : Fin NBUF → WithBot ℕ
  clock : ℕ

inductive LruAction
  | get (k : BlockId)
  | load (i : Fin NBUF)
  | release (i : Fin NBUF)
  | pin (i : Fin NBUF)
  | unpin (i : Fin NBUF)

namespace LruSys

variable {P : Type}

/-- `get` returns buffer `i`, whose metadata are now `x`. -/
def take (s : LruSys P) (i : Fin NBUF) (x : Buf) : LruSys P :=
  { s with cache := s.cache.setBuf i x, handles := upd s.handles i (s.handles i + 1) }

def get (s : LruSys P) (k : BlockId) : Option (LruSys P) :=
  match s.cache.find k with
  | some i => some (s.take i { s.cache.buf i with ref := (s.cache.buf i).ref + 1 })
  | none =>
    (s.cache.recycle NBUF (s.cache.prev CacheSys.head)).map fun i =>
      s.take i { s.cache.buf i with block := k, valid := false, ref := (s.cache.buf i).ref + 1 }

def release (s : LruSys P) (i : Fin NBUF) : LruSys P :=
  let s := { s with
    cache := s.cache.setBuf i { s.cache.buf i with ref := (s.cache.buf i).ref - 1 }
    handles := upd s.handles i (s.handles i - 1) }
  if (s.cache.buf i).ref = 0 then
    { s with cache := s.cache.moveToFront i, freed := upd s.freed i s.clock, clock := s.clock + 1 }
  else s

/-- A call; a count below `0` stops the kernel. -/
def step (s : LruSys P) : LruAction → Option (LruSys P)
  | .get k => if k.1 = 0 then none else s.get k
  | .load i =>
    if s.handles i = 0 then none
    else some { s with cache := s.cache.setBuf i { s.cache.buf i with valid := true } }
  | .release i => if s.handles i = 0 ∨ (s.cache.buf i).ref = 0 then none else some (s.release i)
  | .pin i =>
    if s.handles i = 0 then none
    else some { s with cache := s.cache.setBuf i { s.cache.buf i with ref := (s.cache.buf i).ref + 1 } }
  | .unpin i =>
    if s.handles i = 0 ∨ (s.cache.buf i).ref = 0 then none
    else some { s with cache := s.cache.setBuf i { s.cache.buf i with ref := (s.cache.buf i).ref - 1 } }

/-- After `init`. -/
def boot (disk : BlockId → Bytes) : LruSys P := ⟨CacheSys.boot disk, fun _ => 0, fun _ => ⊥, 0⟩

end LruSys

def LruInit {P : Type} (s : LruSys P) : Prop := ∃ disk, s = LruSys.boot disk

def LruStep {P : Type} (s : LruSys P) (a : LruAction) (s' : LruSys P) : Prop := s.step a = some s'

/-- The list, in the order in which the buffers became unused, the latest first; no block is in two
buffers. -/
structure LruOk {P : Type} (s : LruSys P) : Prop where
  list : ∃ l, Circle s.cache.prev s.cache.next CacheSys.head l ∧ (∀ i ≠ CacheSys.head, i ∈ l) ∧
    l.Pairwise fun a b => s.freed b ≤ s.freed a
  clock : ∀ i, s.freed i < s.clock
  head : s.handles CacheSys.head = 0
  headBlock : (s.cache.buf CacheSys.head).block.1 = 0
  distinct : ∀ i j, (s.cache.buf i).block = (s.cache.buf j).block → (s.cache.buf i).block.1 ≠ 0 → i = j

section Lru

variable {P : Type} {s s' : LruSys P} {i : Fin NBUF} {k : BlockId} {x : Buf}

theorem LruOk.ne_head (h : LruOk s) (hi : s.handles i ≠ 0) : i ≠ CacheSys.head := by
  rintro rfl
  exact hi h.head

theorem LruOk.setBuf (h : LruOk s) (hx : x.block = (s.cache.buf i).block) :
    LruOk { s with cache := s.cache.setBuf i x } := by
  have hblock (j : Fin NBUF) : ((s.cache.setBuf i x).buf j).block = (s.cache.buf j).block := by
    change (upd s.cache.buf i x j).block = _
    rw [upd_apply]
    split_ifs with hj
    · rw [hx, hj]
    · rfl
  refine ⟨h.list, h.clock, h.head, ?_, fun j j' hj hdev => ?_⟩
  · rw [hblock]
    exact h.headBlock
  · rw [hblock] at hdev
    rw [hblock, hblock] at hj
    exact h.distinct j j' hj hdev

theorem LruOk.setHandles (h : LruOk s) (hi : i ≠ CacheSys.head) (n : ℕ) :
    LruOk { s with handles := upd s.handles i n } :=
  ⟨h.list, h.clock, (upd_of_ne hi.symm).trans h.head, h.headBlock, h.distinct⟩

theorem LruOk.get (h : LruOk s) (hk : k.1 ≠ 0) (hs : s.get k = some s') : LruOk s' := by
  unfold LruSys.get at hs
  cases hfind : s.cache.find k with
  | some i =>
    rw [hfind] at hs
    cases hs
    have hi : i ≠ CacheSys.head := by
      rintro rfl
      rw [← block_of_find hfind] at hk
      exact hk h.headBlock
    exact (h.setHandles hi _).setBuf rfl
  | none =>
    rw [hfind] at hs
    obtain ⟨i, hi, rfl⟩ := Option.map_eq_some_iff.1 hs
    have hhead := (ref_of_recycle hi).1
    have hnew (j : Fin NBUF) : (s.cache.buf j).block ≠ k := by
      have := List.find?_eq_none.1 hfind j (List.mem_finRange j)
      simpa using this
    refine ⟨h.list, h.clock, (upd_of_ne hhead.symm).trans h.head, ?_, fun j j' hj hdev => ?_⟩
    · change (upd s.cache.buf i _ CacheSys.head).block.1 = 0
      rw [upd_of_ne hhead.symm]
      exact h.headBlock
    · -- the block is in no other buffer
      change (upd s.cache.buf i _ j).block = (upd s.cache.buf i _ j').block at hj
      change (upd s.cache.buf i _ j).block.1 ≠ 0 at hdev
      by_cases hji : j = i <;> by_cases hji' : j' = i
      · rw [hji, hji']
      · rw [hji, upd_self, upd_of_ne hji'] at hj
        exact absurd hj.symm (hnew j')
      · rw [hji', upd_self, upd_of_ne hji] at hj
        exact absurd hj (hnew j)
      · rw [upd_of_ne hji, upd_of_ne hji'] at hj
        rw [upd_of_ne hji] at hdev
        exact h.distinct j j' hj hdev

/-- A buffer whose count falls to `0` becomes the first of the list. -/
theorem LruOk.moveToFront (h : LruOk s) (hi : i ≠ CacheSys.head) :
    LruOk { s with
      cache := s.cache.moveToFront i, freed := upd s.freed i s.clock
      clock := s.clock + 1 } := by
  obtain ⟨l, hcircle, hall, hsorted⟩ := h.list
  obtain ⟨xs, ys, rfl⟩ := List.append_of_mem (hall i hi)
  have hmem (j : Fin NBUF) : j ∈ i :: (xs ++ ys) ↔ j ∈ xs ++ i :: ys := List.perm_middle.symm.mem_iff
  have hout := (List.nodup_cons.1 (List.nodup_cons.1 hcircle.front.nodup).2).1
  have hold {j : Fin NBUF} (hj : j ∈ xs ++ ys) : upd s.freed i (s.clock : WithBot ℕ) j = s.freed j :=
    upd_of_ne fun hji => hout (hji ▸ hj)
  refine ⟨⟨i :: (xs ++ ys), hcircle.front, fun j hj => (hmem j).2 (hall j hj), List.pairwise_cons.2 ⟨?_, ?_⟩⟩,
    fun j => ?_, h.head, h.headBlock, h.distinct⟩
  · intro j hj
    dsimp only
    rw [upd_self, hold hj]
    exact (h.clock j).le
  · refine (hsorted.sublist (List.Sublist.append_left (List.sublist_cons_self i ys) xs)).imp_of_mem ?_
    intro a b ha hb hab
    dsimp only
    rwa [hold ha, hold hb]
  · have hnext : (s.clock : WithBot ℕ) < (s.clock + 1 : ℕ) := WithBot.coe_lt_coe.2 (Nat.lt_succ_self _)
    change upd s.freed i _ j < ((s.clock + 1 : ℕ) : WithBot ℕ)
    rw [upd_apply]
    split_ifs
    · exact hnext
    · exact (h.clock j).trans hnext

theorem LruOk.step (h : LruOk s) {a : LruAction} (hs : LruStep s a s') : LruOk s' := by
  unfold LruStep LruSys.step at hs
  cases a with
  | get k =>
    dsimp only at hs
    split_ifs at hs with hk
    exact h.get hk hs
  | load i | pin i =>
    dsimp only at hs
    split_ifs at hs
    cases hs
    exact h.setBuf rfl
  | unpin i =>
    dsimp only at hs
    split_ifs at hs
    cases hs
    exact h.setBuf rfl
  | release i =>
    dsimp only at hs
    split_ifs at hs with hbad
    cases hs
    rw [not_or] at hbad
    have hi := h.ne_head hbad.1
    have hset := (h.setHandles hi (s.handles i - 1)).setBuf
      (i := i) (x := { s.cache.buf i with ref := (s.cache.buf i).ref - 1 }) rfl
    unfold LruSys.release
    dsimp only
    split_ifs
    · exact hset.moveToFront hi
    · exact hset

/-! ## What holds in every state -/

/-- `get` recycles an unused buffer that no other one has been unused longer than. -/
theorem LruOk.oldest (h : LruOk s)
    (hi : s.cache.recycle NBUF (s.cache.prev CacheSys.head) = some i) :
    ∀ j ≠ CacheSys.head, (s.cache.buf j).ref = 0 → s.freed i ≤ s.freed j := by
  obtain ⟨l, hcircle, hall, hsorted⟩ := h.list
  rw [recycle_eq hcircle] at hi
  obtain ⟨-, as, bs, hl, hbusy⟩ := List.find?_eq_some_iff_append.1 hi
  intro j hj href
  have hback := List.pairwise_reverse.2 hsorted
  rw [hl] at hback
  have hmem := List.mem_reverse.2 (hall j hj)
  rw [hl, List.mem_append, List.mem_cons] at hmem
  rcases hmem with hmem | rfl | hmem
  · have := hbusy j hmem
    simp [href] at this
  · exact le_rfl
  · exact (List.pairwise_cons.1 (List.pairwise_append.1 hback).2.1).1 j hmem

/-- In every state the links lead once through all buffers, forth and back; no block is in two
buffers; the search of `get` comes back to the head; and the buffer that it recycles is, of the
unused ones, the one that has been unused longest. -/
theorem lru_list (h : Reachable LruInit LruStep s) :
    (∀ i, ∃! t, t < NBUF ∧ s.cache.next^[t] CacheSys.head = i) ∧
    s.cache.next^[NBUF] CacheSys.head = CacheSys.head ∧
    (∀ i, s.cache.prev (s.cache.next i) = i ∧ s.cache.next (s.cache.prev i) = i) ∧
    (∀ i j, (s.cache.buf i).block = (s.cache.buf j).block → (s.cache.buf i).block.1 ≠ 0 → i = j) ∧
    (∃ t < NBUF, s.cache.prev^[t + 1] CacheSys.head = CacheSys.head) ∧
    ∀ i, s.cache.recycle NBUF (s.cache.prev CacheSys.head) = some i → i ≠ CacheSys.head ∧
      (s.cache.buf i).ref = 0 ∧ ∀ j ≠ CacheSys.head, (s.cache.buf j).ref = 0 →
      s.freed i ≤ s.freed j := by
  have hok : LruOk s := by
    refine h.invariant (fun s hs => ?_) fun _ _ _ hs => hs.step
    obtain ⟨disk, rfl⟩ := hs
    refine ⟨⟨_, circle_init, by decide, List.pairwise_of_forall fun _ _ => le_rfl⟩, fun i => WithBot.bot_lt_coe 0,
      rfl, rfl, ?_⟩
    exact fun i j _ hdev => absurd rfl hdev
  obtain ⟨l, hcircle, hall, -⟩ := hok.list
  have hmem : ∀ i, i ∈ CacheSys.head :: l := fun i => by
    rcases eq_or_ne i CacheSys.head with rfl | hi
    · exact List.mem_cons_self
    · exact List.mem_cons_of_mem _ (hall i hi)
  have hlength : (CacheSys.head :: l).length = NBUF := by
    rw [← List.toFinset_card_of_nodup hcircle.nodup, Finset.eq_univ_of_forall (s := (CacheSys.head :: l).toFinset)
      fun i => List.mem_toFinset.2 (hmem i), Finset.card_fin]
  have hback := fun i => hcircle.inverse (hmem i)
  have hreturn := hcircle.iterate_length
  have hvisits := fun i => hcircle.visits (hmem i)
  rw [hlength] at hreturn hvisits
  refine ⟨hvisits, hreturn, hback, hok.distinct,
    ⟨NBUF - 1, by decide, ?_⟩, fun i hi => ⟨(ref_of_recycle hi).1, (ref_of_recycle hi).2, hok.oldest hi⟩⟩
  have hleft : Function.LeftInverse s.cache.prev^[NBUF] s.cache.next^[NBUF] :=
    Function.LeftInverse.iterate (fun i => (hback i).1) NBUF
  exact (congrArg _ hreturn.symm).trans (hleft CacheSys.head)

/-- After buffer 29 was used and released, buffer 28 is the next. -/
theorem lru_list_released : ∃ s : LruSys Unit, s.freed 29 = 0 ∧
    s.cache.recycle NBUF (s.cache.prev CacheSys.head) = some 28 ∧ s.freed 28 ≤ s.freed 29 := by
  let s₀ : LruSys Unit := LruSys.boot fun _ _ => 0
  obtain ⟨s₁, hs₁⟩ : ∃ s₁, s₁ = s₀.take 29 ⟨false, (1, 5), 1, fun _ => 0⟩ := ⟨_, rfl⟩
  have hget : LruStep s₀ (.get (1, 5)) s₁ := by
    rw [hs₁]
    rfl
  have hrelease : LruStep s₁ (.release 29) (s₁.release 29) := by
    rw [hs₁]
    rfl
  have hrecycle : (s₁.release 29).cache.recycle NBUF ((s₁.release 29).cache.prev CacheSys.head) = some 28 := by
    rw [hs₁]
    rfl
  have hreach : Reachable LruInit LruStep (s₁.release 29) := .step (.step (.init ⟨_, rfl⟩) hget) hrelease
  obtain ⟨-, -, hold⟩ := (lru_list hreach).2.2.2.2.2 28 hrecycle
  refine ⟨s₁.release 29, by rw [hs₁]; rfl, hrecycle, hold 29 (by decide) ?_⟩
  rw [hs₁]
  rfl

end Lru

end Octopos
