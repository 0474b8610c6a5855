import Octopos.Buf.Room
import Octopos.Mkfs.Main

/-!
# Room in the log

A block in the header of the log is pinned in a buffer of its own, and the head of the list of
buffers never has a block. So the header has fewer than `NBUF` blocks in every run
(`header_length_lt`), and there are `LOGBLOCKS = NBUF` places for them: `log::write` never panics
with 'transaction too big' (`log_write_room`). When three operations use all that they reserved,
`BCache::get` panics before (`get_panics_pinned`).
-/

namespace Octopos

section Room

variable {P : Type} {s s' : CacheSys P} {p : P} {k : BlockId} {la : LogArea} {a : CacheAction}

/-- The pinned blocks are in different buffers, none of which is the head of the list. -/
theorem CacheCore.length_pins [Fintype P] (h : CacheCore s s.pins) (hnodup : s.pins.Nodup) :
    s.pins.length < NBUF := by
  obtain ⟨f, hf⟩ := Classical.axiomOfChoice fun b : {b // b ∈ s.pins} => h.refs.cached b b.2
  have hinj : f.Injective := by
    intro b b' he
    have hblock : ((ROOTDEV, b.1) : BlockId) = (ROOTDEV, b'.1) := by rw [← hf b, ← hf b', he]
    exact Subtype.ext (congrArg Prod.snd hblock)
  have hhead : CacheSys.head ∉ s.pins.attach.map f := by
    intro hmem
    obtain ⟨b, -, hb⟩ := List.mem_map.1 hmem
    have hblock := hf b
    rw [hb, h.refs.head] at hblock
    exact Nat.zero_ne_one (congrArg Prod.fst hblock)
  have hcard := (List.nodup_cons.2 ⟨hhead, (List.nodup_attach.2 hnodup).map hinj⟩).length_le_card
  rwa [List.length_cons, List.length_map, List.length_attach, Fintype.card_fin] at hcard

variable [DecidableEq P]

theorem header_of_get (hs : s.get p k = some s') : s'.header = s.header := by
  unfold CacheSys.get at hs
  split at hs
  · cases hs
    rfl
  · split at hs
    · cases hs
      rfl
    · cases hs

theorem header_of_unref (i : Fin NBUF) : (s.unref p i).header = s.header := by
  unfold CacheSys.unref
  dsimp only
  split <;> rfl

theorem header_of_commitStep {c : CommitPc} (hs : s.commitStep la p c = some s') :
    s'.header = s.header ∨ s'.header = [] := by
  cases c with
  | round install n tail pc =>
    refine .inl ?_
    cases pc with
    | first =>
      change (if tail < n then s.get p (la.block tail) else _) = some s' at hs
      split_ifs at hs
      · exact header_of_get hs
      all_goals
        cases hs
        rfl
    | second a => exact header_of_get hs
    | _ =>
      cases hs
      rfl
  | head last pc =>
    refine .inl ?_
    cases pc with
    | read => exact header_of_get hs
    | _ =>
      cases hs
      rfl
  | clear n =>
    cases hs
    exact .inr rfl
  | _ =>
    cases hs
    exact .inl rfl

/-- Only `log::write` lengthens the header, in an operation. -/
theorem header_of_call (hs : s.call la p a = some s') :
    s'.header = s.header ∨ 1 ≤ s.outstanding ∧ s'.commit = s.commit := by
  cases a with
  | go => cases hs
  | read k => exact .inl (header_of_get hs)
  | logWrite i =>
    simp only [CacheSys.call, CacheSys.logWrite] at hs
    split_ifs at hs with hi hroom hmem
    · cases hs
      exact .inl rfl
    · cases hs
      rw [not_or, not_or, not_lt] at hroom
      exact .inr ⟨hroom.2.2, rfl⟩
  | _ =>
    simp only [CacheSys.call, CacheSys.endOp] at hs
    split_ifs at hs
    all_goals
      cases hs
      exact .inl rfl

theorem header_of_step (hs : s.step la p a = some s') :
    s'.header = s.header ∨ s'.header = [] ∨ 1 ≤ s.outstanding ∧ s'.commit = s.commit := by
  unfold CacheSys.step at hs
  split at hs
  · split_ifs at hs
    cases hs
    exact .inl rfl
  · split_ifs at hs
    all_goals
      cases hs
      exact .inl rfl
  · cases hs
    exact .inl rfl
  · cases hs
    exact .inl rfl
  · cases hs
    exact .inl (header_of_unref _)
  · split at hs
    · split_ifs at hs
      · exact (header_of_commitStep hs).imp_right .inl
      · exact (header_of_call hs).imp_right .inr
    · exact (header_of_call hs).imp_right .inr

variable [Fintype P]

omit [DecidableEq P] in
theorem CacheInv.header_lt (h : CacheInv la s) (hnone : s.commit = none) :
    s.header.length < NBUF := by
  have hpins := pins_of_none hnone
  rw [← hpins]
  apply h.core.length_pins
  rw [hpins]
  exact h.nodup

theorem header_length_lt (h : CacheSys.Runs la s) : s.header.length < NBUF := by
  suffices hinv : CacheInv la s ∧ s.header.length < NBUF from hinv.2
  refine Reachable.invariant (I := fun s => CacheInv la s ∧ s.header.length < NBUF) ?_ ?_ h
  · rintro _ ⟨disk, rfl⟩
    exact ⟨cacheInv_init (cacheInit_boot disk), Nat.zero_lt_succ _⟩
  · rintro s l s' ⟨hinv, hlen⟩ ⟨-, hs⟩
    have hinv' := hinv.next hs
    refine ⟨hinv', ?_⟩
    rcases header_of_step hs with heq | heq | ⟨hopen, heq⟩
    · rw [heq]
      exact hlen
    · rw [heq]
      decide
    -- an operation is open, so there is no commit and all of the header is pinned
    · apply hinv'.header_lt
      by_contra hcommit
      have hquiet : s.outstanding = 0 := hinv.quiet fun hnone => hcommit (heq.trans hnone)
      have hopen' : 1 ≤ s.outstanding := hopen
      omega

/-- **There is always room in the log.** In every state that processes reach with the log that
`mkfs` makes, the header has fewer than `LOGBLOCKS` blocks, and `log::write` panics only outside of
operations. -/
theorem log_write_room (h : CacheSys.Runs la s) (hla : la.size = Mkfs.superBlock.nlogs.toNat) :
    s.header.length < LOGBLOCKS ∧ s.header.length < la.size - 1 ∧
      ∀ i, s.logWrite la i = none ↔ s.outstanding = 0 := by
  have hlen : s.header.length < 30 := header_length_lt h
  have hlog : LOGBLOCKS = 30 := rfl
  have hsize : la.size = 31 := hla
  refine ⟨by omega, by omega, fun i => ?_⟩
  unfold CacheSys.logWrite
  dsimp only
  split_ifs with hfull
  · refine iff_of_true rfl ?_
    omega
  all_goals
    refine iff_of_false not_false ?_
    omega

end Room

/-- 29 blocks are logged by three operations. -/
theorem log_write_room_filled : ∃ s : CacheSys (Fin 3), s.header.length = 29 ∧
    ∀ i, s.logWrite ⟨2, 31⟩ i ≠ none := by
  obtain ⟨s, hruns, hheader, hout, -⟩ := fillCache_runs
  refine ⟨s, hheader, fun i hnone => ?_⟩
  have hzero := ((log_write_room hruns rfl).2.2 i).1 hnone
  rw [hout] at hzero
  cases hzero

end Octopos
