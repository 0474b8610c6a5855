import Octopos.Buf.CommitSteps

/-!
# The cache and the log implement a disk

As long as no process logs a block of the log itself, `commit` does not change what the processes
left in the blocks of the file system: while the log is copied and installed a process cannot log,
so the blocks that were copied stay as they were copied (`Logical`).
-/

namespace Octopos

/-- Number of log blocks that have the contents of their home blocks. -/
def CommitPc.copied (header : List ℕ) : CommitPc → ℕ
  | .round false _ tail (.drop2 _) => tail + 1
  | .round false _ tail _ => tail
  | .round true _ _ _ => header.length
  | .head false _ => header.length
  | .clear _ => header.length
  | _ => 0

/-- The buffer of the log with new contents that `commit` has written and not released yet. -/
def CommitPc.made : CommitPc → Option (Fin NBUF)
  | .round false _ _ (.drop1 a _) => some a
  | .head _ (.drop a) => some a
  | _ => none

theorem CommitPc.copied_got (header : List ℕ) (c : CommitPc) (i : Fin NBUF) :
    (c.got i).copied header = c.copied header := by
  cases c with
  | round install n tail pc => cases install <;> cases pc <;> rfl
  | head last pc => cases last <;> cases pc <;> rfl
  | _ => rfl

theorem CommitPc.made_got (c : CommitPc) (i : Fin NBUF) : (c.got i).made = c.made := by
  cases c with
  | round install n tail pc => cases install <;> cases pc <;> rfl
  | head last pc => cases pc <;> rfl
  | _ => rfl

section Logical

variable {P : Type} {s s' : CacheSys P} {p q : P} {i j a b : Fin NBUF} {t : Option (Fin NBUF)}
  {k : BlockId} {la : LogArea} {c : CommitPc} {install : Bool} {n tail : ℕ}
variable {c' : CommitPc} {action : CacheAction} {l : P × CacheAction}

def CacheSys.copied (s : CacheSys P) : ℕ :=
  match s.commit with
  | some (_, c) => c.copied s.header
  | none => 0

def CacheSys.made (s : CacheSys P) : Option (Fin NBUF) :=
  match s.commit with
  | some (_, c) => c.made
  | none => none

/-- Home block of the log block with index `t`. -/
def CacheSys.home (s : CacheSys P) (t : ℕ) : BlockId := (ROOTDEV, s.header.getD t 0)

/-- The block belongs to the log or was copied to it. -/
def CacheSys.InScope (s : CacheSys P) (la : LogArea) (k : BlockId) : Prop :=
  la.Has k ∨ ∃ t < s.copied, k = s.home t

/-- The log, and that what is left in the blocks is what the processes have written. -/
structure Logical (la : LogArea) (s : CacheSys P) : Prop where
  written : s.written = s.left
  outside : ∀ b ∈ s.header, ¬la.Has (ROOTDEV, b)
  room : s.header ≠ [] → s.header.length < la.size
  sized : ∀ p c, s.commit = some (p, c) → c ≠ .start → c ≠ .finish → 0 < la.size
  copied : ∀ t < s.copied, s.left (la.block t) = s.left (s.home t)
  fresh : ∀ i, (s.buf i).valid = true → s.dirty i = false → s.InScope la (s.buf i).block →
    s.made ≠ some i → s.Fresh i

theorem inScope_congr (hcopied : s'.copied = s.copied) (hheader : s'.header = s.header) :
    s'.InScope la k ↔ s.InScope la k := by
  unfold CacheSys.InScope CacheSys.home
  rw [hheader, hcopied]

theorem Logical.keep (h : Logical la s) (hleft : s'.left = s.left)
    (hwritten : s'.written = s.written) (hheader : s'.header = s.header)
    (hcopied : s'.copied = s.copied)
    (hsized : ∀ p c, s'.commit = some (p, c) → c ≠ .start → c ≠ .finish → 0 < la.size)
    (hslots : ∀ i, (s'.buf i).valid = true → s'.dirty i = false → s.InScope la (s'.buf i).block →
      s'.made ≠ some i →
      ((s.buf i).valid = true ∧ s.dirty i = false ∧ s.made ≠ some i ∧
        (s'.buf i).block = (s.buf i).block ∧ (s'.buf i).data = (s.buf i).data) ∨ s'.Fresh i) :
    Logical la s' := by
  refine ⟨?_, ?_, ?_, hsized, ?_, fun i hv hd hscope hmade => ?_⟩
  · rw [hwritten, hleft]
    exact h.written
  · rw [hheader]
    exact h.outside
  · rw [hheader]
    exact h.room
  · unfold CacheSys.home
    rw [hcopied, hleft, hheader]
    exact h.copied
  · rw [inScope_congr hcopied hheader] at hscope
    rcases hslots i hv hd hscope hmade with ⟨hv', hd', hmade', hblock, hdata⟩ | hfresh
    · rw [hblock] at hscope
      unfold CacheSys.Fresh
      rw [hdata, hblock, hleft]
      exact h.fresh i hv' hd' hscope hmade'
    · exact hfresh

theorem Logical.release (h : Logical la s) (hbuf : s'.buf = s.buf) (hdirty : s'.dirty = s.dirty)
    (hleft : s'.left = upd s.left (s.buf i).block (s.buf i).data)
    (hwritten : s'.written = s'.left) (hheader : s'.header = s.header)
    (hsized : ∀ p c, s'.commit = some (p, c) → c ≠ .start → c ≠ .finish → 0 < la.size)
    (hcopied : ∀ t < s'.copied, s'.left (la.block t) = s'.left (s.home t))
    (hunique : ∀ j, (s.buf j).valid = true → (s.buf j).block = (s.buf i).block → j = i)
    (hslots : ∀ j ≠ i, (s.buf j).valid = true → s.dirty j = false → s'.InScope la (s.buf j).block →
      s'.made ≠ some j → (s.InScope la (s.buf j).block ∧ s.made ≠ some j) ∨ s.Fresh j) :
    Logical la s' := by
  refine ⟨hwritten, ?_, ?_, hsized, ?_, fun j hv hd hscope hmade => ?_⟩
  · rw [hheader]
    exact h.outside
  · rw [hheader]
    exact h.room
  · unfold CacheSys.home at hcopied ⊢
    rw [hheader]
    exact hcopied
  · rw [hbuf] at hv hscope
    rw [hdirty] at hd
    unfold CacheSys.Fresh
    rw [hbuf, hleft]
    by_cases hji : j = i
    · rw [hji, upd_self]
    · rw [upd_of_ne fun hb => hji (hunique j hv hb)]
      rcases hslots j hji hv hd hscope hmade with ⟨hscope', hmade'⟩ | hfresh
      · exact h.fresh j hv hd hscope' hmade'
      · exact hfresh

/-! ## Places -/

theorem LogArea.has_block (ht : tail + 1 < la.size) : la.Has (la.block tail) := by
  refine ⟨rfl, ?_, ?_⟩
  · change la.start ≤ la.start + tail + 1
    omega
  · change la.start + tail + 1 < la.start + la.size
    omega

theorem LogArea.has_head (h : 0 < la.size) : la.Has la.head := by
  refine ⟨rfl, le_refl _, ?_⟩
  change la.start < la.start + la.size
  omega

theorem LogArea.block_inj {t : ℕ} (h : la.block t = la.block tail) : t = tail := by
  have h2 : la.start + t + 1 = la.start + tail + 1 := congrArg Prod.snd h
  omega

theorem LogArea.block_ne_head (t : ℕ) : la.block t ≠ la.head := by
  intro h
  have h2 : la.start + t + 1 = la.start := congrArg Prod.snd h
  omega

theorem Logical.not_has_home (h : Logical la s) {t : ℕ} (ht : t < s.header.length) :
    ¬la.Has (s.home t) := by
  refine h.outside _ ?_
  rw [List.getD_eq_getElem?_getD, List.getElem?_eq_getElem ht]
  exact List.getElem_mem ht

theorem Logical.has_block (h : Logical la s) {t : ℕ} (ht : t < s.header.length) :
    la.Has (la.block t) := by
  refine LogArea.has_block ?_
  have hroom := h.room fun hnil => by rw [hnil] at ht; cases ht
  omega

section Counted

variable [Fintype P]

theorem CacheInv.copied_le (h : CacheInv la s) : s.copied ≤ s.header.length := by
  unfold CacheSys.copied
  cases hc : s.commit with
  | none => exact Nat.zero_le _
  | some x =>
    obtain ⟨p, c⟩ := x
    have hok := h.commit p c hc
    dsimp only
    cases c with
    | round install n tail pc =>
      obtain ⟨hn, hle, hlt, -⟩ := hok
      cases install
      · cases pc with
        | drop2 b =>
          have hlt := hlt (by simp)
          simp only [CommitPc.copied]
          omega
        | _ =>
          simp only [CommitPc.copied]
          omega
      · exact le_refl _
    | head last pc => cases last <;> simp [CommitPc.copied]
    | clear n => exact le_refl _
    | start => exact Nat.zero_le _
    | finish => exact Nat.zero_le _

theorem CacheInv.made_holder (h : CacheInv la s) (hi : s.made = some i) :
    ∃ p c, s.commit = some (p, c) ∧ s.holder i = some p := by
  unfold CacheSys.made at hi
  cases hc : s.commit with
  | none =>
    rw [hc] at hi
    cases hi
  | some x =>
    obtain ⟨p, c⟩ := x
    rw [hc] at hi
    refine ⟨p, c, rfl, ?_⟩
    have hok := h.commit p c hc
    cases c with
    | round install n tail pc =>
      cases install <;> cases pc <;> cases hi
      exact hok.2.2.2.1.log.holder
    | head last pc =>
      cases pc <;> cases hi
      exact hok.1.holder
    | _ => cases hi

end Counted

/-! ## Steps in `read` and `release` -/

theorem Logical.inside (h : Logical la s) (hleft : s'.left = s.left)
    (hwritten : s'.written = s.written) (hheader : s'.header = s.header)
    (hcommit : s'.commit = s.commit)
    (hslots : ∀ i, (s'.buf i).valid = true → s'.dirty i = false → s.InScope la (s'.buf i).block →
      ((s.buf i).valid = true ∧ s.dirty i = false ∧ (s'.buf i).block = (s.buf i).block ∧
        (s'.buf i).data = (s.buf i).data) ∨ s'.Fresh i) : Logical la s' := by
  have hcopied : s'.copied = s.copied := by
    unfold CacheSys.copied
    rw [hcommit, hheader]
  have hmade : s'.made = s.made := by
    unfold CacheSys.made
    rw [hcommit]
  refine h.keep hleft hwritten hheader hcopied (by rw [hcommit]; exact h.sized) fun i hv hd hscope hm => ?_
  rw [hmade] at hm
  refine (hslots i hv hd hscope).imp_left fun hi => ?_
  exact ⟨hi.1, hi.2.1, hm, hi.2.2⟩

theorem Logical.inside_ref (h : Logical la s) (hleft : s'.left = s.left)
    (hwritten : s'.written = s.written) (hheader : s'.header = s.header)
    (hcommit : s'.commit = s.commit) (hdirty : s'.dirty = s.dirty)
    (hbuf : ∀ j, (s'.buf j).block = (s.buf j).block ∧ (s'.buf j).valid = (s.buf j).valid ∧
      (s'.buf j).data = (s.buf j).data) : Logical la s' := by
  refine h.inside hleft hwritten hheader hcommit fun j hv hd _ => Or.inl ?_
  rw [(hbuf j).2.1] at hv
  rw [hdirty] at hd
  exact ⟨hv, hd, (hbuf j).1, (hbuf j).2.2⟩

theorem Logical.inside_one (h : Logical la s) (hleft : s'.left = s.left)
    (hwritten : s'.written = s.written) (hheader : s'.header = s.header)
    (hcommit : s'.commit = s.commit) (hbuf : ∀ j ≠ i, s'.buf j = s.buf j)
    (hdirty : ∀ j ≠ i, s'.dirty j = s.dirty j)
    (hi : (s'.buf i).valid = true → s'.dirty i = false → s.InScope la (s'.buf i).block →
      s'.Fresh i) : Logical la s' := by
  refine h.inside hleft hwritten hheader hcommit fun j hv hd hscope => ?_
  by_cases hji : j = i
  · subst hji
    exact Or.inr (hi hv hd hscope)
  · rw [hbuf j hji] at hv ⊢
    rw [hdirty j hji] at hd
    exact Or.inl ⟨hv, hd, rfl, rfl⟩

section Steps

variable [DecidableEq P]

theorem Logical.get (h : Logical la s) (hs : s.get p k = some s') : Logical la s' := by
  unfold CacheSys.get at hs
  cases hfind : s.find k with
  | some i =>
    rw [hfind] at hs
    cases hs
    exact h.inside_ref rfl rfl rfl rfl rfl (sameData_setRef s.buf i _)
  | none =>
    rw [hfind] at hs
    cases hrec : s.recycle NBUF (s.prev CacheSys.head) with
    | none =>
      rw [hrec] at hs
      cases hs
    | some i =>
      rw [hrec] at hs
      cases hs
      refine h.inside_one rfl rfl rfl rfl (fun _ => upd_of_ne) (fun _ _ => rfl) fun hv => ?_
      have hself := congrArg Buf.valid (upd_self s.buf i
        { s.buf i with block := k, valid := false, ref := (s.buf i).ref + 1 })
      exact absurd (hself.symm.trans hv) (by simp)

theorem Logical.unref (h : Logical la s) : Logical la (s.unref p i) := by
  unfold CacheSys.unref
  dsimp only
  split <;> exact h.inside_ref rfl rfl rfl rfl rfl (sameData_setRef s.buf i _)

theorem Logical.returns (h : Logical la s) : Logical la (s.returns p k i) := by
  have hcopied : (s.returns p k i).copied = s.copied := by
    unfold CacheSys.copied CacheSys.returns
    dsimp only
    cases s.commit with
    | none => rfl
    | some x =>
      rw [Option.map_some]
      by_cases hq : x.1 = p
      · rw [if_pos hq]
        exact CommitPc.copied_got ..
      · rw [if_neg hq]
        rfl
  have hmade : (s.returns p k i).made = s.made := by
    unfold CacheSys.made CacheSys.returns
    dsimp only
    cases s.commit with
    | none => rfl
    | some x =>
      rw [Option.map_some]
      by_cases hq : x.1 = p
      · rw [if_pos hq]
        exact CommitPc.made_got ..
      · rw [if_neg hq]
  refine h.keep rfl rfl rfl hcopied (fun q c hc hstart hfinish => ?_) fun j hv hd _ hm => ?_
  · obtain ⟨c', hc', rfl⟩ := commit_returns hc
    refine h.sized q c' hc' ?_ ?_
    · rintro rfl
      exact hstart (ite_self _)
    · rintro rfl
      exact hfinish (ite_self _)
  · rw [hmade] at hm
    exact Or.inl ⟨hv, hd, hm, rfl, rfl⟩

end Steps

/-! ## Steps of `commit` -/

theorem Logical.setCommit (h : Logical la s) (hc : s.commit = some (p, c))
    (hleft : s'.left = s.left) (hwritten : s'.written = s.written)
    (hheader : s'.header = s.header) (hcommit : s'.commit = some (p, c'))
    (hcopied : c'.copied s.header = c.copied s.header) (hsized : 0 < la.size)
    (hslots : ∀ i, (s'.buf i).valid = true → s'.dirty i = false → s.InScope la (s'.buf i).block →
      c'.made ≠ some i →
      ((s.buf i).valid = true ∧ s.dirty i = false ∧ c.made ≠ some i ∧
        (s'.buf i).block = (s.buf i).block ∧ (s'.buf i).data = (s.buf i).data) ∨ s'.Fresh i) :
    Logical la s' := by
  have hcopied' : s'.copied = s.copied := by
    unfold CacheSys.copied
    rw [hcommit, hc, hheader]
    exact hcopied
  refine h.keep hleft hwritten hheader hcopied' (fun _ _ _ _ _ => hsized) fun i hv hd hscope hm => ?_
  have hm' : c'.made ≠ some i := by
    unfold CacheSys.made at hm
    rw [hcommit] at hm
    exact hm
  have hmade : s.made = c.made := by
    unfold CacheSys.made
    rw [hc]
  rw [hmade]
  exact hslots i hv hd hscope hm'

theorem Logical.commit_one (h : Logical la s) (hc : s.commit = some (p, c))
    (hleft : s'.left = s.left) (hwritten : s'.written = s.written)
    (hheader : s'.header = s.header) (hcommit : s'.commit = some (p, c'))
    (hcopied : c'.copied s.header = c.copied s.header) (hsized : 0 < la.size)
    (hmade : c.made = none) (hbuf : ∀ j ≠ i, s'.buf j = s.buf j)
    (hdirty : ∀ j ≠ i, s'.dirty j = s.dirty j)
    (hi : (s'.buf i).valid = true → s'.dirty i = false → c'.made ≠ some i → s'.Fresh i) :
    Logical la s' := by
  refine h.setCommit hc hleft hwritten hheader hcommit hcopied hsized fun j hv hd _ hm => ?_
  by_cases hji : j = i
  · subst hji
    exact Or.inr (hi hv hd hm)
  · rw [hbuf j hji] at hv ⊢
    rw [hdirty j hji] at hd
    exact Or.inl ⟨hv, hd, by rw [hmade]; simp, rfl, rfl⟩

theorem Logical.setData (h : Logical la s) (hc : s.commit = some (p, c))
    (hcopied : c'.copied s.header = c.copied s.header) (hsized : 0 < la.size)
    (hmade : c.made = none) (data : Bytes) : Logical la ((s.setData i data).setCommit p c') := by
  refine h.commit_one hc rfl rfl rfl rfl hcopied hsized hmade (fun _ => upd_of_ne) (fun _ => upd_of_ne) fun _ hd => ?_
  exact absurd ((upd_self s.dirty i true).symm.trans hd) (by simp)

theorem left_of_fresh (hi : s.Fresh i) : upd s.left (s.buf i).block (s.buf i).data = s.left := by
  rw [hi, upd_eq_self]

theorem Logical.flush [Fintype P] (h : Logical la s) (hinv : CacheInv la s)
    (hc : s.commit = some (p, .round install n tail (.flush a b))) :
    Logical la ((s.flush (CacheSys.dst install a b)).setCommit p
      (.round install n tail (if install then .unpin a b else .drop1 a b))) := by
  obtain ⟨hn, -, hlt, hpair, -, hfresh, hdata⟩ := hinv.commit p _ hc
  have hmade : (CommitPc.round install n tail (.flush a b)).made = none := by cases install <;> rfl
  have hcopied : (CommitPc.round install n tail (if install then .unpin a b else .drop1 a b)).copied
      s.header = (CommitPc.round install n tail (.flush a b)).copied s.header := by
    cases install <;> rfl
  refine h.commit_one hc rfl rfl rfl rfl hcopied (h.sized p _ hc (by simp) (by simp)) hmade
    (fun _ _ => rfl) (fun _ => upd_of_ne) fun _ _ hm => ?_
  cases install
  · exact absurd rfl hm
  · -- the home block gets what the log block has, which is what was copied to it
    have htail : tail < s.copied := by
      unfold CacheSys.copied
      rw [hc]
      exact hn ▸ hlt (by simp)
    have hleft : (s.buf b).data = s.left (s.buf b).block := by
      rw [← hdata, hpair.home.block]
      refine Eq.trans hfresh ?_
      rw [show CacheSys.src true a b = a from rfl, hpair.log.block]
      exact h.copied tail htail
    exact hleft

theorem Logical.logWrite [Fintype P] (h : Logical la s) (hinv : CacheInv la s)
    (hhas : ¬la.Has (s.buf i).block) (hdev : (s.buf i).block.1 = ROOTDEV)
    (hs : s.logWrite la i = some s') : Logical la s' := by
  unfold CacheSys.logWrite at hs
  dsimp only at hs
  by_cases hlimit : LOGBLOCKS ≤ s.header.length ∨ la.size - 1 ≤ s.header.length ∨ s.outstanding < 1
  · rw [if_pos hlimit] at hs
    cases hs
  rw [if_neg hlimit] at hs
  have hnone : s.commit = none := by
    by_contra hne
    have hquiet := hinv.quiet hne
    omega
  have hcopied : s.copied = 0 := by
    unfold CacheSys.copied
    rw [hnone]
  have hscope {u : CacheSys P} (hu : u.copied = 0) {k : BlockId} (hk : u.InScope la k) : la.Has k := by
    refine hk.resolve_right ?_
    rintro ⟨t, ht, -⟩
    rw [hu] at ht
    cases ht
  by_cases hmem : (s.buf i).block.2 ∈ s.header
  · rw [if_pos hmem] at hs
    cases hs
    refine h.inside_one rfl rfl rfl rfl (fun _ _ => rfl) (fun _ => upd_of_ne) fun _ _ hi => ?_
    exact absurd (hscope hcopied hi) hhas
  · rw [if_neg hmem] at hs
    have hs := Option.some.inj hs
    have hcommit : s'.commit = none := by rw [← hs]; exact hnone
    have hcopied' : s'.copied = 0 := by
      unfold CacheSys.copied
      rw [hcommit]
    have hsame (j : Fin NBUF) := sameData_setRef s.buf i ((s.buf i).ref + 1) j
    refine ⟨by rw [← hs]; exact h.written, ?_, ?_, ?_, ?_, fun j hv hd hsc hm => ?_⟩
    · rw [← hs]
      intro b hb
      rcases List.mem_append.1 hb with hb | hb
      · exact h.outside b hb
      · rw [List.mem_singleton.1 hb, ← hdev]
        exact hhas
    · rw [← hs]
      intro _
      change (s.header ++ [(s.buf i).block.2]).length < la.size
      rw [List.length_append, List.length_singleton]
      omega
    · intro q c hq
      rw [hcommit] at hq
      cases hq
    · intro t ht
      rw [hcopied'] at ht
      cases ht
    · have hblock : (s'.buf j).block = (s.buf j).block := by rw [← hs]; exact (hsame j).1
      have hvalid : (s'.buf j).valid = (s.buf j).valid := by rw [← hs]; exact (hsame j).2.1
      have hdata : (s'.buf j).data = (s.buf j).data := by rw [← hs]; exact (hsame j).2.2
      have hhas' := hscope hcopied' hsc
      rw [hblock] at hhas'
      have hji : j ≠ i := by
        rintro rfl
        exact hhas hhas'
      have hdirty : s'.dirty j = s.dirty j := by rw [← hs]; exact upd_of_ne hji
      have hmade : s.made ≠ some j := by
        unfold CacheSys.made
        rw [hnone]
        simp
      unfold CacheSys.Fresh
      rw [hblock, hdata, show s'.left = s.left by rw [← hs]; rfl]
      exact h.fresh j (hvalid.symm.trans hv) (hdirty.symm.trans hd) (Or.inl hhas') hmade

section Moves

variable [DecidableEq P]

theorem written_unlock (h : Logical la s) (p : P) {user : Bool}
    (hi : user = true ∨ la.Has (s.buf i).block) :
    (s.unlock la p i user).written = (s.unlock la p i user).left := by
  have hw : (s.unlock la p i user).written = upd s.written (s.buf i).block (s.buf i).data := if_pos hi
  rw [hw, h.written]
  rfl

/-- The step of `commit` that releases a buffer with what is in its block anyway. -/
theorem Logical.drop_fresh (h : Logical la s) (hc : s.commit = some (p, c)) (hi : s.Fresh i)
    (hcopied : c'.copied s.header = c.copied s.header) (hsized : 0 < la.size)
    (hmade : c.made = none) : Logical la ((s.unlock la p i false).setCommit p c') := by
  have hleft : ((s.unlock la p i false).setCommit p c').left = s.left := left_of_fresh hi
  have hwritten : ((s.unlock la p i false).setCommit p c').written = s.written := by
    by_cases hhas : la.Has (s.buf i).block
    · exact (written_unlock h p (Or.inr hhas)).trans (hleft.trans h.written.symm)
    · exact if_neg fun hor => hor.elim (by simp) hhas
  refine h.setCommit hc hleft hwritten rfl rfl hcopied hsized fun j hv hd _ _ => ?_
  exact Or.inl ⟨hv, hd, by rw [hmade]; simp, rfl, rfl⟩

variable [Fintype P]

theorem Logical.drop_log (h : Logical la s) (hinv : CacheInv la s) (hp : s.pc p = .run)
    (hc : s.commit = some (p, .round false n tail (.drop1 a b))) :
    Logical la ((s.unlock la p a false).setCommit p (.round false n tail (.drop2 b))) := by
  obtain ⟨hn, -, hlt, hpair, -, hdb, hfresh, hdata⟩ := hinv.commit p _ hc
  have htail : tail < s.header.length := hn ▸ hlt (by simp)
  have hhas : la.Has (s.buf a).block := by
    rw [hpair.log.block]
    exact h.has_block htail
  have hcopied : s.copied = tail := by
    unfold CacheSys.copied
    rw [hc]
    rfl
  have hv := hinv.core.valid_of_run hp hpair.log.holder
  have hother (k : BlockId) (hk : k ≠ la.block tail) :
      ((s.unlock la p a false).setCommit p (.round false n tail (.drop2 b))).left k = s.left k :=
    upd_of_ne (by rw [hpair.log.block]; exact hk)
  have hhome {t : ℕ} (ht : t < s.header.length) : s.home t ≠ la.block tail := fun he =>
    h.not_has_home ht (by rw [he]; exact h.has_block htail)
  refine h.release rfl rfl rfl (written_unlock h p (Or.inr hhas)) rfl
    (fun _ _ _ _ _ => h.sized p _ hc (by simp) (by simp)) ?_ (hinv.core.unique hv) ?_
  · intro t ht
    have ht : t < tail + 1 := ht
    by_cases heq : t = tail
    · subst heq
      rw [hother _ (hhome htail)]
      refine (congrArg _ hpair.log.block.symm).trans ((upd_self ..).trans (hdata.trans ?_))
      refine Eq.trans hfresh ?_
      rw [show CacheSys.src false a b = b from rfl, hpair.home.block]
      rfl
    · rw [hother _ (hhome (by omega)), hother _ fun he => heq (LogArea.block_inj he)]
      exact h.copied t (by omega)
  · intro j hja hvj hdj hscope _
    by_cases hjb : j = b
    · subst hjb
      exact Or.inr hfresh
    · refine Or.inl ⟨hscope.imp_right ?_, ?_⟩
      · rintro ⟨t, ht, htj⟩
        have ht : t < tail + 1 := ht
        refine ⟨t, ?_, htj⟩
        by_contra hge
        obtain rfl : t = tail := by omega
        exact hjb (hinv.core.unique (hinv.core.valid_of_run hp hpair.home.holder) j hvj
          (htj.trans hpair.home.block.symm))
      · unfold CacheSys.made
        rw [hc]
        exact fun he => hja (Option.some.inj he).symm

theorem Logical.drop_head (h : Logical la s) (hinv : CacheInv la s) (hp : s.pc p = .run)
    {last : Bool} (hc : s.commit = some (p, .head last (.drop a)))
    (hcopied : c'.copied s.header = (CommitPc.head last (.drop a)).copied s.header) :
    Logical la ((s.unlock la p a false).setCommit p c') := by
  have hsized := h.sized p _ hc (by simp) (by simp)
  obtain ⟨ha, -⟩ := hinv.commit p _ hc
  have hhas : la.Has (s.buf a).block := by
    rw [ha.block]
    exact LogArea.has_head hsized
  have hcopied' : CacheSys.copied ((s.unlock la p a false).setCommit p c') = s.copied := by
    unfold CacheSys.copied
    rw [hc]
    exact hcopied
  have hother (k : BlockId) (hk : k ≠ la.head) : ((s.unlock la p a false).setCommit p c').left k = s.left k :=
    upd_of_ne (by rw [ha.block]; exact hk)
  refine h.release rfl rfl rfl (written_unlock h p (Or.inr hhas)) rfl (fun _ _ _ _ _ => hsized) ?_
    (hinv.core.unique (hinv.core.valid_of_run hp ha.holder)) ?_
  · intro t ht
    rw [hcopied'] at ht
    have hhome : s.home t ≠ la.head := fun he =>
      h.not_has_home (lt_of_lt_of_le ht hinv.copied_le) (by rw [he]; exact LogArea.has_head hsized)
    rw [hother _ hhome, hother _ (LogArea.block_ne_head t)]
    exact h.copied t ht
  · intro j hja _ _ hscope _
    rw [inScope_congr hcopied' rfl] at hscope
    refine Or.inl ⟨hscope, ?_⟩
    unfold CacheSys.made
    rw [hc]
    exact fun he => hja (Option.some.inj he).symm

theorem Logical.drop_home (h : Logical la s) (hinv : CacheInv la s) (hp : s.pc p = .run)
    (hc : s.commit = some (p, .round install n tail (.drop2 b))) :
    Logical la ((s.unlock la p b false).setCommit p (.round install n (tail + 1) .first)) := by
  obtain ⟨hn, -, hlt, hb, hdb, hfresh⟩ := hinv.commit p _ hc
  have hsized := h.sized p _ hc (by simp) (by simp)
  have hmade : (CommitPc.round install n tail (.drop2 b)).made = none := by cases install <;> rfl
  have hf : s.Fresh b := by
    cases install
    · exact hfresh rfl
    · refine h.fresh b (hinv.core.valid_of_run hp hb.holder) hdb (Or.inr ⟨tail, ?_, hb.block⟩) ?_
      · unfold CacheSys.copied
        rw [hc]
        exact hn ▸ hlt (by simp)
      · unfold CacheSys.made
        rw [hc]
        simp [hmade]
  refine h.drop_fresh hc hf ?_ hsized hmade
  cases install <;> rfl

theorem Logical.round (h : Logical la s) (hinv : CacheInv la s) (hp : s.pc p = .run)
    {pc : RoundPc} (hc : s.commit = some (p, .round install n tail pc))
    (hs : s.roundStep la p install n tail pc = some s') : Logical la s' := by
  have hsized := h.sized p _ hc (by simp) (by simp)
  have hok := hinv.commit p _ hc
  cases pc with
  | first =>
    rw [CacheSys.roundStep] at hs
    obtain ⟨hn, hle, -, -⟩ := hok
    by_cases hlt : tail < n
    · rw [if_pos hlt] at hs
      exact h.get hs
    · rw [if_neg hlt] at hs
      cases hs
      obtain rfl : tail = n := by omega
      refine h.setCommit hc rfl rfl rfl rfl ?_ hsized fun j hv hd _ _ => Or.inl ⟨hv, hd, ?_, rfl, rfl⟩
      · cases install
        · exact hn.symm
        · rfl
      · cases install <;> simp [CommitPc.made]
  | second a => exact h.get hs
  | copy a b =>
    cases hs
    refine h.setData hc ?_ hsized ?_ _
    · cases install <;> rfl
    · cases install <;> rfl
  | flush a b =>
    cases hs
    exact h.flush hinv hc
  | unpin a b =>
    cases hs
    obtain ⟨-, -, -, -, -, -, rfl, -⟩ := hok
    refine h.setCommit hc rfl rfl rfl rfl rfl hsized fun j hv hd _ _ => Or.inl ?_
    obtain ⟨hb, hv', hd'⟩ := sameData_setRef s.buf b ((s.buf b).ref - 1) j
    exact ⟨hv'.symm.trans hv, hd, by simp [CommitPc.made], hb, hd'⟩
  | drop1 a b =>
    cases hs
    cases install
    · exact h.drop_log hinv hp hc
    · obtain ⟨-, -, -, -, -, -, hfresh, -⟩ := hok
      exact h.drop_fresh hc hfresh rfl hsized rfl
  | drop2 b =>
    cases hs
    exact h.drop_home hinv hp hc

theorem Logical.commitStep (h : Logical la s) (hinv : CacheInv la s) (hp : s.pc p = .run)
    (hc : s.commit = some (p, c)) (hs : s.commitStep la p c = some s') : Logical la s' := by
  cases c with
  | start =>
    cases hs
    have hcopied : s.copied = 0 := by
      unfold CacheSys.copied
      rw [hc]
      rfl
    have hslots (c' : CommitPc) (i : Fin NBUF) (hv : ((s.setCommit p c').buf i).valid = true)
        (hd : (s.setCommit p c').dirty i = false) :
        (s.buf i).valid = true ∧ s.dirty i = false ∧ s.made ≠ some i ∧
          ((s.setCommit p c').buf i).block = (s.buf i).block ∧
          ((s.setCommit p c').buf i).data = (s.buf i).data := by
      refine ⟨hv, hd, ?_, rfl, rfl⟩
      unfold CacheSys.made
      rw [hc]
      simp [CommitPc.made]
    by_cases hlen : 0 < s.header.length
    · rw [if_pos hlen]
      refine h.keep rfl rfl rfl hcopied.symm (fun _ _ _ _ _ => ?_) fun i hv hd _ _ => Or.inl (hslots _ i hv hd)
      have hroom := h.room (List.length_pos_iff.1 hlen)
      omega
    · rw [if_neg hlen]
      refine h.keep rfl rfl rfl hcopied.symm (fun q c hq _ hfinish => ?_) fun i hv hd _ _ => Or.inl (hslots _ i hv hd)
      cases hq
      exact absurd rfl hfinish
  | round install n tail pc => exact h.round hinv hp hc hs
  | head last pc =>
    have hsized := h.sized p _ hc (by simp) (by simp)
    cases pc with
    | read => exact h.get hs
    | put a =>
      cases hs
      exact h.setData hc (by cases last <;> rfl) hsized rfl _
    | flush a =>
      cases hs
      refine h.commit_one hc rfl rfl rfl rfl (by cases last <;> rfl) hsized rfl (fun _ _ => rfl)
        (fun _ => upd_of_ne) fun _ _ hm => ?_
      exact absurd rfl hm
    | drop a =>
      cases hs
      refine h.drop_head hinv hp hc ?_
      cases last <;> rfl
  | clear n =>
    cases hs
    have hsized := h.sized p _ hc (by simp) (by simp)
    refine ⟨h.written, fun b hb => absurd hb List.not_mem_nil, fun hne => absurd rfl hne,
      fun _ _ _ _ _ => hsized, fun t ht => absurd ht (Nat.not_lt_zero t), fun i hv hd hscope _ => ?_⟩
    refine h.fresh i hv hd (hscope.imp_right ?_) ?_
    · rintro ⟨t, ht, -⟩
      cases ht
    · unfold CacheSys.made
      rw [hc]
      simp [CommitPc.made]
  | finish =>
    cases hs
    refine ⟨h.written, h.outside, h.room, fun _ _ hq => absurd hq (by simp),
      fun t ht => absurd ht (Nat.not_lt_zero t), fun i hv hd hscope _ => ?_⟩
    refine h.fresh i hv hd (hscope.imp_right ?_) ?_
    · rintro ⟨t, ht, -⟩
      cases ht
    · unfold CacheSys.made
      rw [hc]
      simp [CommitPc.made]

theorem Logical.unlock (h : Logical la s) (hinv : CacheInv la s) (hp : s.pc p = .run)
    (hnot : ∀ c, s.commit ≠ some (p, c)) (hi : s.holder i = some p) (hd : s.dirty i = false) :
    Logical la (s.unlock la p i true) := by
  have hv := hinv.core.valid_of_run hp hi
  have hmade : s.made ≠ some i := by
    intro hm
    obtain ⟨q, c, hc, hq⟩ := hinv.made_holder hm
    rw [hi] at hq
    cases hq
    exact hnot c hc
  have hwritten : (s.unlock la p i true).written = (s.unlock la p i true).left :=
    written_unlock h p (Or.inl rfl)
  by_cases hscope : s.InScope la (s.buf i).block
  · have hleft : (s.unlock la p i true).left = s.left := left_of_fresh (h.fresh i hv hd hscope hmade)
    refine h.inside hleft (hwritten.trans (hleft.trans h.written.symm)) rfl rfl fun j hv hd _ => ?_
    exact Or.inl ⟨hv, hd, rfl, rfl⟩
  · have hother (k : BlockId) (hk : s.InScope la k) : (s.unlock la p i true).left k = s.left k :=
      upd_of_ne fun he => hscope (by rw [← he]; exact hk)
    refine h.release rfl rfl rfl hwritten rfl h.sized ?_ (hinv.core.unique hv) ?_
    · intro t ht
      have ht : t < s.copied := ht
      rw [hother _ (Or.inr ⟨t, ht, rfl⟩), hother _ (Or.inl (h.has_block (lt_of_lt_of_le ht hinv.copied_le)))]
      exact h.copied t ht
    · intro j _ _ _ hj hm
      exact Or.inl ⟨hj, hm⟩

theorem Logical.call (h : Logical la s) (hinv : CacheInv la s) (hp : s.pc p = .run)
    (hnot : ∀ c, s.commit ≠ some (p, c))
    (hguard : ∀ i, action = .logWrite i → ¬la.Has (s.buf i).block)
    (hs : s.call la p action = some s') : Logical la s' := by
  cases action with
  | go => cases hs
  | read k => exact h.get hs
  | modify i data =>
    rw [CacheSys.call] at hs
    split_ifs at hs with hi
    cases hs
    refine h.inside_one rfl rfl rfl rfl (fun _ => upd_of_ne) (fun _ => upd_of_ne) fun _ hd => ?_
    exact absurd ((upd_self s.dirty i true).symm.trans hd) (by simp)
  | logWrite i =>
    rw [CacheSys.call] at hs
    split_ifs at hs with hi
    exact h.logWrite hinv (hguard i rfl) hi.2 hs
  | release i =>
    rw [CacheSys.call] at hs
    split_ifs at hs with hi
    cases hs
    exact h.unlock hinv hp hnot hi.1 hi.2
  | beginOp =>
    rw [CacheSys.call] at hs
    split_ifs at hs with hlimit
    cases hs
    exact h.inside rfl rfl rfl rfl fun j hv hd _ => Or.inl ⟨hv, hd, rfl, rfl⟩
  | endOp =>
    have hs : s.endOp p = some s' := hs
    unfold CacheSys.endOp at hs
    split_ifs at hs with hlimit hlast
    · cases hs
      rw [not_or] at hlimit
      have hnone : s.commit = none := by simpa using hlimit.2
      have hcopied : s.copied = 0 := by
        unfold CacheSys.copied
        rw [hnone]
      refine h.keep rfl rfl rfl hcopied.symm (fun q c hq hstart _ => ?_) fun j hv hd _ _ =>
        Or.inl ⟨hv, hd, ?_, rfl, rfl⟩
      · obtain rfl := congrArg Prod.snd (Option.some.inj hq)
        exact absurd rfl hstart
      · unfold CacheSys.made
        rw [hnone]
        simp
    · cases hs
      exact h.inside rfl rfl rfl rfl fun j hv hd _ => Or.inl ⟨hv, hd, rfl, rfl⟩

def LogsOutside (la : LogArea) (s : CacheSys P) (l : P × CacheAction) : Prop :=
  ∀ i, l.2 = .logWrite i → ¬la.Has (s.buf i).block

theorem Logical.stepOf (h : Logical la s) (hinv : CacheInv la s)
    (hguard : ∀ i, action = .logWrite i → ¬la.Has (s.buf i).block)
    (hs : s.step la p action = some s') : Logical la s' := by
  have hpc := hinv.core.pcs p
  unfold CacheSys.step at hs
  cases hp : s.pc p with
  | lock k i =>
    rw [hp] at hs
    dsimp only at hs
    split_ifs at hs with hi
    cases hs
    exact h.inside rfl rfl rfl rfl fun j hv hd _ => Or.inl ⟨hv, hd, rfl, rfl⟩
  | check k i =>
    rw [hp] at hs
    dsimp only at hs
    split_ifs at hs with hv
    · cases hs
      exact h.returns
    · cases hs
      exact h.inside rfl rfl rfl rfl fun j hv hd _ => Or.inl ⟨hv, hd, rfl, rfl⟩
  | load k i =>
    rw [hp] at hs hpc
    cases hs
    obtain ⟨-, -, hv⟩ := hpc
    refine h.inside_one rfl rfl rfl rfl (fun _ => upd_of_ne) (fun _ _ => rfl) fun hv' => ?_
    have hself := congrArg Buf.valid (upd_self s.buf i { s.buf i with data := s.disk (s.buf i).block })
    exact absurd (hv'.symm.trans (hself.trans hv)) (by simp)
  | fill k i =>
    rw [hp] at hs hpc
    cases hs
    obtain ⟨hheld, -, hv, hdisk⟩ := hpc
    refine Logical.returns (h.inside_one (i := i) rfl rfl rfl rfl (fun _ => upd_of_ne) (fun _ _ => rfl) ?_)
    intro _ _ _
    have hself : upd s.buf i { s.buf i with valid := true } i = { s.buf i with valid := true } :=
      upd_self ..
    refine (congrArg Buf.data hself).trans (hdisk.trans ?_)
    rw [hinv.core.disk_eq_left hheld hv, ← hheld.block]
    exact congrArg s.left (congrArg Buf.block hself).symm
  | unref i =>
    rw [hp] at hs
    cases hs
    exact h.unref
  | run =>
    rw [hp] at hs
    cases hc : s.commit with
    | none =>
      rw [hc] at hs
      exact h.call hinv hp (fun c hc' => by rw [hc] at hc'; cases hc') hguard hs
    | some x =>
      obtain ⟨q, c⟩ := x
      rw [hc] at hs
      dsimp only at hs
      by_cases hq : q = p
      · rw [if_pos hq] at hs
        rw [hq] at hc
        exact h.commitStep hinv hp hc hs
      · rw [if_neg hq] at hs
        refine h.call hinv hp (fun c' hc' => hq ?_) hguard hs
        exact congrArg Prod.fst (Option.some.inj (hc.symm.trans hc'))

theorem Logical.next (h : Logical la s) (hinv : CacheInv la s) (hguard : LogsOutside la s l)
    (hs : CacheStep la s l s') : Logical la s' := by
  have h0 : Logical la { s with output := none } :=
    h.inside rfl rfl rfl rfl fun j hv hd _ => Or.inl ⟨hv, hd, rfl, rfl⟩
  exact h0.stepOf hinv.clear hguard hs

end Moves

theorem logical_init (h : CacheInit s) : Logical la s := by
  refine ⟨by rw [h.written, h.left], ?_, fun hne => absurd h.header hne, ?_, ?_, fun i hv _ _ _ => ?_⟩
  · rw [h.header]
    exact fun b hb => absurd hb List.not_mem_nil
  · intro p c hc
    rw [h.commit] at hc
    cases hc
  · intro t ht
    unfold CacheSys.copied at ht
    rw [h.commit] at ht
    cases ht
  · unfold CacheSys.Fresh
    rw [h.left]
    exact h.data i hv

section Runs

variable [Fintype P] [DecidableEq P]

theorem logical_reachable (h : Reachable CacheInit (Guarded (LogsOutside la) (CacheStep la)) s) :
    CacheInv la s ∧ Logical la s :=
  h.invariant (I := fun s => CacheInv la s ∧ Logical la s)
    (fun _ h0 => ⟨cacheInv_init h0, logical_init h0⟩)
    fun _ _ _ hinv hstep => ⟨hinv.1.next hstep.2, hinv.2.next hinv.1 hstep.1 hstep.2⟩

/-- In every reachable state a block has at most one valid buffer, and what a `read` returns is what
the last holder of the block left in it; if no process logs a block of the log, then it is also what
the last process other than `commit` left in it. -/
theorem read_returns_left (la : LogArea) (s : CacheSys P)
    (h : Reachable CacheInit (CacheStep la) s) :
    (∀ p k d, s.output = some (p, k, d) → d = s.left k) ∧
    (∀ i j, (s.buf i).valid = true → (s.buf j).valid = true → (s.buf i).block = (s.buf j).block →
      i = j) ∧
    (Reachable CacheInit (Guarded (LogsOutside la) (CacheStep la)) s →
      ∀ p k d, s.output = some (p, k, d) → d = s.written k) := by
  have hinv := cacheInv_reachable h
  refine ⟨hinv.output, fun i j hi hj => hinv.core.refs.eq_of_valid hi hj, fun hg p k d hd => ?_⟩
  rw [(logical_reachable hg).2.written]
  exact hinv.output p k d hd

end Runs

/-- A process changes block 50, the block is committed, and another process reads it. -/
def cacheRun : List (Fin 2 × CacheAction) :=
  (0, .beginOp) :: (0, .read (ROOTDEV, 50)) :: List.replicate 4 (0, .go) ++
    [(0, .modify 29 fun _ => 7), (0, .logWrite 29), (0, .release 29), (0, .go), (0, .endOp)] ++
    List.replicate 48 (0, .go) ++ (1, .read (ROOTDEV, 50)) :: List.replicate 2 (1, .go)

/-- The test for `LogsOutside`. -/
def logsOutside (la : LogArea) (s : CacheSys P) : P × CacheAction → Bool
  | (_, .logWrite i) => !decide (la.Has (s.buf i).block)
  | _ => true

theorem logsOutside_sound (h : logsOutside la s l = true) : LogsOutside la s l := by
  intro i hi
  obtain ⟨p, action⟩ := l
  obtain rfl : action = .logWrite i := hi
  simpa [logsOutside] using h

theorem read_returns_left_committed : ∃ s : CacheSys (Fin 2),
    s.output.map (fun o => (o.1, o.2.1, o.2.2 0)) = some (1, (ROOTDEV, 50), 7) ∧
      s.written (ROOTDEV, 50) 0 = 7 := by
  obtain ⟨s, hs, hout⟩ := Option.map_eq_some_iff.1 (show
    (execute (fun (s : CacheSys (Fin 2)) l => s.nextState ⟨2, 31⟩ l) (logsOutside ⟨2, 31⟩)
      (CacheSys.boot fun _ _ => 0) cacheRun).map
        (fun s => s.output.map fun o => (o.1, o.2.1, o.2.2 0)) = some (some (1, (ROOTDEV, 50), 7)) by
    decide +kernel)
  have hrun := Reachable.execute hs (.init (cacheInit_boot _))
  have hguarded : Reachable CacheInit (Guarded (LogsOutside ⟨2, 31⟩) (CacheStep ⟨2, 31⟩)) s :=
    hrun.mono fun _ _ _ h => ⟨logsOutside_sound h.1, h.2⟩
  have hfree : Reachable CacheInit (CacheStep ⟨2, 31⟩) s := hguarded.mono fun _ _ _ h => h.2
  refine ⟨s, hout, ?_⟩
  obtain ⟨⟨p, k, d⟩, ho, hd⟩ := Option.map_eq_some_iff.1 hout
  obtain ⟨rfl, rfl, hbyte⟩ : p = 1 ∧ k = (ROOTDEV, 50) ∧ d 0 = 7 := by
    simpa only [Prod.mk.injEq] using hd
  rw [← (read_returns_left ⟨2, 31⟩ s hfree).2.2 hguarded _ _ _ ho]
  exact hbyte

end Logical

end Octopos
