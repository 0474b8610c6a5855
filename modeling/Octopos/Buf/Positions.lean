import Octopos.Buf.Coherent

/-!
# The buffers of `commit`

`commit` holds the buffer of a log block and the one of the home block while it copies between them;
`CommitPc.Ok` is what it knows about them. The steps inside of `read` and `release` keep this and
the invariant of the cache (`CacheInv`).
-/

namespace Octopos

/-- The block that `commit` is about to read. -/
def CommitPc.target (la : LogArea) (header : List ℕ) : CommitPc → Option BlockId
  | .round _ n tail .first => if tail < n then some (la.block tail) else none
  | .round _ _ tail (.second _) => some (ROOTDEV, header.getD tail 0)
  | .head _ .read => some la.head
  | _ => none

/-- Number of blocks of the header that `install_trans` has unpinned. -/
def CommitPc.unpinned : CommitPc → ℕ
  | .round true _ tail (.drop1 _ _) => tail + 1
  | .round true _ tail (.drop2 _) => tail + 1
  | .round true _ tail _ => tail
  | .clear n => n
  | _ => 0

theorem CommitPc.unpinned_got (c : CommitPc) (i : Fin NBUF) : (c.got i).unpinned = c.unpinned := by
  cases c with
  | round install n tail pc => cases install <;> cases pc <;> rfl
  | head last pc => cases pc <;> rfl
  | _ => rfl

section Commit

variable {P : Type} {s s' : CacheSys P} {p q : P} {i j a b : Fin NBUF} {t : Option (Fin NBUF)}
  {k : BlockId} {la : LogArea} {c : CommitPc} {install : Bool} {n tail : ℕ}

def CacheSys.pins (s : CacheSys P) : List ℕ :=
  match s.commit with
  | some (_, c) => s.header.drop c.unpinned
  | none => s.header

theorem pins_of_none (h : s.commit = none) : s.pins = s.header := by
  unfold CacheSys.pins
  rw [h]

/-- `commit` holds the buffer of the log block and the one of the home block. -/
structure Pair (la : LogArea) (s : CacheSys P) (p : P) (tail : ℕ) (a b : Fin NBUF) : Prop where
  log : Held s p (la.block tail) a
  home : Held s p (ROOTDEV, s.header.getD tail 0) b
  ne : a ≠ b

theorem Pair.src (h : Pair la s p tail a b) (install : Bool) :
    s.holder (CacheSys.src install a b) = some p := by
  cases install
  · exact h.home.holder
  · exact h.log.holder

theorem src_ne_dst (hne : a ≠ b) (install : Bool) :
    CacheSys.src install a b ≠ CacheSys.dst install a b := by
  cases install
  · exact hne.symm
  · exact hne

theorem Pair.dst (h : Pair la s p tail a b) (install : Bool) :
    s.holder (CacheSys.dst install a b) = some p := by
  cases install
  · exact h.log.holder
  · exact h.home.holder

/-- What `commit` knows in a turn of a loop. -/
def RoundPc.Ok (la : LogArea) (s : CacheSys P) (p : P) (install : Bool) (tail : ℕ) : RoundPc → Prop
  | .first => True
  | .second a => Held s p (la.block tail) a ∧ s.dirty a = false ∧ (s.pc p).owns ≠ some a ∧ s.Fresh a
  | .copy a b => Pair la s p tail a b ∧ s.dirty a = false ∧ s.dirty b = false ∧ s.Fresh a ∧ s.Fresh b
  | .flush a b => Pair la s p tail a b ∧ s.dirty (CacheSys.src install a b) = false ∧
      s.Fresh (CacheSys.src install a b) ∧ (s.buf a).data = (s.buf b).data
  | .unpin a b => Pair la s p tail a b ∧ s.dirty a = false ∧ s.dirty b = false ∧ install = true ∧
      s.disk (s.buf b).block = (s.buf b).data ∧
      s.Fresh (CacheSys.src install a b) ∧ (s.buf a).data = (s.buf b).data
  | .drop1 a b => Pair la s p tail a b ∧ s.dirty a = false ∧ s.dirty b = false ∧
      s.Fresh (CacheSys.src install a b) ∧ (s.buf a).data = (s.buf b).data
  | .drop2 b => Held s p (ROOTDEV, s.header.getD tail 0) b ∧ s.dirty b = false ∧
      (install = false → s.Fresh b)

/-- What `commit` knows in `write_head`. -/
def HeadPc.Ok (la : LogArea) (s : CacheSys P) (p : P) : HeadPc → Prop
  | .read => True
  | .put a => Held s p la.head a
  | .flush a => Held s p la.head a
  | .drop a => Held s p la.head a ∧ s.dirty a = false

/-- What `commit` knows. -/
def CommitPc.Ok (la : LogArea) (s : CacheSys P) (p : P) : CommitPc → Prop
  | .start => True
  | .round install n tail pc => n = s.header.length ∧ tail ≤ n ∧ (pc ≠ .first → tail < n) ∧
      pc.Ok la s p install tail
  | .head _ pc => pc.Ok la s p
  | .clear n => n = s.header.length
  | .finish => True

theorem CommitPc.Ok.frame (h : c.Ok la s p) (hheader : s'.header = s.header)
    (hnone : c.target la s.header = none → (s.pc p).owns = none)
    (hsame : ∀ i, s.holder i = some p → (s.pc p).owns ≠ some i → s'.holder i = s.holder i ∧
      Untouched s s' i ∧ (s'.pc p).owns ≠ some i) : c.Ok la s' p := by
  have hheld {k : BlockId} {i : Fin NBUF} (hi : Held s p k i) (ho : (s.pc p).owns ≠ some i) : Held s' p k i :=
    hi.of_untouched (hsame i hi.holder ho).1 (hsame i hi.holder ho).2.1
  have hclean {k : BlockId} {i : Fin NBUF} (hi : Held s p k i) (ho : (s.pc p).owns ≠ some i) :
      s'.dirty i = s.dirty i :=
    (hsame i hi.holder ho).2.1.dirty
  cases c with
  | start => trivial
  | finish => trivial
  | clear n => exact h.trans (by rw [hheader])
  | head last pc =>
    cases pc with
    | read => trivial
    | put a => exact hheld h (by rw [hnone rfl]; simp)
    | flush a => exact hheld h (by rw [hnone rfl]; simp)
    | drop a =>
      have ho : (s.pc p).owns ≠ some a := by rw [hnone rfl]; simp
      exact ⟨hheld h.1 ho, (hclean h.1 ho).trans h.2⟩
  | round install n tail pc =>
    obtain ⟨hn, hle, hlt, hpc⟩ := h
    refine ⟨hn.trans (by rw [hheader]), hle, hlt, ?_⟩
    have hpair {a b : Fin NBUF} (h : Pair la s p tail a b) (ho : (s.pc p).owns = none) :
        Pair la s' p tail a b ∧ Untouched s s' a ∧ Untouched s s' b := by
      have hne (i : Fin NBUF) : (s.pc p).owns ≠ some i := by rw [ho]; simp
      refine ⟨⟨hheld h.log (hne a), ?_, h.ne⟩, (hsame a h.log.holder (hne a)).2.1,
        (hsame b h.home.holder (hne b)).2.1⟩
      rw [hheader]
      exact hheld h.home (hne b)
    have hsrc {a b : Fin NBUF} (ha : Untouched s s' a) (hb : Untouched s s' b) :
        Untouched s s' (CacheSys.src install a b) := by
      cases install
      · exact hb
      · exact ha
    cases pc with
    | first => trivial
    | second a =>
      obtain ⟨ha, hd, ho, hf⟩ := hpc
      exact ⟨hheld ha ho, (hclean ha ho).trans hd, (hsame a ha.holder ho).2.2,
        hf.of_untouched (hsame a ha.holder ho).2.1⟩
    | copy a b =>
      obtain ⟨hold, hca, hcb, hfa, hfb⟩ := hpc
      obtain ⟨hab, ha, hb⟩ := hpair hold (hnone rfl)
      exact ⟨hab, ha.dirty.trans hca, hb.dirty.trans hcb, hfa.of_untouched ha, hfb.of_untouched hb⟩
    | flush a b =>
      obtain ⟨hold, hclean, hf, hd⟩ := hpc
      obtain ⟨hab, ha, hb⟩ := hpair hold (hnone rfl)
      exact ⟨hab, (hsrc ha hb).dirty.trans hclean, hf.of_untouched (hsrc ha hb),
        ha.data.trans (hd.trans hb.data.symm)⟩
    | unpin a b =>
      obtain ⟨hold, hca, hcb, hinstall, hdisk, hf, hd⟩ := hpc
      obtain ⟨hab, ha, hb⟩ := hpair hold (hnone rfl)
      refine ⟨hab, ha.dirty.trans hca, hb.dirty.trans hcb, hinstall, ?_, hf.of_untouched (hsrc ha hb),
        ha.data.trans (hd.trans hb.data.symm)⟩
      rw [hb.block, hb.disk, hb.data]
      exact hdisk
    | drop1 a b =>
      obtain ⟨hold, hca, hcb, hf, hd⟩ := hpc
      obtain ⟨hab, ha, hb⟩ := hpair hold (hnone rfl)
      exact ⟨hab, ha.dirty.trans hca, hb.dirty.trans hcb, hf.of_untouched (hsrc ha hb),
        ha.data.trans (hd.trans hb.data.symm)⟩
    | drop2 b =>
      obtain ⟨hb, hcb, hf⟩ := hpc
      have ho : (s.pc p).owns ≠ some b := by rw [hnone rfl]; simp
      refine ⟨?_, (hclean hb ho).trans hcb, fun hi => (hf hi).of_untouched (hsame b hb.holder ho).2.1⟩
      rw [hheader]
      exact hheld hb ho

theorem CommitPc.Ok.got (h : c.Ok la s p) (h' : c.Ok la s' p) (hc : c.target la s.header = some k)
    (hheader : s'.header = s.header) (hi : Held s' p k i) (hclean : s'.dirty i = false)
    (hfresh : s'.Fresh i) (hown : (s.pc p).owns = some i) (hp : (s'.pc p).owns = none) :
    (c.got i).Ok la s' p := by
  cases c with
  | start => cases hc
  | finish => cases hc
  | clear n => cases hc
  | head last pc =>
    cases pc with
    | read =>
      cases hc
      exact hi
    | _ => cases hc
  | round install n tail pc =>
    cases pc with
    | first =>
      obtain ⟨hn, hle, -, -⟩ := h'
      rw [CommitPc.target] at hc
      split_ifs at hc with hlt
      cases hc
      exact ⟨hn, hle, fun _ => hlt, hi, hclean, by rw [hp]; simp, hfresh⟩
    | second a =>
      obtain ⟨hn, hle, hlt, ha, hda, -, hfa⟩ := h'
      obtain ⟨-, -, -, -, -, hne, -⟩ := h
      cases hc
      rw [← hheader] at hi
      refine ⟨hn, hle, fun _ => hlt (by simp), ⟨ha, hi, ?_⟩, hda, hclean, hfa, hfresh⟩
      rintro rfl
      exact hne hown
    | _ => cases hc

theorem Held.setData (h : Held s p k i) (j : Fin NBUF) (data : Bytes) :
    Held (s.setData j data) p k i := by
  refine ⟨h.holder, ?_⟩
  by_cases hij : i = j
  · subst hij
    exact (congrArg Buf.block (upd_self ..)).trans h.block
  · exact (congrArg Buf.block (upd_of_ne hij)).trans h.block

section Counted

variable [Fintype P]

/-- The invariant of the cache and of `commit`. -/
structure CacheInv (la : LogArea) (s : CacheSys P) : Prop where
  core : CacheCore s s.pins
  nodup : s.header.Nodup
  quiet : s.commit ≠ none → s.outstanding = 0
  target : ∀ p c, s.commit = some (p, c) → ∀ k, (s.pc p).reads = some k → c.target la s.header = some k
  commit : ∀ p c, s.commit = some (p, c) → c.Ok la s p
  output : ∀ p k d, s.output = some (p, k, d) → d = s.left k

section

variable (h : CacheInv la s)
include h

theorem CacheInv.owns_none (hc : s.commit = some (p, c)) (hnone : c.target la s.header = none) :
    (s.pc p).owns = none := by
  refine BufPc.owns_eq_none ?_
  cases hr : (s.pc p).reads with
  | none => rfl
  | some k =>
    have ht := h.target p c hc k hr
    rw [hnone] at ht
    cases ht

theorem CacheInv.step (hstep : StepOn p t s s') (hcore : CacheCore s' s'.pins)
    (hnodup : s'.header.Nodup) (hquiet : s'.commit ≠ none → s'.outstanding = 0)
    (hothers : ∀ q c, q ≠ p → s'.commit = some (q, c) → s.commit = some (q, c) ∧
      s'.header = s.header)
    (hself : ∀ c, s'.commit = some (p, c) → c.Ok la s' p ∧ ∀ k, (s'.pc p).reads = some k →
      c.target la s'.header = some k)
    (houtput : ∀ p k d, s'.output = some (p, k, d) → d = s'.left k) : CacheInv la s' := by
  refine ⟨hcore, hnodup, hquiet, fun q c hc k hk => ?_, fun q c hc => ?_, houtput⟩
  · by_cases hq : q = p
    · subst hq
      exact (hself c hc).2 k hk
    · obtain ⟨hold, hheader⟩ := hothers q c hq hc
      rw [hheader]
      rw [hstep.pc q hq] at hk
      exact h.target q c hold k hk
  · by_cases hq : q = p
    · subst hq
      exact (hself c hc).1
    · obtain ⟨hold, hheader⟩ := hothers q c hq hc
      refine (h.commit q c hold).frame hheader (h.owns_none hold) fun i hi ho => ?_
      rw [hstep.pc q hq]
      exact ⟨hstep.holder i (hstep.ne hq hi), hstep.untouched hq hi, ho⟩

theorem CacheInv.step_inside (hstep : StepOn p t s s') (hcore : CacheCore s' s.pins)
    (hheader : s'.header = s.header) (hcommit : s'.commit = s.commit)
    (houtstanding : s'.outstanding = s.outstanding) (houtput : s'.output = none)
    (hown : ∀ i, t = some i → s.holder i = some p → (s.pc p).owns = some i)
    (howns : ∀ i, (s'.pc p).owns = some i → s.holder i = some p → (s.pc p).owns = some i)
    (htarget : ∀ c, s.commit = some (p, c) → ∀ k, (s'.pc p).reads = some k →
      c.target la s.header = some k) : CacheInv la s' := by
  have hpins : s'.pins = s.pins := by
    unfold CacheSys.pins
    rw [hheader, hcommit]
  refine h.step hstep (by rw [hpins]; exact hcore) (by rw [hheader]; exact h.nodup) ?_ ?_ ?_ ?_
  · rw [hcommit, houtstanding]
    exact h.quiet
  · intro q c _ hc
    exact ⟨hcommit.symm.trans hc, hheader⟩
  · intro c hc
    rw [hcommit] at hc
    rw [hheader]
    refine ⟨(h.commit p c hc).frame hheader (h.owns_none hc) fun i hi ho => ?_, htarget c hc⟩
    have hti : t ≠ some i := fun ht => ho (hown i ht hi)
    exact ⟨hstep.holder i hti, hstep.same i p hti hi, fun ho' => ho (howns i ho' hi)⟩
  · intro q k d hq
    rw [houtput] at hq
    cases hq

/-- A step of `p` outside of `read`, `release` and `commit` that does not change the log. -/
theorem CacheInv.step_outside (hstep : StepOn p t s s') (hcore : CacheCore s' s.pins)
    (hheader : s'.header = s.header) (hcommit : s'.commit = s.commit)
    (houtstanding : s'.commit ≠ none → s'.outstanding = 0) (houtput : s'.output = none)
    (hp : ∀ c, s.commit ≠ some (p, c)) : CacheInv la s' := by
  have hpins : s'.pins = s.pins := by
    unfold CacheSys.pins
    rw [hheader, hcommit]
  refine h.step hstep (by rw [hpins]; exact hcore) (by rw [hheader]; exact h.nodup) houtstanding ?_ ?_ ?_
  · intro q c _ hc
    exact ⟨hcommit.symm.trans hc, hheader⟩
  · intro c hc
    exact absurd (hcommit.symm.trans hc) (hp c)
  · intro q k d hq
    rw [houtput] at hq
    cases hq

theorem CacheInv.step_commit (hstep : StepOn p t s s') (hcore : CacheCore s' s'.pins)
    (hnodup : s'.header.Nodup) {c c' : CommitPc} (hc : s.commit = some (p, c))
    (hc' : s'.commit = some (p, c')) (houtstanding : s'.outstanding = s.outstanding)
    (houtput : s'.output = none) (hp : (s'.pc p).reads = none) (hok : c'.Ok la s' p) :
    CacheInv la s' := by
  refine h.step hstep hcore hnodup ?_ ?_ ?_ ?_
  · intro _
    rw [houtstanding]
    exact h.quiet (by rw [hc]; simp)
  · intro q c'' hq hq'
    rw [hc'] at hq'
    exact absurd (congrArg Prod.fst (Option.some.inj hq')).symm hq
  · intro c'' hc''
    rw [hc'] at hc''
    obtain rfl := congrArg Prod.snd (Option.some.inj hc'')
    refine ⟨hok, fun k hk => ?_⟩
    rw [hp] at hk
    cases hk
  · intro q k d hq
    rw [houtput] at hq
    cases hq

theorem CacheInv.setCommit {c' : CommitPc} (hc : s.commit = some (p, c)) (hstep : StepOn p t s s')
    (hcore : CacheCore s' (s.header.drop c'.unpinned)) (hheader : s'.header = s.header)
    (houtstanding : s'.outstanding = s.outstanding) (houtput : s'.output = none)
    (hp : (s'.pc p).reads = none) (hok : c'.Ok la s' p) : CacheInv la (s'.setCommit p c') := by
  have hsame : SameCache s' (s'.setCommit p c') := ⟨rfl, rfl, rfl, rfl, rfl, rfl⟩
  have hpins : (s'.setCommit p c').pins = s.header.drop c'.unpinned := by
    rw [← hheader]
    rfl
  refine h.step_commit (hstep.same_right hsame) (by rw [hpins]; exact hcore.same hsame)
    (hheader.symm ▸ h.nodup) hc rfl houtstanding houtput hp ?_
  refine hok.frame rfl (fun _ => BufPc.owns_eq_none hp) fun i _ ho => ?_
  exact ⟨rfl, ⟨rfl, rfl, rfl, rfl, rfl, rfl⟩, ho⟩

theorem CacheInv.core_at (hc : s.commit = some (p, c)) :
    CacheCore s (s.header.drop c.unpinned) := by
  have hcore := h.core
  unfold CacheSys.pins at hcore
  rw [hc] at hcore
  exact hcore

end

end Counted

section Steps

theorem block_of_find (hi : s.find k = some i) : (s.buf i).block = k := by
  simpa using List.find?_some hi

theorem block_ne_of_find (hk : s.find k = none) (j : Fin NBUF) : (s.buf j).block ≠ k := by
  have hj := List.find?_eq_none.1 hk j (List.mem_finRange j)
  simpa using hj

/-- `get` finds the head of the list before the buffers that were never used. -/
theorem ne_spare_of_find (hhead : (s.buf CacheSys.head).block = (0, 0)) (hi : s.find k = some i) :
    i = CacheSys.head ∨ (s.buf i).block ≠ (0, 0) := by
  by_contra hne
  rw [not_or, not_not, block_of_find hi] at hne
  have hlist : List.finRange NBUF = CacheSys.head :: (List.finRange 29).map Fin.succ :=
    List.finRange_succ
  have hfirst : s.find k = some CacheSys.head := by
    unfold CacheSys.find
    rw [hlist, List.find?_cons_of_pos]
    simp [hhead, hne.2]
  rw [hfirst] at hi
  exact hne.1 (Option.some.inj hi).symm

theorem ref_of_recycle {fuel : ℕ} (hi : s.recycle fuel j = some i) :
    i ≠ CacheSys.head ∧ (s.buf i).ref = 0 := by
  induction fuel generalizing j with
  | zero => cases hi
  | succ fuel ih =>
    rw [CacheSys.recycle] at hi
    by_cases hj : j = CacheSys.head
    · rw [if_pos hj] at hi
      cases hi
    · rw [if_neg hj] at hi
      by_cases hr : (s.buf j).ref = 0
      · rw [if_pos hr] at hi
        cases hi
        exact ⟨hj, hr⟩
      · rw [if_neg hr] at hi
        exact ih hi

variable [DecidableEq P]

theorem commit_returns {q : P} (hc : (s.returns p k i).commit = some (q, c)) :
    ∃ c', s.commit = some (q, c') ∧ c = if q = p then c'.got i else c' := by
  have hmap : s.commit.map (fun c => if c.1 = p then (p, c.2.got i) else c) = some (q, c) := hc
  obtain ⟨⟨r, c'⟩, hr, he⟩ := Option.map_eq_some_iff.1 hmap
  dsimp only at he
  by_cases hrp : r = p
  · rw [if_pos hrp] at he
    obtain ⟨rfl, rfl⟩ := Prod.mk.inj he
    exact ⟨c', by rw [hr, hrp], by rw [if_pos rfl]⟩
  · rw [if_neg hrp] at he
    obtain ⟨rfl, rfl⟩ := Prod.mk.inj he
    exact ⟨c', hr, by rw [if_neg hrp]⟩

theorem pins_returns (s : CacheSys P) (p : P) (k : BlockId) (i : Fin NBUF) :
    (s.returns p k i).pins = s.pins := by
  unfold CacheSys.pins CacheSys.returns
  dsimp only
  cases s.commit with
  | none => rfl
  | some x =>
    rw [Option.map_some]
    by_cases hq : x.1 = p
    · rw [if_pos hq]
      dsimp only
      rw [CommitPc.unpinned_got]
      rfl
    · rw [if_neg hq]
      rfl

variable [Fintype P]

section

variable (h : CacheInv la s)
include h

theorem CacheInv.get (hp : s.pc p = .run) (ho : s.output = none)
    (htarget : ∀ c, s.commit = some (p, c) → c.target la s.header = some k)
    (hget : s.get p k = some s') : CacheInv la s' := by
  have howns (i j : Fin NBUF) (hi : (BufPc.lock k j).owns = some i) :
      s.holder i = some p → (s.pc p).owns = some i := by
    cases hi
  have hreads (i : Fin NBUF) : ∀ c, s.commit = some (p, c) → ∀ k', (BufPc.lock k i).reads = some k' →
      c.target la s.header = some k' := by
    intro c hc k' hk'
    obtain rfl := Option.some.inj hk'
    exact htarget c hc
  unfold CacheSys.get at hget
  cases hfind : s.find k with
  | some i =>
    rw [hfind] at hget
    cases hget
    have hspare : i = CacheSys.head ∨ (s.buf i).block ≠ (0, 0) :=
      ne_spare_of_find h.core.refs.head hfind
    obtain rfl := block_of_find hfind
    refine h.step_inside ((stepOn_setRef s p i _).goto _) (h.core.hit hp hspare) rfl rfl rfl ho ?_ ?_ ?_
    · intro j hj
      cases hj
    · rw [goto_pc]
      exact fun j hj => howns j i hj
    · rw [goto_pc]
      exact hreads i
  | none =>
    rw [hfind] at hget
    cases hrec : s.recycle NBUF (s.prev CacheSys.head) with
    | none =>
      rw [hrec] at hget
      cases hget
    | some i =>
      rw [hrec] at hget
      cases hget
      obtain ⟨hi, hzero⟩ := ref_of_recycle hrec
      have hnone := h.core.refs.holder_none hzero
      refine h.step_inside (stepOn_miss hnone hzero)
        (h.core.miss hp hi hzero (block_ne_of_find hfind)) rfl rfl rfl ho ?_ ?_ ?_
      · intro j hj hholder
        cases hj
        rw [hnone] at hholder
        cases hholder
      · rw [goto_pc]
        exact fun j hj => howns j i hj
      · rw [goto_pc]
        exact hreads i

theorem CacheInv.lock (hp : s.pc p = .lock k i) (ho : s.output = none) (hi : s.holder i = none) :
    CacheInv la ({ s with holder := upd s.holder i (some p) }.goto p (.check k i)) := by
  have hself (j : Fin NBUF) (hj : some i = some j) (hholder : s.holder j = some p) : (s.pc p).owns = some j := by
    cases hj
    rw [hi] at hholder
    cases hholder
  refine h.step_inside (stepOn_lock hi _) (h.core.lock hp hi) rfl rfl rfl ho hself ?_ ?_
  · rw [goto_pc]
    exact hself
  · rw [goto_pc]
    intro c hc k' hk'
    exact h.target p c hc k' (by rw [hp]; exact hk')

theorem CacheInv.request (hp : s.pc p = .check k i) (ho : s.output = none)
    (hv : (s.buf i).valid = false) : CacheInv la (s.goto p (.load k i)) := by
  refine h.step_inside ((stepOn_refl s p).goto _) (h.core.request hp hv) rfl rfl rfl ho ?_ ?_ ?_
  · intro j hj
    cases hj
  · rw [goto_pc, hp]
    exact fun j hj _ => hj
  · rw [goto_pc]
    intro c hc k' hk'
    exact h.target p c hc k' (by rw [hp]; exact hk')

theorem CacheInv.load (hp : s.pc p = .load k i) (ho : s.output = none) :
    CacheInv la ((s.setBuf i { s.buf i with data := s.disk (s.buf i).block }).goto p
        (.fill k i)) := by
  have hok := h.core.pcs p
  rw [hp] at hok
  refine h.step_inside ((stepOn_setBuf hok.1.holder (by rfl)).goto _) (h.core.load hp) rfl rfl rfl ho ?_ ?_ ?_
  · intro j hj _
    rw [hp]
    exact hj
  · rw [goto_pc, hp]
    exact fun j hj _ => hj
  · rw [goto_pc]
    intro c hc k' hk'
    exact h.target p c hc k' (by rw [hp]; exact hk')

theorem CacheInv.unref (hp : s.pc p = .unref i) (ho : s.output = none) :
    CacheInv la (s.unref p i) := by
  have hcore := h.core.unref hp
  have hstep : StepOn p none s ((s.setBuf i { s.buf i with ref := (s.buf i).ref - 1 }).goto p .run) :=
    (stepOn_setRef s p i _).goto _
  have hsame : SameCache ((s.setBuf i { s.buf i with ref := (s.buf i).ref - 1 }).goto p .run) (s.unref p i) := by
    unfold CacheSys.unref
    dsimp only
    split <;> exact ⟨rfl, rfl, rfl, rfl, rfl, rfl⟩
  have hlog : (s.unref p i).header = s.header ∧ (s.unref p i).commit = s.commit ∧
      (s.unref p i).outstanding = s.outstanding ∧ (s.unref p i).output = s.output := by
    unfold CacheSys.unref
    dsimp only
    split <;> exact ⟨rfl, rfl, rfl, rfl⟩
  obtain ⟨hheader, hcommit, hout, houtput⟩ := hlog
  have hrun : (s.unref p i).pc p = .run := by
    rw [hsame.pc, goto_pc]
  refine h.step_inside (hstep.same_right hsame) (hcore.same hsame) hheader hcommit hout (houtput.trans ho) ?_ ?_ ?_
  · intro j hj
    cases hj
  · rw [hrun]
    intro j hj
    cases hj
  · rw [hrun]
    intro c _ k' hk'
    cases hk'

theorem CacheInv.returns (hstep : StepOn p t s s') (hcore : CacheCore (s'.goto p .run) s.pins)
    (hheader : s'.header = s.header) (hcommit : s'.commit = s.commit)
    (houtstanding : s'.outstanding = s.outstanding) (hown : ∀ j, t = some j → j = i)
    (howns : (s.pc p).owns = some i) (hreads : (s.pc p).reads = some k) (hi : Held s' p k i)
    (hclean : s'.dirty i = false) (hdata : (s'.buf i).data = s'.left k) :
    CacheInv la (s'.returns p k i) := by
  have hsame : SameCache (s'.goto p .run) (s'.returns p k i) := ⟨rfl, rfl, rfl, rfl, rfl, rfl⟩
  have hon := (hstep.goto .run).same_right hsame
  have hrun : (s'.returns p k i).pc p = .run := upd_self ..
  have hpins : (s'.returns p k i).pins = s.pins := by
    rw [pins_returns]
    unfold CacheSys.pins
    rw [hcommit, hheader]
  refine h.step hon (by rw [hpins]; exact hcore.same hsame) (hheader.symm ▸ h.nodup) ?_ ?_ ?_ ?_
  · intro hc
    obtain ⟨⟨q, c⟩, hq⟩ := Option.ne_none_iff_exists'.1 hc
    obtain ⟨c', hc', -⟩ := commit_returns hq
    refine houtstanding.trans (h.quiet ?_)
    rw [← hcommit, hc']
    simp
  · intro q c hq hc
    obtain ⟨c', hc', rfl⟩ := commit_returns hc
    rw [if_neg hq]
    exact ⟨hcommit.symm.trans hc', hheader⟩
  · intro c hc
    obtain ⟨c', hc', rfl⟩ := commit_returns hc
    rw [hcommit] at hc'
    rw [if_pos rfl, hrun]
    refine ⟨?_, fun k' hk' => by cases hk'⟩
    have hok := h.commit p c' hc'
    have hfresh : (s'.returns p k i).Fresh i := by
      refine hdata.trans ?_
      rw [← hi.block]
      rfl
    have hframe : c'.Ok la (s'.returns p k i) p := by
      refine hok.frame hheader (h.owns_none hc') fun j hj ho => ?_
      have ht : t ≠ some j := by
        intro ht
        rw [hown j ht] at ho
        exact ho howns
      exact ⟨hon.holder j ht, hon.same j p ht hj, by rw [hrun]; exact fun he => by cases he⟩
    exact hok.got hframe (h.target p c' hc' k hreads) hheader ⟨hi.holder, hi.block⟩ hclean hfresh howns
      (by rw [hrun]; rfl)
  · intro q k' d hd
    have hd' : some (p, k, (s'.buf i).data) = some (q, k', d) := hd
    cases hd'
    exact hdata

theorem CacheInv.check (hp : s.pc p = .check k i) (hv : (s.buf i).valid = true) :
    CacheInv la (s.returns p k i) := by
  have hok := h.core.pcs p
  rw [hp] at hok
  obtain ⟨hheld, hclean, hleft⟩ := hok
  refine h.returns (stepOn_refl s p) (h.core.check hp hv) rfl rfl rfl ?_ (by rw [hp]; rfl)
    (by rw [hp]; rfl) hheld hclean (hleft hv)
  intro j hj
  cases hj

theorem CacheInv.fill (hp : s.pc p = .fill k i) :
    CacheInv la ((s.setBuf i { s.buf i with valid := true }).returns p k i) := by
  have hok := h.core.pcs p
  rw [hp] at hok
  obtain ⟨hheld, hclean, hv, hdisk⟩ := hok
  have hself : upd s.buf i { s.buf i with valid := true } i = { s.buf i with valid := true } :=
    upd_self ..
  refine h.returns (stepOn_setBuf hheld.holder (by rfl)) (h.core.fill hp) rfl rfl rfl ?_
    (by rw [hp]; rfl) (by rw [hp]; rfl) ⟨hheld.holder, (congrArg Buf.block hself).trans hheld.block⟩
    hclean ?_
  · intro j hj
    exact (Option.some.inj hj).symm
  · refine (congrArg Buf.data hself).trans (hdisk.trans ?_)
    exact h.core.disk_eq_left hheld hv

end

end Steps

end Commit

end Octopos
