import Octopos.Log.Commit

/-!
# Crash atomicity of the log

Fix a transaction: the in-memory header of a machine `t` about to commit. A disk is *recoverable* to
given contents of the home blocks if its header is empty and the home blocks hold them, or if the
header and the log area hold the transaction and the contents are the new ones. Every disk on which
`commit` or `recover_from_log` can stop is recoverable (`commit_wp`, `recoverFromLog_wp`), the
former to the new contents exactly when the header was written.
-/

namespace Octopos

/-- A transaction ready to be committed: distinct home blocks outside the log area, and an empty
header on the disk. -/
structure Pending (start : ℕ) (t : LogMachine) : Prop where
  fits : t.n.toNat ≤ LOGBLOCKS
  distinct : ∀ i < t.n.toNat, ∀ j < t.n.toNat, t.home i = t.home j → i = j
  outside : ∀ i < t.n.toNat, t.home i < start ∨ start + LOGBLOCKS < t.home i
  empty : headerN (t.disk start) = 0

section Crash

variable (start : ℕ) (t : LogMachine)

/-- The home blocks hold the contents `v`. -/
def Holds (v : ℕ → Bytes) (d : Disk) : Prop := ∀ i < t.n.toNat, d (t.home i) = v i

/-- The contents of the home blocks before the commit. -/
def oldContents (i : ℕ) : Bytes := t.disk (t.home i)

/-- The contents of the home blocks in the cache. -/
def newContents (i : ℕ) : Bytes := t.buf (t.home i)

/-- The transaction is on the disk: in the header and in the log area. -/
structure Committed (d : Disk) : Prop where
  count : headerN (d start) = t.n
  block : ∀ i < t.n.toNat, headerBlock (d start) i = t.blocks i
  logged : ∀ i < t.n.toNat, d (start + i + 1) = newContents t i

/-- Recovery from `d` gives the home blocks the contents `v`. -/
def Recoverable (v : ℕ → Bytes) (d : Disk) : Prop :=
  headerN (d start) = 0 ∧ Holds t v d ∨ v = newContents t ∧ Committed start t d

end Crash

section Write

variable {E : Stop → Prop} {Q : PUnit → LogMachine → Prop} {s s' : LogMachine} {start i : ℕ}
variable {dst b : ℕ} {v : Bytes}

/-- One disk write: `v` reaches block `dst` in the cache and on the disk. -/
structure Stored (s s' : LogMachine) (dst : ℕ) (v : Bytes) : Prop where
  disk : s'.disk = Function.update s.disk dst v
  buf : s'.buf = Function.update s.buf dst v
  n : s'.n = s.n
  blocks : s'.blocks = s.blocks
  budget : s'.budget = s.budget.map (· - 1)

theorem Stored.disk_of_ne {x : ℕ} (h : Stored s s' dst v) (hx : x ≠ dst) :
    s'.disk x = s.disk x := by
  rw [h.disk, Function.update_of_ne hx]

theorem Stored.disk_self (h : Stored s s' dst v) : s'.disk dst = v := by
  rw [h.disk, Function.update_self]

theorem Stored.buf_of_ne {x : ℕ} (h : Stored s s' dst v) (hx : x ≠ dst) : s'.buf x = s.buf x := by
  rw [h.buf, Function.update_of_ne hx]

theorem buf_fill (s : LogMachine) (b : ℕ) (v : Bytes) :
    (s.fill b v).buf = Function.update s.buf b v := by
  funext x
  by_cases hx : x = b
  · subst hx; simp [LogMachine.buf, LogMachine.fill]
  · simp [LogMachine.buf, LogMachine.fill, hx]

@[simp] theorem buf_fill_self (s : LogMachine) (b : ℕ) : (s.fill b (s.buf b)).buf = s.buf := by
  rw [buf_fill, Function.update_eq_self]

/-- A buffer that is filled and then written is stored, unless the power fails first. -/
theorem wp_setData_bwrite (hcrash : s.budget = some 0 → E (.crash s.disk))
    (hwrite : s.budget ≠ some 0 → ∀ s', Stored s s' b v → Q ⟨⟩ s') :
    wp (do setData b v; bwrite b) Q E s := by
  rw [wp_bind, setData, wp_modify, bwrite, wp_bind, wp_get]
  refine wp_ite (fun h => hcrash h) fun h => hwrite h _ ⟨?_, ?_, rfl, rfl, rfl⟩
  · simp only [buf_fill, Function.update_self]
    rfl
  · funext x
    by_cases hx : x = b
    · subst hx; simp [LogMachine.buf, LogMachine.fill]
    · simp [LogMachine.buf, LogMachine.fill, hx]

theorem wp_bread {Q : Bytes → LogMachine → Prop} :
    wp (bread b) Q E s ↔ Q (s.buf b) (s.fill b (s.buf b)) := Iff.rfl

theorem Stored.of_bread (h : Stored (s.fill b (s.buf b)) s' dst v) : Stored s s' dst v :=
  ⟨h.disk, by rw [h.buf, buf_fill_self], h.n, h.blocks, h.budget⟩

theorem writeLogBlock_wp (hi : i < LOGBLOCKS) (hcrash : s.budget = some 0 → E (.crash s.disk))
    (hwrite : s.budget ≠ some 0 → ∀ s', Stored s s' (start + i + 1) (s.buf (s.home i)) → Q ⟨⟩ s') :
    wp (writeLogBlock start i) Q E s := by
  unfold writeLogBlock
  rw [wp_bind, wp_get]
  refine wp_ite (fun h => absurd hi (by omega)) fun _ => ?_
  rw [wp_bind, wp_bread, wp_bind, wp_bread]
  refine wp_setData_bwrite hcrash fun h s' hs' => hwrite h s' ?_
  have hs := hs'.of_bread.of_bread
  rwa [buf_fill_self] at hs

theorem installBlock_wp (hi : i < LOGBLOCKS) (hcrash : s.budget = some 0 → E (.crash s.disk))
    (hwrite : s.budget ≠ some 0 → ∀ s', Stored s s' (s.home i) (s.buf (start + i + 1)) → Q ⟨⟩ s') :
    wp (installBlock start i) Q E s := by
  unfold installBlock
  rw [wp_bind, wp_get]
  refine wp_ite (fun h => absurd hi (by omega)) fun _ => ?_
  rw [wp_bind, wp_bread, wp_bind, wp_bread]
  exact wp_setData_bwrite hcrash fun h s' hs' => hwrite h s' hs'.of_bread.of_bread

theorem writeHead_wp (hn : s.n.toNat ≤ LOGBLOCKS) (hcrash : s.budget = some 0 → E (.crash s.disk))
    (hwrite : s.budget ≠ some 0 → ∀ s', Stored s s' start (putHeader (s.buf start) s.n s.blocks) →
      Q ⟨⟩ s') : wp (writeHead start) Q E s := by
  unfold writeHead
  rw [wp_bind, wp_bread, wp_bind, wp_get]
  refine wp_ite (fun h => absurd hn (not_le.mpr h)) fun _ => ?_
  exact wp_setData_bwrite hcrash fun h s' hs' => hwrite h s' hs'.of_bread

theorem clearHead_wp (hcrash : s.budget = some 0 → E (.crash s.disk))
    (hwrite : ∀ s', headerN (s'.disk start) = 0 → (∀ x ≠ start, s'.disk x = s.disk x) → Q ⟨⟩ s') :
    wp (clearHead start) Q E s := by
  unfold clearHead
  rw [wp_bind, wp_modify]
  refine writeHead_wp (by simp) hcrash fun _ s' hs' => hwrite s' ?_ ?_
  · rw [hs'.disk_self, headerN_putHeader]
  · exact fun x hx => hs'.disk_of_ne hx

end Write

section Phases

variable {start : ℕ} {t s s' : LogMachine} {k : ℕ} {d : Disk}

/-- The machine has read the committed transaction back, or has never lost it. -/
structure Loaded (start : ℕ) (t s : LogMachine) : Prop where
  n : s.n = t.n
  blocks : ∀ i < t.n.toNat, s.blocks i = t.blocks i
  committed : Committed start t s.disk
  logged : ∀ i < t.n.toNat, s.buf (start + i + 1) = newContents t i

section

variable (ht : Pending start t)
include ht

theorem Pending.home_ne_start {i : ℕ} (hi : i < t.n.toNat) : t.home i ≠ start := by
  have := ht.outside i hi
  omega

theorem Pending.home_ne_log {i j : ℕ} (hi : i < t.n.toNat) (hj : j < t.n.toNat) :
    t.home i ≠ start + j + 1 := by
  have := ht.outside i hi
  have := ht.fits
  omega

theorem Loaded.install (h : Loaded start t s) {i : ℕ} (hi : i < t.n.toNat)
    (hs : Stored s s' (s.home i) (s.buf (start + i + 1))) : Loaded start t s' := by
  have hhome : s.home i = t.home i := by rw [LogMachine.home, LogMachine.home, h.blocks i hi]
  rw [hhome] at hs
  have hstart : s'.disk start = s.disk start := hs.disk_of_ne (ht.home_ne_start hi).symm
  refine ⟨hs.n.trans h.n, fun j hj => by rw [hs.blocks, h.blocks j hj], ⟨?_, ?_, ?_⟩, ?_⟩
  · rw [hstart, h.committed.count]
  · intro j hj
    rw [hstart, h.committed.block j hj]
  · intro j hj
    rw [hs.disk_of_ne (ht.home_ne_log hi hj).symm, h.committed.logged j hj]
  · intro j hj
    rw [hs.buf_of_ne (ht.home_ne_log hi hj).symm, h.logged j hj]

/-- `install_trans` brings the new contents home; until it is done the transaction is on the
disk. -/
theorem installTrans_wp (h : Loaded start t s) :
    wp (installTrans start) (fun _ s' => Committed start t s'.disk ∧
      Holds t (newContents t) s'.disk) (fun e => ∃ d, e = .crash d ∧ Committed start t d) s := by
  unfold installTrans
  rw [wp_bind, wp_get, h.n]
  refine wp_mono (wp_forM_range (I := fun i s => Loaded start t s ∧
    ∀ j < i, s.disk (t.home j) = newContents t j) ?_ ⟨h, by simp⟩) ?_ fun _ h => h
  · rintro i hi s ⟨h, hdone⟩
    have hfit := ht.fits
    refine installBlock_wp (by omega) (fun _ => ⟨_, rfl, h.committed⟩) fun _ s' hs' => ?_
    refine ⟨h.install ht hi hs', fun j hj => ?_⟩
    have hhome : s.home i = t.home i := by rw [LogMachine.home, LogMachine.home, h.blocks i hi]
    rw [hhome, h.logged i hi] at hs'
    by_cases hji : j = i
    · rw [hji, hs'.disk_self]
    · rw [hs'.disk_of_ne, hdone j (by omega)]
      exact fun e => hji (ht.distinct j (by omega) i hi e)
  · rintro _ s ⟨h, hdone⟩
    exact ⟨h.committed, hdone⟩

theorem clearHead_installed_wp (hc : Committed start t s.disk)
    (hnew : Holds t (newContents t) s.disk) :
    wp (clearHead start) (fun _ s' => headerN (s'.disk start) = 0 ∧
      Holds t (newContents t) s'.disk) (fun e => ∃ d, e = .crash d ∧ Committed start t d) s := by
  refine clearHead_wp (fun _ => ⟨_, rfl, hc⟩) fun s' h0 hs' => ⟨h0, fun i hi => ?_⟩
  rw [hs' _ (ht.home_ne_start hi), hnew i hi]

theorem install_clear_wp (h : Loaded start t s) :
    wp (do installTrans start; clearHead start)
      (fun _ s' => headerN (s'.disk start) = 0 ∧ Holds t (newContents t) s'.disk)
      (fun e => ∃ d, e = .crash d ∧ Committed start t d) s := by
  rw [wp_bind]
  refine wp_mono (installTrans_wp ht h) (fun _ s' hs' => ?_) fun _ h => h
  exact clearHead_installed_wp ht hs'.1 hs'.2

end

/-! ## Before the header is written -/

/-- `write_log` after `i` rounds: the first `i` new contents are in the log area, and nothing else
changed on the disk. -/
structure Logging (start : ℕ) (t : LogMachine) (k i : ℕ) (s : LogMachine) : Prop where
  n : s.n = t.n
  blocks : s.blocks = t.blocks
  header : headerN (s.disk start) = 0
  old : Holds t (oldContents t) s.disk
  cached : ∀ j < t.n.toNat, s.buf (t.home j) = newContents t j
  disk : ∀ j < i, s.disk (start + j + 1) = newContents t j
  buf : ∀ j < i, s.buf (start + j + 1) = newContents t j
  budget : ∃ b, s.budget = some b ∧ b + i = k

theorem Logging.zero (ht : Pending start t) (k : ℕ) :
    Logging start t k 0 { t with budget := some k } where
  n := rfl
  blocks := rfl
  header := ht.empty
  old := fun _ _ => rfl
  cached := fun _ _ => rfl
  disk := by simp
  buf := by simp
  budget := ⟨k, rfl, rfl⟩

theorem Logging.succ (ht : Pending start t) {i : ℕ} (hi : i < t.n.toNat)
    (h : Logging start t k i s) (hb : s.budget ≠ some 0)
    (hs : Stored s s' (start + i + 1) (s.buf (s.home i))) : Logging start t k (i + 1) s' := by
  have hhome : s.home i = t.home i := by rw [LogMachine.home, LogMachine.home, h.blocks]
  rw [hhome, h.cached i hi] at hs
  refine ⟨hs.n.trans h.n, hs.blocks.trans h.blocks, ?_, ?_, ?_, ?_, ?_, ?_⟩
  · rw [hs.disk_of_ne (by omega), h.header]
  · intro j hj
    rw [hs.disk_of_ne (ht.home_ne_log hj hi), h.old j hj]
  · intro j hj
    rw [hs.buf_of_ne (ht.home_ne_log hj hi), h.cached j hj]
  · intro j hj
    by_cases hji : j = i
    · rw [hji, hs.disk_self]
    · rw [hs.disk_of_ne (by omega), h.disk j (by omega)]
  · intro j hj
    by_cases hji : j = i
    · rw [hji, hs.buf, Function.update_self]
    · rw [hs.buf_of_ne (by omega), h.buf j (by omega)]
  · obtain ⟨b, hsb, hbk⟩ := h.budget
    have hb0 : b ≠ 0 := fun h0 => hb (h0 ▸ hsb)
    exact ⟨b - 1, by rw [hs.budget, hsb]; rfl, by omega⟩

theorem Logging.crash {i : ℕ} (h : Logging start t k i s) (hi : i ≤ t.n.toNat)
    (hb : s.budget = some 0) : Recoverable start t (oldContents t) s.disk ∧ k ≤ t.n.toNat := by
  obtain ⟨b, hsb, hbk⟩ := h.budget
  have hb0 : b = 0 := Option.some.inj (hsb.symm.trans hb)
  exact ⟨Or.inl ⟨h.header, h.old⟩, by omega⟩

theorem writeLog_wp (ht : Pending start t) (k : ℕ) :
    wp (writeLog start) (fun _ s' => Logging start t k t.n.toNat s') (fun e => ∃ d, e = .crash d ∧
      Recoverable start t (oldContents t) d ∧ k ≤ t.n.toNat) { t with budget := some k } := by
  unfold writeLog
  rw [wp_bind, wp_get]
  refine wp_forM_range (I := Logging start t k) (fun i hi s h => ?_) (Logging.zero ht k)
  change i < t.n.toNat at hi
  have hfit := ht.fits
  exact writeLogBlock_wp (by omega) (fun hb => ⟨_, rfl, h.crash hi.le hb⟩) fun hb s' hs' => h.succ ht hi hb hs'

theorem Logging.commit (h : Logging start t k t.n.toNat s)
    (hs : Stored s s' start (putHeader (s.buf start) s.n s.blocks)) : Loaded start t s' := by
  rw [h.n, h.blocks] at hs
  refine ⟨hs.n.trans h.n, fun i _ => by rw [hs.blocks, h.blocks], ⟨?_, ?_, ?_⟩, ?_⟩
  · rw [hs.disk_self, headerN_putHeader]
  · intro i hi
    rw [hs.disk_self, headerBlock_putHeader _ _ hi]
  · intro i hi
    rw [hs.disk_of_ne (by omega), h.disk i hi]
  · intro i hi
    rw [hs.buf_of_ne (by omega), h.buf i hi]

/-! ## Whole runs -/

/-- A commit interrupted after `k` disk writes leaves the old or the new contents, and the new ones
once the header is written. -/
def CommitOutcome (start : ℕ) (t : LogMachine) (k : ℕ) (d : Disk) : Prop :=
  ∃ v, (v = oldContents t ∨ v = newContents t) ∧ (t.n.toNat < k → v = newContents t) ∧
    Recoverable start t v d

theorem CommitOutcome.new (h : Recoverable start t (newContents t) d) : CommitOutcome start t k d :=
  ⟨_, Or.inr rfl, fun _ => rfl, h⟩

theorem CommitOutcome.old (h : Recoverable start t (oldContents t) d ∧ k ≤ t.n.toNat) :
    CommitOutcome start t k d :=
  ⟨_, Or.inl rfl, fun hk => absurd h.2 (by omega), h.1⟩

theorem commit_wp (ht : Pending start t) (k : ℕ) :
    wp (commit start) (fun _ s' => CommitOutcome start t k s'.disk) (fun e => ∃ d, e = .crash d ∧
      CommitOutcome start t k d) { t with budget := some k } := by
  unfold commit
  rw [wp_bind, wp_get]
  refine wp_ite (fun _ => ?_) fun hn => ?_
  · rw [wp_bind]
    refine wp_mono (writeLog_wp ht k) (fun _ s hlog => ?_) ?_
    · rw [wp_bind]
      refine writeHead_wp (hlog.n ▸ ht.fits) ?_ fun _ s' hs' => ?_
      · exact fun hb => ⟨_, rfl, .old (hlog.crash le_rfl hb)⟩
      · refine wp_mono (install_clear_wp ht (hlog.commit hs')) ?_ ?_
        · exact fun _ _ h => .new (Or.inl h)
        · rintro _ ⟨d, rfl, h⟩
          exact ⟨d, rfl, .new (Or.inr ⟨rfl, h⟩)⟩
    · rintro _ ⟨d, rfl, h⟩
      exact ⟨d, rfl, .old h⟩
  · -- without logged blocks the commit writes nothing, and both contents are empty
    exact .new (Or.inl ⟨ht.empty, fun i hi => absurd hi (by change ¬0 < t.n.toNat at hn; omega)⟩)

theorem readHead_committed_wp (ht : Pending start t) {budget : Option ℕ} {E : Stop → Prop}
    (h : Committed start t d) :
    wp (readHead start) (fun _ s' => Loaded start t s') E (boot d budget) := by
  unfold readHead
  rw [wp_bind, wp_bread]
  have hbuf : (boot d budget).buf = d := rfl
  rw [hbuf, h.count]
  refine wp_ite (fun hn => absurd ht.fits (not_le.mpr hn)) fun _ => ?_
  refine wp_modify.mpr ⟨rfl, ?_, h, ?_⟩
  · intro i hi
    exact (if_pos hi).trans (h.block i hi)
  · intro i hi
    rw [← h.logged i hi]
    exact congrFun ((buf_fill_self (boot d budget) start).trans hbuf) (start + i + 1)

/-- `recover_from_log` on a disk with an empty header only writes the header. -/
theorem recoverFromLog_empty_wp {budget : Option ℕ} (h : headerN (d start) = 0) :
    wp (recoverFromLog start) (fun _ s' => headerN (s'.disk start) = 0 ∧ ∀ x ≠ start,
      s'.disk x = d x) (fun e => e = .crash d) (boot d budget) := by
  unfold recoverFromLog readHead installTrans
  have hbuf : (boot d budget).buf = d := rfl
  rw [wp_bind, wp_bind, wp_bread, hbuf, h]
  refine wp_ite (fun hn => absurd hn (by simp)) fun _ => ?_
  rw [wp_modify, wp_bind, wp_bind, wp_get]
  exact clearHead_wp (fun _ => rfl) fun s' h0 hs' => ⟨h0, hs'⟩

theorem recoverFromLog_wp (ht : Pending start t) {v : ℕ → Bytes} (budget : Option ℕ)
    (h : Recoverable start t v d) :
    wp (recoverFromLog start) (fun _ s' => headerN (s'.disk start) = 0 ∧
      Holds t v s'.disk) (fun e => ∃ d, e = .crash d ∧
      Recoverable start t v d) (boot d budget) := by
  obtain ⟨h0, hv⟩ | ⟨rfl, hc⟩ := h
  · refine wp_mono (recoverFromLog_empty_wp h0) ?_ ?_
    · rintro _ s' ⟨h0', hs'⟩
      exact ⟨h0', fun i hi => by rw [hs' _ (ht.home_ne_start hi), hv i hi]⟩
    · rintro _ rfl
      exact ⟨d, rfl, Or.inl ⟨h0, hv⟩⟩
  · unfold recoverFromLog
    rw [wp_bind]
    refine wp_mono (readHead_committed_wp ht hc) (fun _ s hs => ?_) fun _ h => h
    refine wp_mono (install_clear_wp ht hs) (fun _ _ h => h) ?_
    rintro _ ⟨d', rfl, hd'⟩
    exact ⟨d', rfl, Or.inr ⟨rfl, hd'⟩⟩

/-! ## Runs without a power failure -/

theorem setData_bwrite_powered {b : ℕ} {v : Bytes} (h : s.budget = none) :
    wp (do setData b v; bwrite b) (fun _ s' => s'.budget = none) (fun e => e = .panic) s := by
  refine wp_setData_bwrite (fun h0 => ?_) fun _ s' hs' => ?_
  · rw [h] at h0
    cases h0
  · rw [hs'.budget, h]
    rfl

theorem recoverFromLog_powered (start : ℕ) (d : Disk) :
    wp (recoverFromLog start) (fun _ s' => s'.budget = none) (fun e => e =
        .panic) (boot d none) := by
  unfold recoverFromLog readHead installTrans clearHead writeHead
  rw [wp_bind, wp_bind, wp_bread]
  refine wp_ite (fun _ => rfl) fun _ => ?_
  rw [wp_modify, wp_bind, wp_bind, wp_get]
  refine wp_mono (wp_forM_range (I := fun _ s => s.budget = none) (fun i _ s hs => ?_) rfl)
    (fun _ s hs => ?_) fun _ h => h
  · unfold installBlock
    rw [wp_bind, wp_get]
    refine wp_ite (fun _ => rfl) fun _ => ?_
    rw [wp_bind, wp_bread, wp_bind, wp_bread]
    exact setData_bwrite_powered hs
  · rw [wp_bind, wp_modify, wp_bind, wp_bread, wp_bind, wp_get]
    exact wp_ite (fun _ => rfl) fun _ => setData_bwrite_powered hs

/-! ## Crash atomicity -/

theorem leftDisk_of_wp {m : LogM PUnit} {P : Disk → Prop}
    (h : wp m (fun _ s' => P s'.disk) (fun e => ∃ d, e = .crash d ∧ P d) s) :
    ∃ d, leftDisk (m.run s) = some d ∧ P d := by
  rcases hm : m.run s with e | ⟨_, s'⟩
  · obtain ⟨d, rfl, hd⟩ := wp_error h hm
    exact ⟨d, rfl, hd⟩
  · exact ⟨s'.disk, rfl, wp_ok h hm⟩

theorem recoverDisk_recoverable (ht : Pending start t) {v : ℕ → Bytes} (budget : Option ℕ)
    (h : Recoverable start t v d) :
    ∃ d', recoverDisk start budget d = some d' ∧ Recoverable start t v d' :=
  leftDisk_of_wp (wp_mono (recoverFromLog_wp ht budget h) (fun _ _ h => Or.inl h) fun _ h => h)

theorem recoverDisks_recoverable (ht : Pending start t) {v : ℕ → Bytes} (ks : List ℕ)
    (h : Recoverable start t v d) :
    ∃ d', ks.foldlM (fun d k => recoverDisk start (some k) d) d = some d' ∧
    Recoverable start t v d' := by
  induction ks generalizing d with
  | nil => exact ⟨d, rfl, h⟩
  | cons k ks ih =>
    obtain ⟨d1, hd1, h1⟩ := recoverDisk_recoverable ht (some k) h
    obtain ⟨d2, hd2, h2⟩ := ih h1
    exact ⟨d2, by rw [List.foldlM_cons, hd1]; exact hd2, h2⟩

theorem recoverDisk_complete (ht : Pending start t) {v : ℕ → Bytes} (h : Recoverable start t v d) :
    ∃ d', recoverDisk start none d = some d' ∧ headerN (d' start) = 0 ∧ Holds t v d' := by
  have hwp := wp_and (recoverFromLog_wp ht none h) (recoverFromLog_powered start d)
  refine leftDisk_of_wp (wp_mono hwp (fun _ _ h => h.1) ?_)
  rintro _ ⟨⟨d', rfl, -⟩, hpanic⟩
  cases hpanic

/-- **Crash atomicity.** The power fails after `k` writes of `commit`, and then during any number
of recoveries, after the numbers of writes `ks`. A recovery that completes then leaves the home
blocks all with their old or all with their new contents, and with the new ones if the header of
the commit was written, which is its write number `n + 1`; and it leaves the header empty. -/
theorem commit_crash_atomic (ht : Pending start t) (k : ℕ) (ks : List ℕ) :
    ∃ d₁ d₂ d₃, commitDisk start t k = some d₁ ∧
      ks.foldlM (fun d k => recoverDisk start (some k) d) d₁ = some d₂ ∧
      recoverDisk start none d₂ = some d₃ ∧
      (Holds t (oldContents t) d₃ ∨ Holds t (newContents t) d₃) ∧
      (t.n.toNat < k → Holds t (newContents t) d₃) ∧
      headerN (d₃ start) = 0 := by
  obtain ⟨d₁, hd₁, v, hv, hnew, h₁⟩ := leftDisk_of_wp (commit_wp ht k)
  obtain ⟨d₂, hd₂, h₂⟩ := recoverDisks_recoverable ht ks h₁
  obtain ⟨d₃, hd₃, h0, h₃⟩ := recoverDisk_complete ht h₂
  refine ⟨d₁, d₂, d₃, hd₁, hd₂, hd₃, ?_, fun hk => hnew hk ▸ h₃, h0⟩
  rcases hv with rfl | rfl
  · exact Or.inl h₃
  · exact Or.inr h₃

end Phases

/-- Blocks 40 and 41 with new contents in the cache; the log starts at block 2. -/
def twoBlocks : LogMachine where
  disk := fun _ _ => 0
  cache := fun b => if b = 40 then some fun _ => 1 else if b = 41 then some fun _ => 2 else none
  n := 2
  blocks := fun i => if i = 0 then 40 else 41
  budget := none

theorem twoBlocks_pending : Pending 2 twoBlocks where
  fits := by decide
  distinct := by decide
  outside := by decide
  empty := by decide

/-- The power fails after the header is written, and twice more during the recovery. -/
theorem commit_crash_atomic_twoBlocks :
    ∃ d₁ d₂ d₃, commitDisk 2 twoBlocks 3 = some d₁ ∧
      [1, 2].foldlM (fun d k => recoverDisk 2 (some k) d) d₁ = some d₂ ∧
      recoverDisk 2 none d₂ = some d₃ ∧ d₃ 40 = (fun _ => 1) ∧ d₃ 41 = (fun _ => 2) ∧
      headerN (d₃ 2) = 0 := by
  obtain ⟨d₁, d₂, d₃, h₁, h₂, h₃, -, hnew, h0⟩ := commit_crash_atomic twoBlocks_pending 3 [1, 2]
  exact ⟨d₁, d₂, d₃, h₁, h₂, h₃, hnew (by decide) 0 (by decide), hnew (by decide) 1 (by decide), h0⟩

end Octopos
