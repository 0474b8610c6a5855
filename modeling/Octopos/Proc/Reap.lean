import Octopos.Proc.Parents

/-!
# Zombies and those who wait for them

A process that sleeps in `wait` has no zombie child: `wait` has looked at all children under the
lock of `parents` before it sleeps, `exit` wakes up the parent under the same lock before it makes
the process a zombie, and `reparent` wakes up init (`ReapInv`).
-/

namespace Octopos

section Reap

variable {n : ℕ} [NeZero n] {s s' : ProcSys n} {p c : Fin n} {f : ProcFrame n} {q : Fin n} {i : ℕ} {status : ℤ}
variable {x : ProcEntry} {ch : Channel} {haveKids : Bool}

/-- Process `p` is asleep in `wait`. -/
def ProcSys.Waits (s : ProcSys n) (p : Fin n) : Prop :=
  (s.table p).state = .sleeping ∧ s.frame p = .waitSleep

/-! ## Sleepers -/

/-- Who sleeps in `wait` has no zombie child, or is going to be woken up. -/
structure ReapInv (s : ProcSys n) : Prop where
  scan : ∀ p i haveKids, s.frame p = .waitScan i haveKids →
    (∀ j, j.val < i → s.parents j = some p → (s.table j).state ≠ .zombie) ∧
    (haveKids = true ↔ ∃ j, j.val < i ∧ s.parents j = some p)
  channel : ∀ p, s.Waits p → (s.table p).channel = some (.proc p)
  sleeper : ∀ p, s.Waits p → ∀ j, s.parents j = some p → (s.table j).state = .zombie →
    p = ProcSys.init ∧ ∃ q status i, s.frame q = .exitWakeInit status i
  dying : ∀ q status, s.frame q = .exitZombie status → ∀ p, s.parents q = some p → ¬s.Waits p

omit [NeZero n] in
theorem ProcSys.holds_iff (hlock : ∀ p, (s.frame p).holds = true ↔ s.lock = some p)
    (hp : s.lock = some p) (hq : (s.frame q).holds = true) : q = p := by
  rw [hlock q, hp] at hq
  exact (Option.some.inj hq).symm

/-- Slots change, but no zombie comes or goes, and nobody goes to sleep in `wait`. -/
theorem ReapInv.setTable (h : ReapInv s) {t : Fin n → ProcEntry}
    (hzombie : ∀ i, (t i).state = .zombie ↔ (s.table i).state = .zombie)
    (hwaits : ∀ i, (t i).state = .sleeping → s.frame i = .waitSleep →
      (s.table i).state = .sleeping ∧ (t i).channel = (s.table i).channel) :
    ReapInv { s with table := t } := by
  have hback (i : Fin n) (hi : ProcSys.Waits { s with table := t } i) : s.Waits i :=
    ⟨(hwaits i hi.1 hi.2).1, hi.2⟩
  refine ⟨fun p i haveKids hf => ?_, fun p hp => ?_, fun p hp j hj hz => ?_, fun q st hq p hp hw => ?_⟩
  · refine ⟨fun j hj hpar hz => (h.scan p i haveKids hf).1 j hj hpar ((hzombie j).1 hz), ?_⟩
    exact (h.scan p i haveKids hf).2
  · exact (hwaits p hp.1 hp.2).2.trans (h.channel p (hback p hp))
  · exact h.sleeper p (hback p hp) j hj ((hzombie j).1 hz)
  · exact h.dying q st hq p hp (hback p hw)

theorem ReapInv.setEntry (h : ReapInv s)
    (hzombie : x.state = .zombie ↔ (s.table c).state = .zombie)
    (hwaits : x.state = .sleeping → s.frame c = .waitSleep → (s.table c).state = .sleeping ∧
      x.channel = (s.table c).channel) : ReapInv (s.setEntry c x) := by
  refine h.setTable (fun i => ?_) fun i => ?_ <;> by_cases hi : i = c
  · subst hi
    rwa [upd_self]
  · rw [upd_of_ne hi]
  · subst hi
    rwa [upd_self]
  · rw [upd_of_ne hi]
    exact fun h1 _ => ⟨h1, rfl⟩

omit [NeZero n] in
theorem ProcSys.waits_wakeupAll (h : (s.wakeupAll ch).Waits q) :
    s.Waits q ∧ (s.table q).channel ≠ some ch := by
  obtain ⟨hstate, hf⟩ := h
  change (ProcSys.wakeEntry ch (s.table q)).state = .sleeping at hstate
  unfold ProcSys.wakeEntry at hstate
  split_ifs at hstate with hc
  exact ⟨⟨hstate, hf⟩, fun he => hc ⟨hstate, he⟩⟩

theorem ProcSys.wakeEntry_zombie :
    (ProcSys.wakeEntry ch x).state = .zombie ↔ x.state = .zombie := by
  unfold ProcSys.wakeEntry
  split_ifs with hx
  · rw [hx.1]
    exact iff_of_false (by simp) (by simp)
  · rfl

theorem ReapInv.wakeupAll (h : ReapInv s) (ch : Channel) : ReapInv (s.wakeupAll ch) := by
  refine h.setTable (fun i => ProcSys.wakeEntry_zombie) fun i hi _ => ?_
  unfold ProcSys.wakeEntry at hi ⊢
  split_ifs at hi ⊢ with hc
  exact ⟨hi, rfl⟩

omit [NeZero n] in
/-- Who sleeps in `wait` when `p` has gone on to another point stood there before. -/
theorem ProcSys.Waits.of_frame (hframe : s'.frame = upd s.frame p f) (hf : f ≠ .waitSleep)
    (hq : s'.Waits q) : q ≠ p ∧ s.frame q = .waitSleep := by
  have hw := hq.2
  rw [hframe] at hw
  have hqp : q ≠ p := by
    rintro rfl
    exact hf ((upd_self ..).symm.trans hw)
  exact ⟨hqp, (upd_of_ne hqp).symm.trans hw⟩

theorem ReapInv.setFrame (h : ReapInv s) (hold : ∀ status i, s.frame p ≠ .exitWakeInit status i)
    (hsleep : f ≠ .waitSleep)
    (hscan : ∀ i haveKids, f = .waitScan i haveKids →
      (∀ j, j.val < i → s.parents j = some p → (s.table j).state ≠ .zombie) ∧
      (haveKids = true ↔ ∃ j, j.val < i ∧ s.parents j = some p))
    (hdying : ∀ status, f = .exitZombie status → ∀ q, s.parents p = some q → ¬s.Waits q) :
    ReapInv (s.setFrame p f) := by
  have hself : (s.setFrame p f).frame p = f := upd_self ..
  have hkeep {q : Fin n} (hq : q ≠ p) : (s.setFrame p f).frame q = s.frame q := upd_of_ne hq
  have hback {q : Fin n} (hq : (s.setFrame p f).Waits q) : s.Waits q :=
    ⟨hq.1, (hq.of_frame rfl hsleep).2⟩
  refine ⟨fun q i haveKids hf => ?_, fun q hq => h.channel q (hback hq), fun q hq j hj hz => ?_,
    fun q st hq r hr hw => ?_⟩
  · by_cases hqp : q = p
    · subst hqp
      exact hscan i haveKids (hself.symm.trans hf)
    · exact h.scan q i haveKids ((hkeep hqp).symm.trans hf)
  · obtain ⟨hinit, r, st, i, hr⟩ := h.sleeper q (hback hq) j hj hz
    have hrp : r ≠ p := by
      rintro rfl
      exact hold st i hr
    exact ⟨hinit, r, st, i, (hkeep hrp).trans hr⟩
  · by_cases hqp : q = p
    · subst hqp
      exact hdying st (hself.symm.trans hq) r hr (hback hw)
    · exact h.dying q st ((hkeep hqp).symm.trans hq) r hr (hback hw)

theorem ReapInv.setFrame_other (h : ReapInv s)
    (hold : ∀ status i, s.frame p ≠ .exitWakeInit status i) (hsleep : f ≠ .waitSleep)
    (hscan : ∀ i haveKids, f ≠ .waitScan i haveKids) (hdying : ∀ status, f ≠ .exitZombie status) :
    ReapInv (s.setFrame p f) :=
  h.setFrame hold hsleep (fun i k hf => absurd hf (hscan i k)) fun st hf => absurd hf (hdying st)

theorem ReapInv.of_eq (h : ReapInv s) (htable : s'.table = s.table)
    (hparents : s'.parents = s.parents) (hframe : s'.frame = s.frame) : ReapInv s' := by
  obtain ⟨table, parents, lock, frame, _, _, _, _, _⟩ := s'
  dsimp only at htable hparents hframe
  subst htable hparents hframe
  exact ⟨h.scan, h.channel, h.sleeper, h.dying⟩

/-! ## Steps and sleepers -/

theorem ReapInv.forkScanStep (ht : TreeInv s) (h : ReapInv s) (hf : s.frame p = .forkScan i)
    (c : Fin n) (memory : Bool) : ReapInv (s.forkScanStep p c memory) := by
  unfold ProcSys.forkScanStep
  by_cases hc : (s.table c).state = .unused
  · rw [if_pos hc]
    have h0 : ReapInv { s with pidCount := s.pidCount + 1, created := s.created + 1 } :=
      h.of_eq rfl rfl rfl
    cases memory with
    | true =>
      have hframe : ∀ status i, s.frame c ≠ .exitWakeInit status i := by
        rcases (ht.frame c).alive with he | he | he
        · simp [he]
        · simp [he]
        · exact absurd hc (ProcState.alive_ne he).1
      have h1 := h0.setEntry (c := c)
        (x := { s.table c with pid := s.pidCount % USIZE, state := .used, serial := s.created })
        (by simp [hc]) (by simp)
      have h2 := h1.setFrame_other (p := c) (f := .user) hframe (by simp) (by simp) (by simp)
      refine h2.setFrame_other (fun st j => ?_) (by simp) (by simp) (by simp)
      change upd s.frame c .user p ≠ _
      by_cases hpc : p = c
      · simp [hpc]
      · simp [upd_of_ne hpc, hf]
    | false =>
      have h1 := h0.setEntry (c := c) (x := ProcEntry.free
        { s.table c with pid := s.pidCount % USIZE, state := .used, serial := s.created })
        (by simp [hc, ProcEntry.free]) (by simp [ProcEntry.free])
      exact h1.setFrame_other (by change ∀ _ _, s.frame p ≠ _; simp [hf]) (by simp) (by simp) (by simp)
  · rw [if_neg hc]
    exact h.setFrame_other (by simp [hf]) (by simp) (by simp) (by simp)

/-- A slot that is no zombie gets a parent that is not asleep in `wait`, while nobody scans. -/
theorem ReapInv.setParent (h : ReapInv s) (hc : (s.table c).state ≠ .zombie) (hp : ¬s.Waits p)
    (hscan : ∀ q i haveKids, s.frame q ≠ .waitScan i haveKids) :
    ReapInv (s.setParent c (some p)) := by
  have hself : (s.setParent c (some p)).parents c = some p := upd_self ..
  have hkeep {i : Fin n} (hi : i ≠ c) : (s.setParent c (some p)).parents i = s.parents i :=
    upd_of_ne hi
  refine ⟨fun q i k hf => absurd hf (hscan q i k), h.channel, fun q hq j hj hz => ?_, fun q st hq r hr => ?_⟩
  · have hjc : j ≠ c := by
      rintro rfl
      exact hc hz
    exact h.sleeper q hq j ((hkeep hjc).symm.trans hj) hz
  · by_cases hqc : q = c
    · subst hqc
      rw [hself] at hr
      cases hr
      exact hp
    · exact h.dying q st hq r ((hkeep hqc).symm.trans hr)

section

variable (ht : TreeInv s)
include ht

theorem ReapInv.forkLink (h : ReapInv s) (hf : s.frame p = .forkLink c) (hlock : s.lock = none) :
    ReapInv ((s.setParent c (some p)).setFrame p (.forkStart c)) := by
  have hused := (ht.frame p).child c (by rw [hf]; rfl)
  have h1 := h.setParent (c := c) (p := p) (by rw [hused]; simp) (by simp [ProcSys.Waits, hf]) fun q i k hq => by
      have := (ht.lock q).1 (by rw [hq]; rfl)
      rw [hlock] at this
      cases this
  exact h1.setFrame_other (by change ∀ _ _, s.frame p ≠ _; simp [hf]) (by simp) (by simp) (by simp)

theorem ReapInv.forkStartStep (h : ReapInv s) (hf : s.frame p = .forkStart c) :
    ReapInv (s.forkStartStep p c) := by
  have hused := (ht.frame p).child c (by rw [hf]; rfl)
  have h1 := h.setEntry (c := c) (x := { s.table c with state := .runnable }) (by simp [hused]) (by simp)
  exact h1.setFrame_other (by change ∀ _ _, s.frame p ≠ _; simp [hf]) (by simp) (by simp) (by simp)

theorem TreeInv.others (hp : (s.frame p).holds = true) (hq : q ≠ p) :
    (∀ i haveKids, s.frame q ≠ .waitScan i haveKids) ∧
    (∀ status i, s.frame q ≠ .exitWakeInit status i) ∧ ∀ status,
    s.frame q ≠ .exitZombie status := by
  have hne : (s.frame q).holds ≠ true := fun hh => hq (ProcSys.holds_iff ht.lock ((ht.lock p).1 hp) hh)
  refine ⟨fun i k he => ?_, fun st i he => ?_, fun st he => ?_⟩ <;> rw [he] at hne <;>
    exact hne rfl

/-- The holder of the lock goes on to a point that is of no interest to the others. -/
theorem ReapInv.of_holder (hp : (s.frame p).holds = true) (hframe : s'.frame = upd s.frame p f)
    (hscan : ∀ i haveKids, f ≠ .waitScan i haveKids) (hdying : ∀ status, f ≠ .exitZombie status)
    (hchannel : ∀ q, s'.Waits q → (s'.table q).channel = some (.proc q))
    (hsleeper : ∀ q, s'.Waits q → ∀ j, s'.parents j = some q → (s'.table j).state = .zombie →
      q = ProcSys.init ∧ ∃ r status i, s'.frame r = .exitWakeInit status i) : ReapInv s' := by
  have hcases (q : Fin n) : s'.frame q = f ∨ q ≠ p ∧ s'.frame q = s.frame q := by
    rw [hframe]
    by_cases hq : q = p
    · rw [hq]
      exact Or.inl (upd_self ..)
    · exact Or.inr ⟨hq, upd_of_ne hq⟩
  refine ⟨fun q i k hq => ?_, hchannel, hsleeper, fun q st hq => ?_⟩
  · rcases hcases q with he | ⟨hqp, he⟩
    · exact absurd (he.symm.trans hq) (hscan i k)
    · exact absurd (he.symm.trans hq) ((ht.others hp hqp).1 i k)
  · rcases hcases q with he | ⟨hqp, he⟩
    · exact absurd (he.symm.trans hq) (hdying st)
    · exact absurd (he.symm.trans hq) ((ht.others hp hqp).2.2 st)

/-- Nobody sleeps in `wait` on a zombie child while no `wakeup` of init is pending. -/
theorem ReapInv.no_sleeper (h : ReapInv s) (hp : (s.frame p).holds = true)
    (hf : ∀ status i, s.frame p ≠ .exitWakeInit status i) (hq : s.Waits q)
    (hc : s.parents c = some q) : (s.table c).state ≠ .zombie := fun hz => by
  obtain ⟨-, r, st, i, hr⟩ := h.sleeper q hq c hc hz
  by_cases hrp : r = p
  · exact hf st i (hrp ▸ hr)
  · exact (ht.others hp hrp).2.1 st i hr

theorem ReapInv.reparentStep (h : ReapInv s) (hf : s.frame p = .exitReparent status i) :
    ReapInv (s.reparentStep p c status) := by
  have hholds : (s.frame p).holds = true := by rw [hf]; rfl
  unfold ProcSys.reparentStep
  split_ifs with hc
  · have hback {q : Fin n} (hq : ((s.setParent c (some ProcSys.init)).setFrame p
        (.exitWakeInit status c.val)).Waits q) : s.Waits q :=
      ⟨hq.1, (hq.of_frame (s := s) rfl (by simp)).2⟩
    refine .of_holder ht hholds rfl (by simp) (by simp) (fun q hq => h.channel q (hback hq)) fun q hq j hj hz => ?_
    by_cases hjc : j = c
    · subst hjc
      cases (upd_self ..).symm.trans hj
      exact ⟨rfl, p, status, j.val, upd_self ..⟩
    · have hj' : s.parents j = some q := (upd_of_ne hjc).symm.trans hj
      exact (h.no_sleeper ht hholds (by simp [hf]) (hback hq) hj' hz).elim
  · exact h.setFrame_other (by simp [hf]) (by simp) (by simp) (by simp)

theorem ReapInv.wakeInitStep (h : ReapInv s) (hf : s.frame p = .exitWakeInit status i) :
    ReapInv
      ((s.wakeupAll (.proc (ProcSys.init : Fin n))).setFrame p (.exitReparent status (i + 1))) := by
  have hback {q : Fin n} (hq : ((s.wakeupAll (.proc (ProcSys.init : Fin n))).setFrame p
      (.exitReparent status (i + 1))).Waits q) :
      s.Waits q ∧ (s.table q).channel ≠ some (.proc (ProcSys.init : Fin n)) :=
    ProcSys.waits_wakeupAll ⟨hq.1, (hq.of_frame (s := s) rfl (by simp)).2⟩
  refine .of_holder ht (by rw [hf]; rfl) rfl (by simp) (by simp) (fun q hq => ?_) fun q hq j hj hz => ?_
  · refine Eq.trans ?_ (h.channel q (hback hq).1)
    change (ProcSys.wakeEntry _ (s.table q)).channel = _
    unfold ProcSys.wakeEntry
    split_ifs <;> rfl
  · -- only init can have been left without its `wakeup`
    have hw := hback hq
    obtain ⟨hinit, -⟩ := h.sleeper q hw.1 j hj (ProcSys.wakeEntry_zombie.1 hz)
    subst hinit
    exact absurd (h.channel _ hw.1) hw.2

end

theorem ReapInv.wakeParent (h : ReapInv s) {parent : Fin n}
    (hf : s.frame p = .exitReparent status i) (hparent : s.parents p = some parent) :
    ReapInv ((s.wakeupAll (.proc parent)).setFrame p (.exitZombie status)) := by
  refine (h.wakeupAll (.proc parent)).setFrame (by change ∀ _ _, s.frame p ≠ _; simp [hf])
    (by simp) (by simp) fun st _ q hq hw => ?_
  cases hparent.symm.trans hq
  obtain ⟨hw, hne⟩ := ProcSys.waits_wakeupAll hw
  exact hne (h.channel _ hw)

theorem ReapInv.zombieStep (ht : TreeInv s) (h : ReapInv s) (hf : s.frame p = .exitZombie status) :
    ReapInv (s.zombieStep p status) := by
  have hholds : (s.frame p).holds = true := by rw [hf]; rfl
  have htable {q : Fin n} (hq : q ≠ p) : (s.zombieStep p status).table q = s.table q := upd_of_ne hq
  have hback {q : Fin n} (hq : (s.zombieStep p status).Waits q) : s.Waits q ∧ q ≠ p := by
    obtain ⟨hqp, hw⟩ := hq.of_frame (s := s) rfl (by simp)
    exact ⟨⟨htable hqp ▸ hq.1, hw⟩, hqp⟩
  refine .of_holder ht hholds rfl (by simp) (by simp) (fun q hq => ?_) fun q hq j hj hz => ?_
  · obtain ⟨hw, hqp⟩ := hback hq
    rw [htable hqp]
    exact h.channel q hw
  · obtain ⟨hw, -⟩ := hback hq
    by_cases hjp : j = p
    · subst hjp
      exact absurd hw (h.dying j status hf q hj)
    · rw [htable hjp] at hz
      exact absurd hz (h.no_sleeper ht hholds (by simp [hf]) hw hj)

/-- A zombie is freed and loses its parent, while nobody else has the lock. -/
theorem ReapInv.reap (ht : TreeInv s) (h : ReapInv s) (hf : s.frame p = .waitScan i haveKids) :
    ReapInv (s.reap p c) := by
  have htself : (s.reap p c).table c = (s.table c).free := upd_self ..
  have htable {q : Fin n} (hq : q ≠ c) : (s.reap p c).table q = s.table q := upd_of_ne hq
  have hne {q : Fin n} {x : ProcState} (hq : ((s.reap p c).table q).state = x) (hx : x ≠ .unused) : q ≠ c := by
    rintro rfl
    rw [htself] at hq
    exact hx hq.symm
  have hback {q : Fin n} (hq : (s.reap p c).Waits q) : s.Waits q ∧ q ≠ c := by
    have hqc := hne hq.1 (by simp)
    exact ⟨⟨htable hqc ▸ hq.1, (hq.of_frame (s := s) rfl (by simp)).2⟩, hqc⟩
  refine .of_holder ht (p := p) (by rw [hf]; rfl) rfl (by simp) (by simp) (fun q hq => ?_) fun q hq j hj hz => ?_
  · obtain ⟨hw, hqc⟩ := hback hq
    rw [htable hqc]
    exact h.channel q hw
  · have hjc := hne hz (by simp)
    rw [htable hjc] at hz
    exact absurd hz (h.no_sleeper ht (p := p) (by rw [hf]; rfl) (by simp [hf]) (hback hq).1
      ((upd_of_ne hjc).symm.trans hj))

theorem ReapInv.waitScanStep (ht : TreeInv s) (h : ReapInv s)
    (hf : s.frame p = .waitScan c.val haveKids) : ReapInv (s.waitScanStep p c haveKids) := by
  obtain ⟨hseen, hkids⟩ := h.scan p c.val haveKids hf
  have hlt {j : Fin n} (hj : j.val < c.val + 1) (hjc : j ≠ c) : j.val < c.val :=
    lt_of_le_of_ne (Nat.lt_succ_iff.1 hj) fun he => hjc (Fin.ext he)
  unfold ProcSys.waitScanStep
  split_ifs with hc hz
  · exact h.reap ht hf
  · refine h.setFrame (by simp [hf]) (by simp) (fun i k he => ?_) (by simp)
    cases he
    refine ⟨fun j hj hpar => ?_, iff_of_true rfl ⟨c, Nat.lt_succ_self _, hc⟩⟩
    by_cases hjc : j = c
    · rwa [hjc]
    · exact hseen j (hlt hj hjc) hpar
  · refine h.setFrame (by simp [hf]) (by simp) (fun i k he => ?_) (by simp)
    cases he
    refine ⟨fun j hj hpar => ?_, hkids.trans ⟨fun ⟨j, hj, hpar⟩ => ⟨j, Nat.lt_succ_of_lt hj, hpar⟩,
      fun ⟨j, hj, hpar⟩ => ⟨j, hlt hj ?_, hpar⟩⟩⟩
    · exact hseen j (hlt hj (by rintro rfl; exact hc hpar)) hpar
    · rintro rfl
      exact hc hpar

theorem ReapInv.waitEndStep (h : ReapInv s) (hf : s.frame p = .waitScan i haveKids) (hi : n ≤ i) :
    ReapInv (s.waitEndStep p haveKids) := by
  unfold ProcSys.waitEndStep
  split_ifs with hend
  · have h1 := h.setFrame_other (p := p) (f := .user) (by simp [hf]) (by simp) (by simp) (by simp)
    exact h1.of_eq rfl rfl rfl
  · obtain ⟨hseen, hkids⟩ := h.scan p i haveKids hf
    refine h.setFrame (by simp [hf]) (by simp) (fun j k he => ?_) (by simp)
    cases he
    refine ⟨fun j _ hpar => hseen j (lt_of_lt_of_le j.isLt hi) hpar, hkids.trans (exists_congr fun j => ?_)⟩
    have hlt := j.isLt
    exact and_congr_left fun _ => iff_of_true (by omega) (by omega)

theorem ReapInv.waitSleepStep (ht : TreeInv s) (h : ReapInv s)
    (hf : s.frame p = .waitScan i haveKids) (hi : n ≤ i) : ReapInv (s.waitSleepStep p) := by
  obtain ⟨hseen, -⟩ := h.scan p i haveKids hf
  have htself : (s.waitSleepStep p).table p = { s.table p with channel := some (.proc p), state := .sleeping } :=
    upd_self ..
  have htkeep {q : Fin n} (hq : q ≠ p) : (s.waitSleepStep p).table q = s.table q := upd_of_ne hq
  have hback {q : Fin n} (hqp : q ≠ p) (hq : (s.waitSleepStep p).Waits q) : s.Waits q :=
    ⟨htkeep hqp ▸ hq.1, (upd_of_ne hqp).symm.trans hq.2⟩
  have hzombie {j : Fin n} (hz : ((s.waitSleepStep p).table j).state = .zombie) : (s.table j).state = .zombie := by
    have hjp : j ≠ p := by
      rintro rfl
      rw [htself] at hz
      cases hz
    rwa [htkeep hjp] at hz
  refine .of_holder ht (p := p) (by rw [hf]; rfl) rfl (by simp) (by simp) (fun q hq => ?_) fun q hq j hj hz => ?_
  · by_cases hqp : q = p
    · subst hqp
      rw [htself]
    · rw [htkeep hqp]
      exact h.channel q (hback hqp hq)
  · by_cases hqp : q = p
    · subst hqp
      exact absurd (hzombie hz) (hseen j (lt_of_lt_of_le j.isLt hi) hj)
    · exact absurd (hzombie hz) (h.no_sleeper ht (p := p) (by rw [hf]; rfl) (by simp [hf]) (hback hqp hq) hj)

theorem ReapInv.acquire (h : ReapInv s) (hold : ∀ status i, s.frame p ≠ .exitWakeInit status i)
    (hsleep : f ≠ .waitSleep)
    (hscan : ∀ i haveKids, f = .waitScan i haveKids → i = 0 ∧ haveKids = false)
    (hdying : ∀ status, f ≠ .exitZombie status) :
    ReapInv { s.setFrame p f with lock := some p } := by
  have h1 := h.setFrame (p := p) (f := f) hold hsleep (fun i k he => ?_) fun st he => absurd he (hdying st)
  · exact h1.of_eq rfl rfl rfl
  · obtain ⟨rfl, rfl⟩ := hscan i k he
    exact ⟨fun j hj => absurd hj (Nat.not_lt_zero _), iff_of_false (by simp) fun ⟨j, hj, _⟩ => Nat.not_lt_zero _ hj⟩

theorem ReapInv.run (ht : TreeInv s) (h : ReapInv s) (hp : (s.table p).state = .running)
    (hs : s.Runs p s') : ReapInv s' := by
  cases hs with
  | forkScan c memory hf => exact h.forkScanStep ht hf c memory
  | forkLink c hf hlock => exact h.forkLink ht hf hlock
  | forkStart c hf => exact h.forkStartStep ht hf
  | exitLock status hf hlock => exact h.acquire (by simp [hf]) (by simp) (by simp) (by simp)
  | reparent status c hf => exact h.reparentStep ht hf
  | wakeParent status i parent hf hi hparent => exact h.wakeParent hf hparent
  | wakeInit status i hf => exact h.wakeInitStep ht hf
  | zombie status hf => exact h.zombieStep ht hf
  | waitLock hf hlock =>
    refine h.acquire (by simp [hf]) (by simp) (fun i k he => ?_) (by simp)
    cases he
    exact ⟨rfl, rfl⟩
  | waitScan c haveKids hf => exact h.waitScanStep ht hf
  | waitEnd i haveKids hf hi => exact h.waitEndStep hf hi
  | waitDoze i haveKids hf hi => exact h.waitSleepStep ht hf hi
  | waitSleep hf =>
    have h1 := h.setEntry (c := p) (x := { s.table p with channel := none }) (by simp) (by simp [hp])
    exact h1.setFrame_other (by change ∀ _ _, s.frame p ≠ _; simp [hf]) (by simp) (by simp) (by simp)
  | sleep ch hf => exact h.setEntry (by simp [hp]) (by simp [hf])
  | awake hf => exact h.setEntry (by simp) (by simp [hf])
  | yield hlock => exact h.setEntry (by simp [hp]) (by simp)
  | fork hf | forkFull i hf | exit status hf hinit | wait hf =>
    exact h.setFrame_other (by simp [hf]) (by simp) (by simp) (by simp)

theorem ReapInv.step (ht : TreeInv s) (h : ReapInv s) {l : Fin n × ProcAction}
    (hs : ProcStep s l s') : ReapInv s' := by
  cases hs.moves with
  | run hr hs => exact h.run ht hr hs
  | dispatch hr => exact h.setEntry (by simp [hr]) (by simp)
  | kill =>
    unfold ProcSys.killEntry
    split_ifs with hsl
    · exact h.setEntry (by simp [hsl]) (by simp)
    · exact h.setEntry (by simp) (by simp [hsl])
  | wakeup ch => exact h.wakeupAll ch

theorem reapInv_init (h : ProcInit s) : ReapInv s := by
  obtain ⟨-, -, -, -, -, hframe, -, -⟩ := h
  refine ⟨fun p i k hf => ?_, fun p hp => ?_, fun p hp => ?_, fun q st hq => ?_⟩
  · simp [hframe] at hf
  · simp [ProcSys.Waits, hframe] at hp
  · simp [ProcSys.Waits, hframe] at hp
  · simp [hframe] at hq

end Reap

end Octopos
