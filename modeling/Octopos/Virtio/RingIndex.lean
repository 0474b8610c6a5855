import Octopos.Virtio.Waiters

/-!
# The indices of the rings

The driver counts what it puts into the `avail` ring and what it takes out of the `used` ring in 16
bits, and with overflow checks the kernel stops when such a count would pass `u16::MAX`. Up to the
wrapping, the place of a request in the rings is its number modulo `NUM`.
-/

namespace Octopos

variable {P : Type} [DecidableEq P] {s s' : DiskSys P} {r : Request} {c : DiskCall}

/-- The increment that the step makes, `disk.avail.idx += 1` or `disk.used_idx += 1`, overflows. -/
def DiskSys.overflows (s : DiskSys P) : DiskAction P → Bool
  | .run p =>
    match s.frame p with
    | .alloc _ =>
      match s.disk.alloc3Desc with
      | (.ok _, _, _) => s.disk.avail.idx == 0xFFFF
      | (.error _, _, _) => false
    | _ => false
  | .interrupt =>
    match s.owner with
    | some .handler => s.disk.usedIdx != s.disk.used.idx && s.disk.usedIdx == 0xFFFF
    | _ => false
  | _ => false

theorem ofNat_eq_max_iff (n : ℕ) : UInt16.ofNat n = 0xFFFF ↔ 65536 ∣ n + 1 := by
  rw [← UInt16.toNat_inj, UInt16.toNat_ofNat']
  change n % 2 ^ 16 = 65535 ↔ _
  omega

/-- The step makes the count of the requests in the `avail` ring, or that of the completions taken
out of the `used` ring, a multiple of `2^16`. -/
def DiskSys.Wraps (s s' : DiskSys P) : Prop :=
  (s'.submitted.length = s.submitted.length + 1 ∧ 65536 ∣ s'.submitted.length) ∨
  (s'.handled = s.handled + 1 ∧ 65536 ∣ s'.handled)

omit [DecidableEq P] in
theorem DiskSys.not_wraps (hsub : s'.submitted = s.submitted) (hhandled : s'.handled = s.handled) :
    ¬s.Wraps s' := by
  rintro (⟨h, -⟩ | ⟨h, -⟩)
  · rw [hsub] at h
    omega
  · omega

theorem DiskInv.overflows_run (h : DiskInv s) {p : P} (hs : s.run p = some s') :
    s.overflows (.run p) = true ↔ s.Wraps s' := by
  unfold DiskSys.run at hs
  dsimp only [DiskSys.overflows]
  cases hp : s.frame p with
  | user | allocSleep | waitSleep =>
    rw [hp] at hs
    cases hs
  | start | waitLock =>
    rw [hp] at hs
    dsimp only [DiskSys.acquire] at hs ⊢
    split_ifs at hs
    cases hs
    exact iff_of_false Bool.false_ne_true (DiskSys.not_wraps rfl rfl)
  | alloc c =>
    rw [hp] at hs
    dsimp only [DiskSys.allocStep] at hs ⊢
    rcases alloc3Desc_spec h.clean with ⟨i, j, k, heq, -⟩ | ⟨e, freed, heq⟩
    · rw [heq] at hs ⊢
      cases hs
      dsimp only
      rw [h.avail.idx, beq_iff_eq, ofNat_eq_max_iff]
      have hlen (d : VirtioDisk) (r : Request) : (s.submit p d r).submitted.length = s.submitted.length + 1 := by
        simp [DiskSys.submit]
      refine ⟨fun hdvd => .inl ⟨hlen _ _, by rwa [hlen]⟩, ?_⟩
      rintro (⟨-, hdvd⟩ | ⟨hne, -⟩)
      · rwa [hlen] at hdvd
      · exact absurd hne (Nat.ne_of_lt (Nat.lt_succ_self _))
    · rw [heq] at hs ⊢
      cases hs
      exact iff_of_false Bool.false_ne_true (DiskSys.not_wraps rfl rfl)
  | wait r =>
    rw [hp] at hs
    cases hs
    obtain ⟨hsub, -, -, -, hhandled⟩ := s.waitStep_counts p r
    exact iff_of_false Bool.false_ne_true (DiskSys.not_wraps hsub hhandled)

theorem DiskInv.overflows_iff (h : DiskInv s) {a : DiskAction P} (hs : DiskStep s a s') :
    s.overflows a = true ↔ s.Wraps s' := by
  obtain ⟨hs, -⟩ := hs
  unfold DiskSys.next at hs
  rw [Option.ite_none_left_eq_some] at hs
  replace hs := hs.2
  cases a with
  | rw p c =>
    dsimp only at hs
    split_ifs at hs
    cases hs
    exact iff_of_false (by simp [DiskSys.overflows]) (DiskSys.not_wraps rfl rfl)
  | run p => exact h.overflows_run hs
  | kill p =>
    cases hs
    exact iff_of_false (by simp [DiskSys.overflows]) (DiskSys.not_wraps rfl rfl)
  | interrupt =>
    dsimp only [DiskSys.overflows] at hs ⊢
    split at hs <;> rename_i howner <;> cases hs <;> rw [howner]
    · exact iff_of_false Bool.false_ne_true (DiskSys.not_wraps rfl rfl)
    · rw [Bool.and_eq_true, bne_iff_ne, h.used.seen_ne_iff, beq_iff_eq, h.used.seen, ofNat_eq_max_iff]
      by_cases hlt : s.handled < s.completed.length
      · obtain ⟨p, r, -, -, heq⟩ := h.handleStep_eq hlt
        rw [heq]
        refine ⟨fun hdvd => .inr ⟨rfl, hdvd.2⟩, ?_⟩
        rintro (⟨hne, -⟩ | ⟨-, hdvd⟩)
        · exact absurd hne (Nat.ne_of_lt (Nat.lt_succ_self _))
        · exact ⟨hlt, hdvd⟩
      · rw [DiskSys.handleStep, if_neg fun hne => hlt (h.used.seen_ne_iff.1 hne)]
        exact iff_of_false (fun hc => hlt hc.1) (DiskSys.not_wraps rfl rfl)
  | fetch =>
    obtain ⟨-, -, hsub, -, hhandled⟩ := DiskSys.fetch_frame hs
    exact iff_of_false (by simp [DiskSys.overflows]) (DiskSys.not_wraps hsub hhandled)
  | complete n =>
    refine iff_of_false (by simp [DiskSys.overflows]) ?_
    obtain ⟨entry, -, hs⟩ := Option.bind_eq_some_iff.1 hs
    cases hs
    exact DiskSys.not_wraps rfl rfl

/-- A step overflows an index exactly if it submits a request, or takes a completion, whose number
is a multiple of `2^16`; and the place of the `k`-th request is `k` modulo `NUM` in both rings, for
the driver and for the device. -/
theorem ring_indices (h : Reachable DiskInit DiskStep s) :
    (∀ a s', DiskStep s a s' → (s.overflows a = true ↔
      (s'.submitted.length = s.submitted.length + 1 ∧ 65536 ∣ s'.submitted.length) ∨
      (s'.handled = s.handled + 1 ∧ 65536 ∣ s'.handled))) ∧
    (ringSlot s.disk.avail.idx).val = s.submitted.length % NUM ∧
    (ringSlot s.seen).val = s.fetched % NUM ∧
    (ringSlot s.disk.used.idx).val = s.completed.length % NUM ∧
    (ringSlot s.disk.usedIdx).val = s.handled % NUM := by
  have hinv := DiskInv.of_reachable h
  refine ⟨fun a s' hs => hinv.overflows_iff hs, ?_, ?_, ?_, ?_⟩
  · rw [hinv.avail.idx, ringSlot_ofNat]
    rfl
  · rw [hinv.avail.seen, ringSlot_ofNat]
    rfl
  · rw [hinv.used.idx, ringSlot_ofNat]
    rfl
  · rw [hinv.used.seen, ringSlot_ofNat]
    rfl

/-! ## One request after the other -/

abbrev DiskSys.Checked (s : DiskSys P) : Prop :=
  Reachable DiskInit (Guarded (fun s a => s.overflows a = false) DiskStep) s

theorem DiskSys.Checked.inv (h : s.Checked) : DiskInv s :=
  DiskInv.of_reachable (.mono (fun _ _ _ hs => hs.2) h)

/-- Where the only process and the counts of the requests stand. -/
structure DiskSys.Turn (s : DiskSys Unit) (f : DiskFrame) (o : Option (DiskOwner Unit))
    (submitted fetched working completed handled : ℕ) : Prop where
  checked : s.Checked
  frame : s.frame () = f
  owner : s.owner = o
  submitted : s.submitted.length = submitted
  fetched : s.fetched = fetched
  working : s.working.length = working
  completed : s.completed.length = completed
  handled : s.handled = handled

namespace DiskSys.Turn

variable {s s' : DiskSys Unit} {f : DiskFrame} {o : Option (DiskOwner Unit)} {ns nf nw nc nh : ℕ}

section

variable (h : s.Turn f o ns nf nw nc nh)
include h

theorem checked_step {a : DiskAction Unit} (hs : DiskStep s a s')
    (hsub : s'.submitted.length < 65536) (hhandled : s'.handled < 65536) : s'.Checked := by
  refine .step h.checked ⟨?_, hs⟩
  change s.overflows a = false
  rw [Bool.eq_false_iff, Ne, h.checked.inv.overflows_iff hs]
  rintro (⟨hlen, hdvd⟩ | ⟨hlen, hdvd⟩)
  · have := Nat.le_of_dvd (by omega) hdvd
    omega
  · have := Nat.le_of_dvd (by omega) hdvd
    omega

/-- The buffer of the process is marked exactly as long as its request is outstanding. -/
theorem busy_iff (hf : f.request = some r) :
    s.busy r.call.buf = true ↔ nf < ns ∨ 0 < nw ∨ nh < nc := by
  have hinv := h.checked.inv
  have hreq : (s.frame ()).request = some r := by rw [h.frame, hf]
  have hcard : s.outstanding.card = (ns - nf) + nw + (nc - nh) := by
    unfold DiskSys.outstanding
    rw [Multiset.card_add, Multiset.card_add, Multiset.coe_card, Multiset.coe_card, Multiset.coe_card,
      List.length_drop, List.length_drop, h.submitted, h.fetched, h.working, h.completed, h.handled]
  refine ⟨fun hb => ?_, fun hpos => ?_⟩
  · have := Multiset.card_pos_iff_exists_mem.2 ⟨_, hinv.pending () r hreq hb⟩
    omega
  · obtain ⟨e, he⟩ := Multiset.card_pos_iff_exists_mem.1 (show 0 < s.outstanding.card by omega)
    obtain ⟨p, r', hp, -, hb⟩ := hinv.origin e he
    obtain rfl : r = r' := Option.some.inj (hreq.symm.trans hp)
    exact hb

theorem step {a : DiskAction Unit} (ha : ∀ p c, a ≠ .rw p c) (hs : s.next a = some s')
    (hsub : s'.submitted.length < 65536) (hhandled : s'.handled < 65536) : s'.Checked :=
  h.checked_step ⟨hs, fun p c hc => absurd hc (ha p c)⟩ hsub hhandled

theorem running : ¬s.panicked := by
  rw [h.checked.inv.running]
  decide

end

theorem call (h : s.Turn .user none ns nf nw nc nh) (hns : ns < 65536) (hnh : nh < 65536)
    (c : DiskCall) : ∃ s' : DiskSys Unit, s'.Turn (.start c) none ns nf nw nc nh := by
  have hs : DiskStep s (.rw () c) (s.setFrame () (.start c)) := by
    refine ⟨?_, ?_⟩
    · rw [DiskSys.next, if_neg h.running]
      exact if_pos h.frame
    · rintro p c' - q d hq
      rw [h.frame] at hq
      cases hq
  exact ⟨_, h.checked_step hs (h.submitted.trans_lt hns) (h.handled.trans_lt hnh), rfl, h.owner, h.submitted,
    h.fetched, h.working, h.completed, h.handled⟩

theorem next_run (h : s.Turn f o ns nf nw nc nh) : s.next (.run ()) = s.run () := by
  rw [DiskSys.next, if_neg h.running]

theorem run_start (h : s.Turn (.start c) o ns nf nw nc nh) :
    s.run () = s.acquire () (.alloc c) := by
  rw [DiskSys.run, h.frame]

theorem run_waitLock (h : s.Turn (.waitLock r) o ns nf nw nc nh) :
    s.run () = s.acquire () (.wait r) := by
  rw [DiskSys.run, h.frame]

theorem acquire (h : s.Turn f none ns nf nw nc nh) (hns : ns < 65536) (hnh : nh < 65536)
    {f' : DiskFrame} (hf : s.run () = s.acquire () f') :
    ∃ s' : DiskSys Unit, s'.Turn f' (some (.process ())) ns nf nw nc nh := by
  have hs : s.next (.run ()) = some { s.setFrame () f' with owner := some (.process ()) } := by
    rw [h.next_run, hf, DiskSys.acquire, h.owner]
    rfl
  exact ⟨_, h.step (by simp) hs (h.submitted.trans_lt hns) (h.handled.trans_lt hnh), rfl, rfl, h.submitted,
    h.fetched, h.working, h.completed, h.handled⟩

theorem alloc_eq (h : s.Turn (.alloc c) o ns nf nw nc nh) :
    ∃ i j k, s.disk.alloc3Desc = (.ok [i, j, k], [], s.disk.take [i, j, k]) := by
  have hinv := h.checked.inv
  have hfree : ∀ i, s.disk.free i = true := by
    intro i
    by_contra hi
    obtain ⟨p, r, hp, -⟩ := hinv.owner i (Bool.eq_false_of_not_eq_true hi)
    rw [h.frame] at hp
    cases hp
  have hcount : 3 ≤ s.disk.freeCount := by
    rw [VirtioDisk.freeCount, Finset.filter_true_of_mem fun i _ => hfree i]
    decide
  rcases alloc3Desc_spec hinv.clean with ⟨i, j, k, heq, -⟩ | ⟨e, freed, heq⟩
  · exact ⟨i, j, k, heq⟩
  · exact absurd (freeCount_lt_of_error heq) (not_lt.2 hcount)

theorem next_alloc (h : s.Turn (.alloc c) o ns nf nw nc nh) {i j k : DescId}
    (heq : s.disk.alloc3Desc = (.ok [i, j, k], [], s.disk.take [i, j, k])) :
    s.next (.run ()) =
      some (s.submit () (s.disk.take [i, j, k]) ⟨c, i, j, k, s.submitted.length⟩) := by
  rw [h.next_run, DiskSys.run, h.frame]
  dsimp only [DiskSys.allocStep]
  rw [heq]

theorem alloc (h : s.Turn (.alloc c) o ns nf nw nc nh) (hns : ns + 1 < 65536) (hnh : nh < 65536) :
    ∃ (s' : DiskSys Unit) (r : Request), s'.Turn (.wait r) o (ns + 1) nf nw nc nh := by
  obtain ⟨i, j, k, heq⟩ := h.alloc_eq
  have hlen : (s.submit () (s.disk.take [i, j, k]) ⟨c, i, j, k, s.submitted.length⟩).submitted.length = ns + 1 := by
    simp [DiskSys.submit, h.submitted]
  exact ⟨_, _, h.step (by simp) (h.next_alloc heq) (hlen.trans_lt hns) (h.handled.trans_lt hnh), rfl, h.owner, hlen,
    h.fetched, h.working, h.completed, h.handled⟩

theorem sleep (h : s.Turn (.wait r) o ns nf nw nc nh) (hns : ns < 65536) (hnh : nh < 65536)
    (hout : nf < ns ∨ 0 < nw ∨ nh < nc) :
    ∃ s' : DiskSys Unit, s'.Turn (.waitSleep r) none ns nf nw nc nh := by
  have hs : s.next (.run ()) = some (s.unlock () (.waitSleep r)) := by
    rw [h.next_run, DiskSys.run, h.frame]
    dsimp only [DiskSys.waitStep]
    rw [if_pos ((h.busy_iff rfl).2 hout)]
  exact ⟨_, h.step (by simp) hs (h.submitted.trans_lt hns) (h.handled.trans_lt hnh), rfl, rfl, h.submitted,
    h.fetched, h.working, h.completed, h.handled⟩

theorem finish {n : ℕ} (h : s.Turn (.wait r) o n n 0 n n) (hn : n < 65536) :
    ∃ s' : DiskSys Unit, s'.Turn .user none n n 0 n n := by
  have hinv := h.checked.inv
  have hb : s.busy r.call.buf = false := by
    rw [Bool.eq_false_iff, Ne, h.busy_iff rfl]
    omega
  have hs : s.next (.run ()) = some (s.waitStep () r) := by
    rw [h.next_run, DiskSys.run, h.frame]
  obtain ⟨hframe, howner, -⟩ := hinv.waitStep_done h.frame hb
  obtain ⟨hsub, hfetched, hworking, hcompleted, hhandled⟩ := s.waitStep_counts () r
  refine ⟨_, h.step (by simp) hs ?_ ?_, ?_, howner, ?_, ?_, ?_, ?_, ?_⟩
  · rw [hsub, h.submitted]
    exact hn
  · rw [hhandled, h.handled]
    exact hn
  · rw [hframe]
    rfl
  · rw [hsub, h.submitted]
  · rw [hfetched, h.fetched]
  · rw [hworking, h.working]
  · rw [hcompleted, h.completed]
  · rw [hhandled, h.handled]

theorem fetch (h : s.Turn f o ns nf nw nc nh) (hns : ns < 65536) (hnh : nh < 65536)
    (hlt : nf < ns) : ∃ s' : DiskSys Unit, s'.Turn f o ns (nf + 1) (nw + 1) nc nh := by
  have hlt' : s.fetched < s.submitted.length := by rw [h.fetched, h.submitted]; exact hlt
  have hinv := h.checked.inv
  have hs : s.next .fetch = some
      { s with
        seen := s.seen + 1
        working := s.working ++ [s.submitted.get ⟨s.fetched, hlt'⟩]
        fetched := s.fetched + 1 } := by
    rw [DiskSys.next, if_neg h.running]
    dsimp only [DiskSys.fetch]
    rw [if_pos (hinv.avail.seen_ne_iff.2 hlt'), hinv.avail.front hlt', toNat_ofNat_descId, descId_val,
      List.getElem?_eq_getElem hlt']
    rfl
  refine ⟨_, h.step (by simp) hs (h.submitted.trans_lt hns) (h.handled.trans_lt hnh), h.frame, h.owner,
    h.submitted, congrArg (· + 1) h.fetched, ?_, h.completed, h.handled⟩
  rw [List.length_append, h.working]
  rfl

theorem complete (h : s.Turn f o ns nf (nw + 1) nc nh) (hns : ns < 65536) (hnh : nh < 65536) :
    ∃ s' : DiskSys Unit, s'.Turn f o ns nf nw (nc + 1) nh := by
  have hlt : 0 < s.working.length := by rw [h.working]; omega
  have hs : s.next (.complete 0) = some
      { s with
        disk := s.disk.complete (s.working.get ⟨0, hlt⟩).1
        working := s.working.eraseIdx 0
        completed := s.completed ++ [s.working.get ⟨0, hlt⟩] } := by
    rw [DiskSys.next, if_neg h.running]
    dsimp only [DiskSys.complete]
    rw [List.getElem?_eq_getElem hlt]
    rfl
  refine ⟨_, h.step (by simp) hs (h.submitted.trans_lt hns) (h.handled.trans_lt hnh), h.frame, h.owner,
    h.submitted, h.fetched, ?_, ?_, h.handled⟩
  · rw [List.length_eraseIdx_of_lt hlt, h.working]
    rfl
  · rw [List.length_append, h.completed]
    rfl

theorem handle (h : s.Turn f (some .handler) ns nf nw nc nh) :
    s.next .interrupt = some s.handleStep := by
  rw [DiskSys.next, if_neg h.running, h.owner]

theorem interrupt (h : s.Turn f none ns nf nw nc nh) (hns : ns < 65536) (hnh : nh < 65536) :
    ∃ s' : DiskSys Unit, s'.Turn f (some .handler) ns nf nw nc nh := by
  have hs : s.next .interrupt = some { s with owner := some .handler } := by
    rw [DiskSys.next, if_neg h.running, h.owner]
  exact ⟨_, h.step (by simp) hs (h.submitted.trans_lt hns) (h.handled.trans_lt hnh), h.frame, rfl, h.submitted,
    h.fetched, h.working, h.completed, h.handled⟩

theorem consume (h : s.Turn (.waitSleep r) (some .handler) ns nf nw nc nh) (hns : ns < 65536)
    (hnh : nh + 1 < 65536) (hlt : nh < nc) :
    ∃ s' : DiskSys Unit, s'.Turn (.waitLock r) (some .handler) ns nf nw nc (nh + 1) := by
  have hlt' : s.handled < s.completed.length := by rw [h.handled, h.completed]; exact hlt
  obtain ⟨p, r', hp, -, heq⟩ := h.checked.inv.handleStep_eq hlt'
  obtain rfl : r = r' := by
    rw [h.frame] at hp
    exact Option.some.inj hp
  have hs := h.handle
  rw [heq] at hs
  have hhandled : s.handled + 1 = nh + 1 := by rw [h.handled]
  refine ⟨_, h.step (by simp) hs (h.submitted.trans_lt hns) (hhandled.trans_lt hnh), ?_, h.owner, h.submitted,
    h.fetched, h.working, h.completed, hhandled⟩
  dsimp only [DiskSys.wakeBuf]
  rw [h.frame]
  exact if_pos rfl

theorem leave (h : s.Turn f (some .handler) ns nf nw nc nc) (hns : ns < 65536) (hnc : nc < 65536) :
    ∃ s' : DiskSys Unit, s'.Turn f none ns nf nw nc nc := by
  have hs := h.handle
  rw [DiskSys.handleStep, if_neg fun hne => absurd (h.checked.inv.used.seen_ne_iff.1 hne)
    (by rw [h.handled, h.completed]; exact lt_irrefl nc)] at hs
  exact ⟨_, h.step (by simp) hs (h.submitted.trans_lt hns) (h.handled.trans_lt hnc), h.frame, rfl, h.submitted,
    h.fetched, h.working, h.completed, h.handled⟩

theorem round {n : ℕ} (h : s.Turn .user none n n 0 n n) (hn : n + 1 < 65536) :
    ∃ s' : DiskSys Unit, s'.Turn .user none (n + 1) (n + 1) 0 (n + 1) (n + 1) := by
  have hn' : n < 65536 := by omega
  obtain ⟨s1, h1⟩ := h.call hn' hn' ⟨⟨0, by decide⟩, 0, false⟩
  obtain ⟨s2, h2⟩ := h1.acquire hn' hn' h1.run_start
  obtain ⟨s3, r, h3⟩ := h2.alloc hn hn'
  obtain ⟨s4, h4⟩ := h3.sleep hn hn' (by omega)
  obtain ⟨s5, h5⟩ := h4.fetch hn hn' (by omega)
  obtain ⟨s6, h6⟩ := h5.complete hn hn'
  obtain ⟨s7, h7⟩ := h6.interrupt hn hn'
  obtain ⟨s8, h8⟩ := h7.consume hn hn (by omega)
  obtain ⟨s9, h9⟩ := h8.leave hn hn
  obtain ⟨s₁₀, h₁₀⟩ := h9.acquire hn hn h9.run_waitLock
  exact h₁₀.finish hn

theorem rounds (n : ℕ) (hn : n < 65536) : ∃ s : DiskSys Unit, s.Turn .user none n n 0 n n := by
  induction n with
  | zero => exact ⟨DiskSys.new, .init rfl, rfl, rfl, rfl, rfl, rfl, rfl, rfl⟩
  | succ n ih =>
    obtain ⟨s, hs⟩ := ih (by omega)
    exact hs.round hn

end DiskSys.Turn

/-- The request with number 65536 since boot: no index has overflowed before it, and `disk.avail.idx
+= 1` does. -/
theorem avail_index_overflows : ∃ s s' : DiskSys Unit,
    Reachable DiskInit (Guarded (fun s a => s.overflows a = false) DiskStep) s ∧
    DiskStep s (.run ()) s' ∧ s.overflows (.run ()) = true := by
  obtain ⟨s, h⟩ := DiskSys.Turn.rounds 65535 (by omega)
  obtain ⟨s₁, h₁⟩ := h.call (by omega) (by omega) ⟨⟨0, by decide⟩, 0, false⟩
  obtain ⟨s₂, h₂⟩ := h₁.acquire (by omega) (by omega) h₁.run_start
  obtain ⟨i, j, k, heq⟩ := h₂.alloc_eq
  refine ⟨s₂, _, h₂.checked, ⟨h₂.next_alloc heq, fun _ _ hc => nomatch hc⟩, ?_⟩
  dsimp only [DiskSys.overflows]
  rw [h₂.frame, heq]
  dsimp only
  rw [h₂.checked.inv.avail.idx, h₂.submitted]
  decide

/-- After 65535 requests. -/
theorem ring_indices_rounds : ∃ s :
    DiskSys Unit, Reachable DiskInit DiskStep s ∧ s.submitted.length = 65535 ∧
    (ringSlot s.disk.avail.idx).val = 7 ∧ (ringSlot s.disk.usedIdx).val = 7 := by
  obtain ⟨s, h⟩ := DiskSys.Turn.rounds 65535 (by omega)
  have hreach : Reachable DiskInit DiskStep s := .mono (fun _ _ _ hs => hs.2) h.checked
  obtain ⟨-, havail, -, -, hused⟩ := ring_indices hreach
  rw [h.submitted] at havail
  rw [h.handled] at hused
  exact ⟨s, hreach, h.submitted, havail, hused⟩

end Octopos
