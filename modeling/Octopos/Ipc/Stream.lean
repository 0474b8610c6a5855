import Octopos.Ipc.Pipe

/-!
# A pipe is a stream of bytes

The bytes that were put in and not taken out are the window of the ring (`Stream`). A process that
holds the lock knows something about the pipe at the point where it stands (`PipeFrame.Ok`), and
nobody else can change the pipe.
-/

namespace Octopos

/-! ## The ring -/

/-- The pipe holds the bytes of `put` from position `taken.length` on, and the rest came out. -/
structure Stream (x : PipeInner) (put taken : List UInt8) : Prop where
  numRead : x.numRead = UInt64.ofNat taken.length
  numWrite : x.numWrite = UInt64.ofNat put.length
  le : taken.length ≤ put.length
  size : put.length ≤ taken.length + PIPESIZE
  keeps : Keeps PIPESIZE x.data taken.length put
  taken : taken <+: put

section Ring

variable {x : PipeInner} {put taken : List UInt8}

theorem pipeSlot_ofNat (n : ℕ) : pipeSlot (UInt64.ofNat n) = Fin.ofNat PIPESIZE n := by
  have h512 : PIPESIZE = 512 := rfl
  refine Fin.ext ?_
  change n % 2 ^ 64 % PIPESIZE = n % PIPESIZE
  rw [h512]
  omega

/-- Counters are equal if the numbers they count are, as long as these are close. -/
theorem ofNat_eq_iff {a b : ℕ} (hab : a ≤ b) (hb : b < a + 2 ^ 64) :
    UInt64.ofNat a = UInt64.ofNat b ↔ a = b := by
  rw [← UInt64.toNat_inj, UInt64.toNat_ofNat', UInt64.toNat_ofNat']
  omega

theorem Stream.isEmpty_iff (h : Stream x put taken) :
    x.isEmpty = true ↔ put.length = taken.length := by
  have h512 : PIPESIZE = 512 := rfl
  have hsize := h.size
  rw [PipeInner.isEmpty, beq_iff_eq, h.numRead, h.numWrite, ofNat_eq_iff h.le (by omega)]
  exact eq_comm

theorem Stream.isFull_iff (h : Stream x put taken) :
    x.isFull = true ↔ put.length = taken.length + PIPESIZE := by
  have h512 : PIPESIZE = 512 := rfl
  have hle := h.le
  have hsize := h.size
  rw [PipeInner.isFull, beq_iff_eq, h.numRead, h.numWrite, ← UInt64.ofNat_add]
  rw [← UInt64.toNat_inj, UInt64.toNat_ofNat', UInt64.toNat_ofNat']
  omega

theorem Stream.new : Stream PipeInner.new [] [] where
  numRead := rfl
  numWrite := rfl
  le := le_rfl
  size := by decide
  keeps := Keeps.nil
  taken := List.prefix_rfl

theorem Stream.push (h : Stream x put taken) (hfull : x.isFull = false) (ch : UInt8) :
    Stream (x.push ch) (put ++ [ch]) taken := by
  have hlt : put.length < taken.length + PIPESIZE := by
    refine lt_of_le_of_ne h.size fun heq => ?_
    rw [h.isFull_iff.2 heq] at hfull
    cases hfull
  refine ⟨h.numRead, ?_, ?_, ?_, ?_, h.taken.trans (List.prefix_append _ _)⟩
  · rw [List.length_append, List.length_singleton, UInt64.ofNat_add, ← h.numWrite]
    rfl
  · rw [List.length_append]
    exact h.le.trans (Nat.le_add_right _ _)
  · rw [List.length_append, List.length_singleton]
    exact hlt
  · have hslot := pipeSlot_ofNat put.length
    rw [← h.numWrite] at hslot
    unfold PipeInner.push
    rw [hslot]
    exact h.keeps.push hlt ch

theorem Stream.pop (h : Stream x put taken) (hempty : x.isEmpty = false) :
    Stream x.pop put (taken ++ [x.front]) := by
  have hlt : taken.length < put.length := by
    refine lt_of_le_of_ne h.le fun heq => ?_
    rw [h.isEmpty_iff.2 heq.symm] at hempty
    cases hempty
  have hfront : x.front = put.get ⟨taken.length, hlt⟩ := by
    have hslot := pipeSlot_ofNat taken.length
    rw [← h.numRead] at hslot
    unfold PipeInner.front
    rw [hslot]
    exact h.keeps taken.length le_rfl hlt
  refine ⟨?_, h.numWrite, ?_, ?_, ?_, ?_⟩
  · rw [List.length_append, List.length_singleton, UInt64.ofNat_add, ← h.numRead]
    rfl
  · rw [List.length_append, List.length_singleton]
    exact hlt
  · rw [List.length_append]
    have := h.size
    omega
  · rw [List.length_append]
    exact h.keeps.drop (Nat.le_add_right _ _)
  · obtain ⟨rest, hrest⟩ := h.taken
    cases rest with
    | nil =>
      rw [List.append_nil] at hrest
      rw [hrest] at hlt
      exact absurd hlt (lt_irrefl _)
    | cons b rest =>
      refine ⟨rest, ?_⟩
      subst hrest
      rw [hfront]
      simp

end Ring

/-! ## What the holder of the lock knows -/

/-- What is known of the pipe at a point of a pipe function. -/
def PipeFrame.Ok (x : PipeInner) : PipeFrame → Prop
  | write _ start i => start ≤ i ∧ (start < i → x.isEmpty = false ∧ x.readOpen = true)
  | writeFull _ _ => x.isFull = true ∧ x.readOpen = true
  | read _ i => (i = 0 → x.isEmpty = true → x.writeOpen = false) ∧ (0 < i → x.isFull = false)
  | readEnd n i => i = 0 → 0 < n → x.isEmpty = true ∧ x.writeOpen = false
  | _ => True

theorem PipeFrame.Ok.of_holds {x : PipeInner} {f : PipeFrame} (h : f.holds = false) : f.Ok x := by
  cases f with
  | write | writeFull | read | readEnd => cases h
  | _ => trivial

/-- The pipe holds the stream, and one process at most holds the lock. -/
structure PipeInv {P : Type} (s : PipeState P) : Prop where
  stream : Stream s.pipe s.put s.taken
  owner : ∀ p, (s.frame p).holds = true ↔ s.owner = some p
  frame : ∀ p, (s.frame p).Ok s.pipe

section Inv

variable {P : Type} {s s' : PipeState P} {p : P} {f : PipeFrame}

theorem PipeInv.holds_other (h : PipeInv s) (hp : s.owner = some p) {q : P} (hq : q ≠ p) :
    (s.frame q).holds = false := by
  rw [Bool.eq_false_iff, ne_eq, h.owner q, hp]
  exact fun heq => hq (Option.some.inj heq).symm

theorem PipeFrame.holds_of_asleep {c : PipeChannel} (h : f.asleep = some c) :
    f.holds = false ∧ f.wake.holds = false := by
  cases f with
  | writeSleep | readSleep => exact ⟨rfl, rfl⟩
  | _ => cases h

theorem PipeFrame.wake_of_asleep (h : f.asleep = none) : f.wake = f := by
  cases f with
  | writeSleep | readSleep => cases h
  | _ => rfl

theorem PipeInv.wakeup (h : PipeInv s) (c : PipeChannel) : PipeInv (s.wakeup c) where
  stream := h.stream
  owner q := by
    unfold PipeState.wakeup
    dsimp only
    split_ifs with hq
    · have hold := PipeFrame.holds_of_asleep hq
      rw [← h.owner q, hold.1, hold.2]
    · exact h.owner q
  frame q := by
    unfold PipeState.wakeup
    dsimp only
    split_ifs with hq
    · exact .of_holds (PipeFrame.holds_of_asleep hq).2
    · exact h.frame q

variable [DecidableEq P]

theorem PipeInv.setFrame (h : PipeInv s) (hp : (s.frame p).holds = false) (hf : f.holds = false) :
    PipeInv (s.setFrame p f) where
  stream := h.stream
  owner q := by
    by_cases hq : q = p
    · subst hq
      change (upd s.frame q f q).holds = true ↔ _
      rw [upd_self, hf, ← hp]
      exact h.owner q
    · change (upd s.frame p f q).holds = true ↔ _
      rw [upd_of_ne hq]
      exact h.owner q
  frame q := by
    by_cases hq : q = p
    · subst hq
      change (upd s.frame q f q).Ok s.pipe
      rw [upd_self]
      exact .of_holds hf
    · change (upd s.frame p f q).Ok s.pipe
      rw [upd_of_ne hq]
      exact h.frame q

theorem PipeInv.advance (h : PipeInv s) (hp : s.owner = some p) (hf : f.holds = true)
    {x : PipeInner} {put taken : List UInt8} (hx : Stream x put taken) (hok : f.Ok x) :
    PipeInv { s.setFrame p f with pipe := x, put := put, taken := taken } where
  stream := hx
  owner q := by
    by_cases hq : q = p
    · subst hq
      change (upd s.frame q f q).holds = true ↔ _
      rw [upd_self]
      exact iff_of_true hf hp
    · change (upd s.frame p f q).holds = true ↔ _
      rw [upd_of_ne hq]
      exact h.owner q
  frame q := by
    by_cases hq : q = p
    · subst hq
      change (upd s.frame q f q).Ok x
      rwa [upd_self]
    · change (upd s.frame p f q).Ok x
      rw [upd_of_ne hq]
      exact .of_holds (h.holds_other hp hq)

theorem PipeInv.setOwner (h : PipeInv s) (hs : s.owner = none ∨ s.owner = some p) {o : Option P}
    (ho : o = none ∨ o = some p) (hf : f.holds = true ↔ o = some p) (hok : f.Ok s.pipe) :
    PipeInv { s.setFrame p f with owner := o } where
  stream := h.stream
  owner q := by
    by_cases hq : q = p
    · subst hq
      change (upd s.frame q f q).holds = true ↔ _
      rw [upd_self]
      exact hf
    · change (upd s.frame p f q).holds = true ↔ _
      rw [upd_of_ne hq, h.owner q]
      have hne {o : Option P} (ho : o = none ∨ o = some p) : o ≠ some q := by
        rcases ho with rfl | rfl
        · exact fun h => by cases h
        · exact fun h => hq (Option.some.inj h).symm
      exact iff_of_false (hne hs) (hne ho)
  frame q := by
    by_cases hq : q = p
    · subst hq
      change (upd s.frame q f q).Ok s.pipe
      rwa [upd_self]
    · change (upd s.frame p f q).Ok s.pipe
      rw [upd_of_ne hq]
      exact h.frame q

theorem PipeInv.acquire (h : PipeInv s) (hs : s.acquire p f = some s') (hf : f.holds = true)
    (hok : f.Ok s.pipe) : PipeInv s' := by
  unfold PipeState.acquire at hs
  split at hs
  · cases hs
    rename_i hfree
    exact h.setOwner (Or.inl hfree) (Or.inr rfl) (by simp [hf]) hok
  · cases hs

theorem PipeInv.unlock (h : PipeInv s) (hp : s.owner = some p) (hf : f.holds = false) :
    PipeInv (s.unlock p f) :=
  h.setOwner (Or.inr hp) (Or.inl rfl) (by simp [hf]) (.of_holds hf)

theorem PipeInv.leave (h : PipeInv s) (hp : s.owner = some p) (r : Except PipeError ℕ) :
    PipeInv (s.leave p r) :=
  have h' := h.unlock (f := .user) hp rfl
  ⟨h'.stream, h'.owner, h'.frame⟩

section

variable (h : PipeInv s)
include h

theorem PipeInv.writeStep {n start i : ℕ} (hf : s.frame p = .write n start i)
    (copy : Option UInt8) : PipeInv (s.writeStep p n start i copy) := by
  have hp : s.owner = some p := (h.owner p).1 (by rw [hf]; rfl)
  unfold PipeState.writeStep
  split_ifs with h1 h2 h3 h4
  · exact h.advance hp rfl h.stream trivial
  · exact h.leave hp _
  · exact h.leave hp _
  · rw [Bool.not_eq_true', Bool.not_eq_false] at h3
    exact (h.wakeup .pipeRead).advance hp rfl h.stream ⟨h4, h3⟩
  · rw [Bool.not_eq_true', Bool.not_eq_false] at h3
    rw [Bool.not_eq_true] at h4
    cases copy with
    | none => exact h.advance hp rfl h.stream trivial
    | some ch =>
      have hpush := h.stream.push h4 ch
      have hle : start ≤ i := (hf ▸ h.frame p : (PipeFrame.write n start i).Ok s.pipe).1
      refine h.advance hp rfl hpush ⟨by omega, fun _ => ⟨?_, h3⟩⟩
      rw [Bool.eq_false_iff, ne_eq, hpush.isEmpty_iff, List.length_append, List.length_singleton]
      have := h.stream.le
      omega

theorem PipeInv.readWaitStep {n : ℕ} (hf : s.frame p = .readWait n) :
    PipeInv (s.readWaitStep p n) := by
  have hp : s.owner = some p := (h.owner p).1 (by rw [hf]; rfl)
  unfold PipeState.readWaitStep
  split_ifs with h1 h2
  · exact h.leave hp _
  · exact h.unlock hp rfl
  · refine h.advance hp rfl h.stream ⟨fun _ hempty => ?_, fun h0 => absurd h0 (lt_irrefl _)⟩
    rw [hempty, Bool.true_and, Bool.not_eq_true] at h1
    exact h1

theorem PipeInv.readStep {n i : ℕ} (hf : s.frame p = .read n i) (copy : Option UInt8) :
    PipeInv (s.readStep p n i copy) := by
  have hp : s.owner = some p := (h.owner p).1 (by rw [hf]; rfl)
  have hok : (PipeFrame.read n i).Ok s.pipe := hf ▸ h.frame p
  unfold PipeState.readStep
  split_ifs with h1 h2
  · exact h.advance hp rfl h.stream fun h0 hn => by omega
  · exact h.advance hp rfl h.stream fun h0 _ => ⟨h2, hok.1 h0 h2⟩
  · rw [Bool.not_eq_true] at h2
    cases copy with
    | none => exact h.leave hp _
    | some _ =>
      have hpop := h.stream.pop h2
      refine h.advance hp rfl hpop ⟨fun h0 => absurd h0 (Nat.succ_ne_zero _), fun _ => ?_⟩
      rw [Bool.eq_false_iff, ne_eq, hpop.isFull_iff, List.length_append, List.length_singleton]
      have := h.stream.size
      omega

theorem PipeInv.closeStep {writeable : Bool} (hf : s.frame p = .close writeable) :
    PipeInv (s.closeStep p writeable) := by
  have hp : s.owner = some p := (h.owner p).1 (by rw [hf]; rfl)
  unfold PipeState.closeStep
  have hx : Stream (if writeable then { s.pipe with writeOpen := false }
      else { s.pipe with readOpen := false }) s.put s.taken := by
    have hs := h.stream
    cases writeable <;> exact ⟨hs.numRead, hs.numWrite, hs.le, hs.size, hs.keeps, hs.taken⟩
  exact h.advance hp rfl hx trivial

theorem PipeInv.run {copy : Option UInt8} (hs : s.run p copy = some s') : PipeInv s' := by
  have howner (hf : (s.frame p).holds = true) : s.owner = some p := (h.owner p).1 hf
  unfold PipeState.run at hs
  split at hs <;> rename_i hf <;> rw [hf] at howner
  case h_1 => exact h.acquire hs rfl ⟨le_rfl, fun hlt => absurd hlt (lt_irrefl _)⟩
  case h_5 => exact h.acquire hs rfl trivial
  case h_9 => exact h.acquire hs rfl trivial
  all_goals cases hs
  · exact h.writeStep hf copy
  · exact h.unlock (howner rfl) rfl
  · exact (h.wakeup _).leave (howner rfl) _
  · exact h.readWaitStep hf
  · exact h.readStep hf copy
  · exact (h.wakeup _).leave (howner rfl) _
  · exact h.closeStep hf
  · exact (h.wakeup _).unlock (howner rfl) rfl

theorem PipeInv.call (hf : f.holds = false) (hs : s.call p f = some s') : PipeInv s' := by
  unfold PipeState.call at hs
  split_ifs at hs with hu
  cases hs
  exact h.setFrame (by rw [hu]; rfl) hf

theorem PipeInv.step {l : P × PipeAction} (hs : PipeStep s l s') : PipeInv s' := by
  obtain ⟨p, a⟩ := l
  unfold PipeStep PipeState.next at hs
  cases a with
  | callWrite n => exact h.call rfl hs
  | callRead n => exact h.call rfl hs
  | callClose writeable => exact h.call rfl hs
  | run copy => exact h.run hs
  | kill =>
    cases hs
    have h' : PipeInv (s.setFrame p (s.frame p).wake) := by
      rcases ha : (s.frame p).asleep with _ | c
      · rw [PipeFrame.wake_of_asleep ha]
        unfold PipeState.setFrame
        rw [upd_eq_self]
        exact h
      · have hold := PipeFrame.holds_of_asleep ha
        exact h.setFrame hold.1 hold.2
    exact ⟨h'.stream, h'.owner, h'.frame⟩
  | reuse =>
    dsimp only at hs
    split_ifs at hs
    cases hs
    exact ⟨h.stream, h.owner, h.frame⟩

end

omit [DecidableEq P] in
theorem pipeInv_init (h : PipeInit s) : PipeInv s := by
  obtain ⟨hpipe, howner, hframe, hput, htaken⟩ := h
  refine ⟨?_, fun p => ?_, fun p => ?_⟩
  · rw [hpipe, hput, htaken]
    exact Stream.new
  · rw [hframe, howner]
    exact iff_of_false (by decide) (by simp)
  · rw [hframe]
    trivial

theorem pipeInv_reachable (h : Reachable PipeInit PipeStep s) : PipeInv s :=
  h.invariant (I := PipeInv) (fun _ => pipeInv_init) fun _ _ _ hs => hs.step

/-! ## The stream -/

/-- A read of at least one byte that returns none has seen the end of the stream. -/
theorem PipeInv.end_of_stream (h : PipeInv s) {copy : Option UInt8} {n : ℕ}
    (hf : (s.frame p).reads = some n) (hn : 0 < n) (hs : s.run p copy = some s')
    (hu : s'.frame p = .user) (hr : s'.result p = .ok 0) :
    s'.taken = s'.put ∧ s'.pipe.writeOpen = false := by
  have hok := h.frame p
  unfold PipeState.run at hs
  cases hfr : s.frame p with
  | readLock m =>
    rw [hfr] at hs
    dsimp only [PipeState.acquire] at hs
    split at hs
    · cases hs
      simp [PipeState.setFrame] at hu
    · cases hs
  | readWait m =>
    rw [hfr] at hs
    cases hs
    unfold PipeState.readWaitStep at hu hr
    split_ifs at hu hr
    · simp [PipeState.leave] at hr
    · simp [PipeState.unlock, PipeState.setFrame] at hu
    · simp [PipeState.setFrame] at hu
  | readSleep m =>
    rw [hfr] at hs
    cases hs
  | read m i =>
    rw [hfr] at hs
    cases hs
    unfold PipeState.readStep at hu hr
    split_ifs at hu hr
    · simp [PipeState.setFrame] at hu
    · simp [PipeState.setFrame] at hu
    · cases copy with
      | none => simp [PipeState.leave] at hr
      | some _ => simp [PipeState.setFrame] at hu
  | readEnd m i =>
    rw [hfr] at hs hf hok
    cases hs
    cases hf
    have hi : i = 0 := by simpa [PipeState.leave] using hr
    obtain ⟨hempty, hopen⟩ := hok hi hn
    exact ⟨h.stream.taken.eq_of_length (h.stream.isEmpty_iff.1 hempty).symm, hopen⟩
  | _ =>
    rw [hfr] at hf
    cases hf

/-- A pipe delivers a stream of bytes in order: the ring never overflows, what was taken out is the
beginning of what was put in, and a read that asks for something and returns nothing does so because
everything is taken out and the write end is closed. -/
theorem pipe_fifo (h : Reachable PipeInit PipeStep s) :
    (s.pipe.numWrite - s.pipe.numRead).toNat ≤ PIPESIZE ∧
    (s.put.length < 2 ^ 64 → s.pipe.numRead ≤ s.pipe.numWrite) ∧
    s.taken <+: s.put ∧
    ∀ p copy s' n, PipeStep s (p, .run copy) s' → (s.frame p).reads = some n → 0 < n →
      s'.frame p = .user → s'.result p = .ok 0 → s'.taken = s'.put ∧ s'.pipe.writeOpen = false := by
  have hinv := pipeInv_reachable h
  have hs := hinv.stream
  have hle := hs.le
  have hsize := hs.size
  have h512 : PIPESIZE = 512 := rfl
  refine ⟨?_, fun hlt => ?_, hs.taken, fun p copy s' n hstep hf hn => hinv.end_of_stream hf hn hstep⟩
  · rw [hs.numRead, hs.numWrite, UInt64.toNat_sub, UInt64.toNat_ofNat', UInt64.toNat_ofNat']
    omega
  · rw [hs.numRead, hs.numWrite, UInt64.le_iff_toNat_le, UInt64.toNat_ofNat', UInt64.toNat_ofNat']
    omega

end Inv

/-- One process puts three bytes into a new pipe and another one takes two of them out. -/
theorem pipe_fifo_threeBytes : ∃ s : PipeState Bool, Reachable PipeInit PipeStep s ∧
    s.put = [7, 8, 9] ∧ s.taken = [7, 8] ∧ s.taken <+: s.put := by
  have hrun : (([(false, .callWrite 3), (false, .run none), (false, .run (some 7)), (false, .run (some 8)),
      (false, .run (some 9)), (false, .run none), (false, .run none), (true, .callRead 2), (true, .run none),
      (true, .run none), (true, .run (some 0)), (true, .run (some 0))].foldlM PipeState.next
      (PipeState.new : PipeState Bool)).map fun s => (s.put, s.taken)) = some ([7, 8, 9], [7, 8]) := rfl
  obtain ⟨s, hs, hbytes⟩ := Option.map_eq_some_iff.1 hrun
  have hreach : Reachable PipeInit PipeStep s := .foldlM hs (.init pipeInit_new)
  rw [Prod.mk.injEq] at hbytes
  exact ⟨s, hreach, hbytes.1, hbytes.2, (pipe_fifo hreach).2.2.1⟩

end Octopos
