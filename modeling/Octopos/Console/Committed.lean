import Octopos.Console.Input

/-!
# Committed input is read once and in order

The interrupt handler and `ioctl` change the ring only behind the write index (`Edit`), and a read
moves the read index up to the write index at most. So the ring keeps the committed bytes from the
read index on until they are read (`InputOk`), and no index computation goes below zero
(`NoUnderflow`).
-/

namespace Octopos

section NoUnderflow

variable {α β : Type} {Q : α → Prop} {R : β → Prop}

/-- The computation does not underflow, and its result meets `Q`. -/
def NoUnderflow (m : Except IndexPanic α) (Q : α → Prop) : Prop :=
  match m with
  | .ok a => Q a
  | .error e => e = .add

theorem NoUnderflow.pure {a : α} (h : Q a) : NoUnderflow (pure a) Q := h

theorem NoUnderflow.bind {m : Except IndexPanic α} {f : α → Except IndexPanic β}
    (hm : NoUnderflow m Q) (hf : ∀ a, Q a → NoUnderflow (f a) R) : NoUnderflow (m >>= f) R := by
  cases m with
  | ok a => exact hf a hm
  | error e => exact hm

theorem NoUnderflow.ite {c : Prop} [Decidable c] {m m' : Except IndexPanic α}
    (hm : c → NoUnderflow m Q) (hm' : ¬c → NoUnderflow m' Q) :
    NoUnderflow (if c then m else m') Q := by
  split_ifs with hc
  · exact hm hc
  · exact hm' hc

theorem noUnderflow_addOne (a : ℕ) : NoUnderflow (addOne a) fun b => b = a + 1 ∧ b < 2 ^ 64 := by
  unfold addOne
  split_ifs with h
  · exact ⟨rfl, h⟩
  · exact rfl

theorem noUnderflow_subUsize {a b : ℕ} (h : b ≤ a) : NoUnderflow (subUsize a b) (· = a - b) := by
  rw [subUsize, if_pos h]
  exact rfl

end NoUnderflow

/-! ## The ring -/

/-- The ring holds the committed bytes from the read index on, and those before it were consumed. -/
structure InputOk (x : Console) (committed consumed : List UInt8) : Prop where
  read_le : x.r ≤ x.w
  write_le : x.w ≤ x.e
  edit_le : x.e ≤ x.r + INPUT_BUF_SIZE
  small : x.e < 2 ^ 64
  length : committed.length = x.w
  take : consumed = committed.take x.r
  keeps : Keeps INPUT_BUF_SIZE x.buf x.r committed

/-- A change that leaves what is committed and not read yet as it is. -/
structure Edit (x x' : Console) : Prop where
  read : x'.r = x.r
  le : x.w ≤ x'.w
  write_le : x'.w ≤ x'.e
  edit_le : x'.e ≤ x.r + INPUT_BUF_SIZE
  small : x'.e < 2 ^ 64
  byte : ∀ k, x.r ≤ k → k < x.w → x'.byte k = x.byte k

section Ring

variable {x x' : Console} {committed consumed : List UInt8}

theorem InputOk.new : InputOk Console.new [] [] where
  read_le := le_rfl
  write_le := le_rfl
  edit_le := by decide
  small := by decide
  length := rfl
  take := rfl
  keeps := Keeps.nil

theorem InputOk.edit_of (h : InputOk x committed consumed) {e : ℕ} (hw : x.w ≤ e) (he : e ≤ x.e)
    (raw : Bool) (pid : Option ℕ) : Edit x { x with e := e, raw := raw, foregroundPid := pid } :=
  ⟨rfl, le_rfl, hw, he.trans h.edit_le, he.trans_lt h.small, fun _ _ _ => rfl⟩

theorem InputOk.edit_self (h : InputOk x committed consumed) : Edit x x :=
  h.edit_of h.write_le le_rfl x.raw x.foregroundPid

theorem Edit.commit (h : Edit x x') : Edit x x'.commit :=
  ⟨h.read, h.le.trans h.write_le, le_rfl, h.edit_le, h.small, h.byte⟩

theorem InputOk.edit (h : InputOk x committed consumed) (he : Edit x x') :
    InputOk x' (committed ++ window x'.buf x.w x'.w) (consumed ++ window x.buf x.r x'.r) := by
  have hle := he.le
  have hr := h.read_le
  have hlen := h.length
  have hkeeps : Keeps INPUT_BUF_SIZE x'.buf x'.r committed := by
    intro k hk hlt
    rw [he.read] at hk
    exact (he.byte k hk (by omega)).trans (h.keeps k hk hlt)
  refine ⟨he.read ▸ hr.trans hle, he.write_le, he.read ▸ he.edit_le, he.small, ?_, ?_, ?_⟩
  · rw [List.length_append, length_window, hlen]
    omega
  · rw [he.read, window_self, List.append_nil, List.take_append_of_le_length (by omega)]
    exact h.take
  · rw [← hlen]
    exact hkeeps.append_window _

theorem InputOk.read (h : InputOk x committed consumed) {r : ℕ} (hr : x.r ≤ r) (hw : r ≤ x.w) :
    InputOk { x with r := r } (committed ++ window x.buf x.w x.w) (consumed ++
        window x.buf x.r r) := by
  rw [window_self, List.append_nil]
  refine ⟨hw, h.write_le, h.edit_le.trans (Nat.add_le_add_right hr _), h.small, h.length, ?_, h.keeps.drop hr⟩
  rw [h.take]
  exact h.keeps.take_append_window hr (h.length ▸ hw)

end Ring

section Interrupt

variable {x : Console} {committed consumed : List UInt8}

theorem InputOk.hasRoom (h : InputOk x committed consumed) (c : UInt8) :
    NoUnderflow (x.hasRoom c) fun room => room = true → x.e < x.r + INPUT_BUF_SIZE := by
  refine .ite (fun _ => ?_) fun _ => .pure fun hroom => nomatch hroom
  refine (noUnderflow_subUsize (h.read_le.trans h.write_le)).bind fun n hn => .pure fun hroom => ?_
  have hlt := of_decide_eq_true hroom
  omega

theorem InputOk.store (h : InputOk x committed consumed) (hroom : x.e < x.r + INPUT_BUF_SIZE)
    (c : UInt8) : NoUnderflow (x.store c) (Edit x) := by
  refine (noUnderflow_addOne x.e).bind fun e he => .pure ?_
  obtain ⟨rfl, hsmall⟩ := he
  have hw := h.write_le
  refine ⟨rfl, le_rfl, Nat.le_succ_of_le hw, hroom, hsmall, fun k hk hkw => ?_⟩
  exact upd_of_ne (ofNat_ne_of_lt (by omega) (by omega)) ..

theorem Edit.endsInput {x' : Console} (h : Edit x x') (hx : InputOk x committed consumed)
    (c : UInt8) : NoUnderflow (x'.endsInput c) fun _ => True := by
  have hle : x'.r ≤ x'.e := by
    rw [h.read]
    exact hx.read_le.trans (h.le.trans h.write_le)
  refine .ite (fun _ => .pure trivial) fun _ => ?_
  exact (noUnderflow_subUsize hle).bind fun _ _ => .pure trivial

theorem killLine_spec {e : ℕ} (hw : x.w ≤ e) :
    NoUnderflow (x.killLine e) fun y => x.w ≤ y.1 ∧ y.1 ≤ e := by
  induction e with
  | zero =>
    rw [Console.killLine, if_pos (Nat.le_zero.1 hw)]
    exact ⟨hw, le_rfl⟩
  | succ e ih =>
    rw [Console.killLine]
    refine .ite (fun _ => ⟨hw, le_rfl⟩) fun hne => ?_
    rw [not_or] at hne
    refine (ih (by omega)).bind fun y hy => .pure ?_
    exact ⟨hy.1, hy.2.trans (Nat.le_succ e)⟩

section

variable (h : InputOk x committed consumed)
include h

theorem InputOk.putChar (c : UInt8) : NoUnderflow (x.putChar c) fun y => Edit x y.1 := by
  refine (h.hasRoom c).bind fun room hroom => ?_
  refine .ite (fun hr => ?_) fun _ => .pure h.edit_self
  refine (h.store (hroom hr) _).bind fun x' hx' => ?_
  refine (hx'.endsInput h _).bind fun full _ => ?_
  exact .ite (fun _ => .pure hx'.commit) fun _ => .pure hx'

theorem InputOk.cookedInput (c : UInt8) : NoUnderflow (x.cookedInput c) fun y => Edit x y.1 := by
  refine .ite (fun _ => .ite (fun hne => ?_) fun _ => .pure h.edit_self) fun _ => ?_
  · have hw := h.write_le
    refine (noUnderflow_subUsize (by omega)).bind fun e he => .pure ?_
    exact h.edit_of (by omega) (by omega) x.raw x.foregroundPid
  refine .ite (fun _ => .pure h.edit_self) fun _ => .ite (fun _ => ?_) fun _ => ?_
  · refine (killLine_spec h.write_le).bind fun y hy => .pure ?_
    exact h.edit_of hy.1 hy.2 x.raw x.foregroundPid
  refine .ite (fun _ => ?_) fun _ => h.putChar c
  cases x.foregroundPid <;> exact .pure h.edit_self

theorem InputOk.handleInterrupt (c : UInt8) :
    NoUnderflow (x.handleInterrupt c) fun y => Edit x y.1 := by
  have hdirect : NoUnderflow (if x.raw then x.hasRoom c else pure false)
      fun room => room = true → x.e < x.r + INPUT_BUF_SIZE :=
    .ite (fun _ => h.hasRoom c) fun _ => .pure fun hroom => nomatch hroom
  refine hdirect.bind fun room hroom => ?_
  refine .ite (fun hr => ?_) fun _ => h.cookedInput c
  exact (h.store (hroom hr) c).bind fun x' hx' => .pure hx'.commit

theorem InputOk.ioctl (cmd arg : ℕ) : Edit x (x.ioctl cmd arg).2 := by
  unfold Console.ioctl
  split_ifs
  · exact h.edit_of le_rfl h.write_le true x.foregroundPid
  · exact h.edit_of h.write_le le_rfl false x.foregroundPid
  · exact h.edit_of h.write_le le_rfl x.raw none
  · exact h.edit_of h.write_le le_rfl x.raw (some arg)
  · exact h.edit_self

end

end Interrupt

/-- What a process in a read has got and what it still waits for. -/
def ConsoleFrame.Ok (delivered : List UInt8) : ConsoleFrame → Prop
  | .user => True
  | .readLock target len | .read target len | .readSleep target len =>
    delivered.length + len = target

structure ConsoleInv (s : ConsoleState) : Prop where
  input : InputOk s.console s.committed s.consumed
  frame : ∀ p, (s.frame p).Ok (s.delivered p)
  panicked : s.panicked ≠ some .sub

/-- How a step changes the console. -/
structure Moves (s s' : ConsoleState) : Prop where
  committed : s'.committed = s.committed ++ window s'.console.buf s.console.w s'.console.w
  consumed : s'.consumed = s.consumed ++ window s.console.buf s.console.r s'.console.r
  console : Edit s.console s'.console ∨
    ∃ r, s'.console = { s.console with r := r } ∧ s.console.r ≤ r ∧ r ≤ s.console.w

section Steps

variable {s s' : ConsoleState} {p target len : ℕ} {copy : Bool}
variable {f : ConsoleFrame} {a : ConsoleAction}

theorem ConsoleFrame.Ok.wake {delivered : List UInt8} (h : f.Ok delivered) :
    f.wake.Ok delivered := by
  cases f <;> exact h

theorem Moves.le (h : Moves s s') : s.console.w ≤ s'.console.w := by
  rcases h.console with he | ⟨r, hr, -⟩
  · exact he.le
  · rw [hr]

theorem Moves.input (h : Moves s s') (hi : InputOk s.console s.committed s.consumed) :
    InputOk s'.console s'.committed s'.consumed := by
  rw [h.committed, h.consumed]
  rcases h.console with he | ⟨r, hr, hle, hw⟩
  · exact hi.edit he
  · rw [hr]
    exact hi.read hle hw

theorem Moves.edit {x : Console} (he : Edit s.console x) : Moves s (s.setConsole x) :=
  ⟨rfl, rfl, .inl he⟩

theorem Moves.read {r : ℕ} (hle : s.console.r ≤ r) (hw : r ≤ s.console.w) :
    Moves s (s.setConsole { s.console with r := r }) :=
  ⟨rfl, rfl, .inr ⟨r, rfl, hle, hw⟩⟩

theorem Moves.of_same (h : Moves s s') {t : ConsoleState} (hx : t.console = s'.console)
    (hcommitted : t.committed = s'.committed) (hconsumed : t.consumed = s'.consumed) :
    Moves s t := by
  refine ⟨?_, ?_, ?_⟩
  · rw [hcommitted, hx, h.committed]
  · rw [hconsumed, hx, h.consumed]
  · rw [hx]
    exact h.console

theorem Moves.refl (hi : InputOk s.console s.committed s.consumed) : Moves s s :=
  (Moves.edit hi.edit_self).of_same rfl (by simp [ConsoleState.setConsole])
    (by simp [ConsoleState.setConsole])

section

variable (h : ConsoleInv s)
include h

theorem ConsoleInv.frame_upd (hf : f.Ok (s.delivered p)) (q : ℕ) :
    (upd s.frame p f q).Ok (s.delivered q) := by
  by_cases hq : q = p
  · subst hq
    rw [upd_self]
    exact hf
  · rw [upd_of_ne hq]
    exact h.frame q

theorem ConsoleInv.frame_deliver {l : List UInt8} (hf : f.Ok l) (q : ℕ) :
    (upd s.frame p f q).Ok (upd s.delivered p l q) := by
  by_cases hq : q = p
  · subst hq
    rw [upd_self, upd_self]
    exact hf
  · rw [upd_of_ne hq, upd_of_ne hq]
    exact h.frame q

/-- An effect outside of the console leaves it alone and makes processes runnable. -/
theorem ConsoleInv.effects (out : List ConsoleEffect) :
    (out.foldl ConsoleState.effect s).console = s.console ∧
    (out.foldl ConsoleState.effect s).committed = s.committed ∧
    (out.foldl ConsoleState.effect s).consumed = s.consumed ∧
    ConsoleInv (out.foldl ConsoleState.effect s) := by
  induction out generalizing s with
  | nil => exact ⟨rfl, rfl, rfl, h⟩
  | cons a out ih =>
    have hframe : ∀ pid, ConsoleInv (s.kill pid) := fun pid => ⟨h.input, h.frame_upd (h.frame pid).wake, h.panicked⟩
    cases a with
    | putc c => exact ih h
    | dump => exact ih h
    | wakeup => exact ih (s := s.wakeup) ⟨h.input, fun q => (h.frame q).wake, h.panicked⟩
    | kill pid => exact ih (hframe pid)

theorem ConsoleInv.setConsole {x : Console} (hm : Moves s (s.setConsole x)) :
    ConsoleInv (s.setConsole x) :=
  ⟨hm.input h.input, h.frame, h.panicked⟩

theorem ConsoleInv.interrupt (c : UInt8) :
    NoUnderflow (s.interrupt c) fun s' => Moves s s' ∧ ConsoleInv s' ∧
    s'.consumed = s.consumed := by
  refine (h.input.handleInterrupt c).bind fun y hy => .pure ?_
  have hm := Moves.edit hy
  obtain ⟨hx, hcommitted, hconsumed, hinv⟩ := (h.setConsole hm).effects y.2
  refine ⟨hm.of_same hx hcommitted hconsumed, hinv, hconsumed.trans ?_⟩
  rw [hm.consumed]
  change s.consumed ++ window s.console.buf s.console.r y.1.r = s.consumed
  rw [hy.read, window_self, List.append_nil]

/-- A step that stops the kernel changes nothing else, and it was not an underflow. -/
theorem ConsoleInv.settle {m : Except IndexPanic ConsoleState} {Q : ConsoleState → Prop}
    (hm : NoUnderflow m fun s' => Moves s s' ∧ ConsoleInv s' ∧ Q s')
    (hQ : Q { s with panicked := some .add }) :
    Moves s (s.settle m) ∧ ConsoleInv (s.settle m) ∧ Q (s.settle m) := by
  cases m with
  | ok s' => exact hm
  | error e =>
    have he : e = .add := hm
    subst he
    exact ⟨(Moves.refl h.input).of_same rfl rfl rfl, ⟨h.input, h.frame, fun hne => nomatch hne⟩, hQ⟩

end

theorem readStep_of_lt (hi : InputOk s.console s.committed s.consumed)
    (hr : s.console.r < s.console.w) (hlen : 0 < len) (hle : len ≤ target) :
    s.readStep p target len copy = .ok (
      let c := s.console.byte s.console.r
      let taken := s.setConsole { s.console with r := s.console.r + 1 }
      if !s.console.raw ∧ c = ctrl 'D' then
        if len < target then
          (s.setConsole { s.console with r := s.console.r }).leave p (.ok (target - len))
        else taken.leave p (.ok (target - len))
      else if !copy then taken.leave p (.ok (target - len))
      else if c = NEWLINE ∨ s.console.raw then
        (taken.deliver p c).leave p (.ok (target - (len - 1)))
      else (taken.deliver p c).setFrame p (.read target (len - 1))) := by
  have hsmall := hi.small
  have hwrite := hi.write_le
  have hadd : addOne s.console.r = .ok (s.console.r + 1) := if_pos (by omega)
  have hfinish : ∀ t : ConsoleState, t.finish p target len = .ok (t.leave p (.ok (target - len))) :=
    fun t => by rw [ConsoleState.finish, subUsize, if_pos hle]; rfl
  have hfinish' : ∀ t : ConsoleState, t.finish p target (len - 1) = .ok (t.leave p (.ok (target - (len - 1)))) :=
    fun t => by rw [ConsoleState.finish, subUsize, if_pos (by omega)]; rfl
  have hback : subUsize (s.console.r + 1) 1 = .ok s.console.r := if_pos (by omega)
  have hless : subUsize len 1 = .ok (len - 1) := if_pos hlen
  rw [ConsoleState.readStep, if_neg (by omega), if_neg (by omega), hadd]
  dsimp only
  change (if _ then _ else _) = _
  split_ifs <;> simp only [hback, hless, hfinish, hfinish', Except.bind, pure, Except.pure, bind]

theorem ConsoleInv.leave (h : ConsoleInv s) (r : Except ConsoleError ℕ) :
    ConsoleInv (s.leave p r) :=
  ⟨h.input, h.frame_upd (f := .user) trivial, h.panicked⟩

theorem ConsoleInv.finish (h : ConsoleInv s) (hle : len ≤ target) :
    NoUnderflow (s.finish p target len) fun s' => Moves s s' ∧ ConsoleInv s' := by
  refine (noUnderflow_subUsize hle).bind fun n _ => .pure ?_
  exact ⟨(Moves.refl h.input).of_same rfl rfl rfl, h.leave _⟩

theorem ConsoleInv.readStep (h : ConsoleInv s) (hframe : s.frame p = .read target len) :
    NoUnderflow (s.readStep p target len copy) fun s' => Moves s s' ∧ ConsoleInv s' := by
  have hread : (s.delivered p).length + len = target := by
    have := h.frame p
    rwa [hframe] at this
  have hself := Moves.refl h.input
  have hle := h.input.read_le
  by_cases hlen : len = 0
  · rw [ConsoleState.readStep, if_pos hlen]
    exact h.finish (by omega)
  by_cases hr : s.console.r = s.console.w
  · rw [ConsoleState.readStep, if_neg hlen, if_pos hr]
    refine .ite (fun _ => ⟨hself.of_same rfl rfl rfl, h.leave _⟩) fun _ => ?_
    exact ⟨hself.of_same rfl rfl rfl, h.input, h.frame_upd hread, h.panicked⟩
  rw [readStep_of_lt h.input (by omega) (by omega) (by omega)]
  have hstay := Moves.read (s := s) le_rfl hle
  have htake := Moves.read (s := s) (Nat.le_succ s.console.r) (by omega)
  have hinv := h.setConsole htake
  have hmore (c : UInt8) : (s.delivered p ++ [c]).length + (len - 1) = target := by
    rw [List.length_append, List.length_singleton]
    omega
  dsimp only
  change Moves _ _ ∧ ConsoleInv _
  split_ifs
  · exact ⟨hstay.of_same rfl rfl rfl, (h.setConsole hstay).leave _⟩
  · exact ⟨htake.of_same rfl rfl rfl, hinv.leave _⟩
  · exact ⟨htake.of_same rfl rfl rfl, hinv.leave _⟩
  · exact ⟨htake.of_same rfl rfl rfl, hinv.input, hinv.frame_deliver (f := .user) trivial, hinv.panicked⟩
  · exact ⟨htake.of_same rfl rfl rfl, hinv.input,
      hinv.frame_deliver (f := .read target (len - 1)) (hmore _), hinv.panicked⟩

/-- A step that takes bytes out of the ring is an iteration of a read. -/
def Consumes (s : ConsoleState) (a : ConsoleAction) (s' : ConsoleState) : Prop :=
  ∃ p target len copy, a = .run p copy ∧ s.frame p = .read target len ∧
    s.readStep p target len copy = .ok s'

theorem ConsoleInv.run (h : ConsoleInv s) (hrun : s.run p copy = some s') :
    Moves s s' ∧ ConsoleInv s' ∧ (s'.consumed = s.consumed ∨ Consumes s (.run p copy) s') := by
  have hframe := h.frame p
  unfold ConsoleState.run at hrun
  split at hrun
  next target len hp =>
    split at hrun <;> cases hrun
    rw [hp] at hframe
    refine ⟨(Moves.refl h.input).of_same rfl rfl rfl, ⟨h.input, ?_, h.panicked⟩, .inl rfl⟩
    exact h.frame_upd (f := .read target len) hframe
  next target len hp =>
    cases hrun
    refine h.settle (Q := fun t => t.consumed = s.consumed ∨ Consumes s (.run p copy) t) ?_ (.inl rfl)
    have hstep : NoUnderflow (s.readStep p target len copy) _ := h.readStep hp
    cases hm : s.readStep p target len copy with
    | ok t =>
      rw [hm] at hstep
      exact ⟨hstep.1, hstep.2, .inr ⟨p, target, len, copy, rfl, hp, hm⟩⟩
    | error e =>
      rw [hm] at hstep
      exact hstep
  all_goals cases hrun

theorem ConsoleInv.step (h : ConsoleInv s) (hs : ConsoleStep s a s') :
    Moves s s' ∧ ConsoleInv s' ∧ (s'.consumed = s.consumed ∨ Consumes s a s') := by
  have hself := Moves.refl h.input
  unfold ConsoleStep ConsoleState.next at hs
  rw [Option.ite_none_left_eq_some] at hs
  replace hs := hs.2
  cases a with
  | interrupt c =>
    dsimp only at hs
    split_ifs at hs
    cases hs
    obtain ⟨hm, hinv, hsame⟩ := h.settle (h.interrupt c) rfl
    exact ⟨hm, hinv, .inl hsame⟩
  | ioctl pid cmd arg =>
    dsimp only at hs
    split_ifs at hs
    cases hs
    have he := h.input.ioctl cmd arg
    have hm := Moves.edit he
    have hinv := h.setConsole hm
    refine ⟨hm.of_same rfl rfl rfl, ⟨hinv.input, hinv.frame, hinv.panicked⟩, .inl ?_⟩
    change s.consumed ++ window s.console.buf s.console.r _ = s.consumed
    rw [he.read, window_self, List.append_nil]
  | callRead pid len =>
    dsimp only at hs
    split_ifs at hs
    cases hs
    refine ⟨hself.of_same rfl rfl rfl, ⟨h.input, ?_, h.panicked⟩, .inl rfl⟩
    exact h.frame_deliver (f := .readLock len len) (Nat.zero_add len)
  | run pid copy => exact h.run hs
  | kill pid =>
    cases hs
    refine ⟨hself.of_same rfl rfl rfl, ⟨h.input, ?_, h.panicked⟩, .inl rfl⟩
    exact h.frame_upd (h.frame pid).wake
  | reuse pid =>
    dsimp only at hs
    split_ifs at hs
    cases hs
    exact ⟨hself.of_same rfl rfl rfl, ⟨h.input, h.frame, h.panicked⟩, .inl rfl⟩

theorem ConsoleInv.of_reachable (h : Reachable ConsoleInit ConsoleStep s) : ConsoleInv s := by
  refine h.invariant (I := ConsoleInv) ?_ fun _ _ _ hinv hs => (hinv.step hs).2.1
  rintro s rfl
  exact ⟨InputOk.new, fun _ => trivial, fun hne => nomatch hne⟩

/-! ## End of file -/

theorem ConsoleState.setConsole_consumed :
    (s.setConsole { s.console with r := s.console.r + 1 }).consumed = s.consumed ++
      [s.console.byte s.console.r] := by
  rw [ConsoleState.setConsole, window_succ]
  rfl

theorem ConsoleInv.delivered (h : ConsoleInv s) (hp : s.frame p = .read target len) :
    (s.delivered p).length + len = target := by
  have hframe := h.frame p
  rwa [hp] at hframe

/-- In cooked mode a `^D` is the end of the file for a read that has got nothing. -/
theorem ConsoleInv.eof (h : ConsoleInv s) (hs : ConsoleStep s a s') (hraw : s.console.raw = false)
    (hD : s'.consumed = s.consumed ++ [ctrl 'D']) :
    ∃ p copy, a = .run p copy ∧ s'.frame p = .user ∧ s'.result p = .ok 0 ∧ s'.delivered p = [] := by
  have hgrow : s'.consumed ≠ s.consumed := by simp [hD]
  obtain ⟨-, -, hsame | ⟨p, target, len, copy, ha, hp, hstep⟩⟩ := h.step hs
  · exact absurd hsame hgrow
  refine ⟨p, copy, ha, ?_⟩
  have htarget := h.delivered hp
  have hle := h.input.read_le
  have hlen : len ≠ 0 := by
    rintro rfl
    rw [ConsoleState.readStep, if_pos rfl, ConsoleState.finish, subUsize, if_pos (by omega)] at hstep
    cases hstep
    exact hgrow rfl
  have hr : s.console.r ≠ s.console.w := by
    intro hr
    rw [ConsoleState.readStep, if_neg hlen, if_pos hr] at hstep
    split_ifs at hstep <;> cases hstep <;> exact hgrow rfl
  rw [readStep_of_lt h.input (by omega) (by omega) (by omega), Except.ok.injEq] at hstep
  by_cases hc : s.console.byte s.console.r = ctrl 'D'
  · rw [if_pos (by simp [hraw, hc])] at hstep
    by_cases hlt : len < target
    · -- the `^D` is saved, so nothing is consumed
      rw [if_pos hlt] at hstep
      subst hstep
      refine absurd ?_ hgrow
      change s.consumed ++ window s.console.buf s.console.r s.console.r = s.consumed
      rw [window_self, List.append_nil]
    · rw [if_neg hlt] at hstep
      subst hstep
      have hempty : s.delivered p = [] := List.length_eq_zero_iff.1 (by omega)
      refine ⟨upd_self .., ?_, hempty⟩
      have hzero : target - len = 0 := by omega
      rw [hzero]
      exact upd_self ..
  · -- the byte that is consumed is another one
    refine absurd ?_ hc
    have hconsumed : s'.consumed = s.consumed ++ [s.console.byte s.console.r] := by
      rw [← ConsoleState.setConsole_consumed, ← hstep, if_neg (by simp [hc])]
      split_ifs <;> rfl
    rw [hD] at hconsumed
    simpa using (List.append_cancel_left hconsumed).symm

theorem ConsoleInv.saves_eof (h : ConsoleInv s) (hp : s.frame p = .read target len)
    (hlen : 0 < len) (hgot : s.delivered p ≠ []) (hraw : s.console.raw = false)
    (hr : s.console.r < s.console.w) (hD : s.console.byte s.console.r = ctrl 'D')
    (hs : ConsoleStep s (.run p copy) s') :
    s'.console = s.console ∧ s'.consumed = s.consumed ∧ s'.frame p = .user ∧
    s'.result p = .ok (s.delivered p).length := by
  have htarget := h.delivered hp
  have hpos := List.length_pos_of_ne_nil hgot
  unfold ConsoleStep ConsoleState.next at hs
  rw [Option.ite_none_left_eq_some] at hs
  replace hs := hs.2
  dsimp only at hs
  rw [ConsoleState.run, hp] at hs
  dsimp only at hs
  rw [readStep_of_lt h.input hr hlen (by omega)] at hs
  dsimp only at hs
  rw [if_pos (by simp [hraw, hD]), if_pos (by omega)] at hs
  cases hs
  have hnum : target - len = (s.delivered p).length := by omega
  refine ⟨rfl, ?_, upd_self .., ?_⟩
  · change s.consumed ++ window s.console.buf s.console.r s.console.r = s.consumed
    rw [window_self, List.append_nil]
  · rw [hnum]
    exact upd_self ..

theorem ConsoleInv.delivers (h : ConsoleInv s) (hs : ConsoleStep s (.run p copy) s') :
    s'.delivered p = s.delivered p ∨ ∃ c, s'.delivered p = s.delivered p ++ [c] ∧
    s'.consumed = s.consumed ++ [c] := by
  unfold ConsoleStep ConsoleState.next at hs
  rw [Option.ite_none_left_eq_some] at hs
  replace hs := hs.2
  dsimp only at hs
  unfold ConsoleState.run at hs
  split at hs
  next =>
    split at hs <;> cases hs
    exact .inl rfl
  next target len hp =>
    have htarget := h.delivered hp
    have hle := h.input.read_le
    cases hs
    by_cases hlen : len = 0
    · rw [ConsoleState.readStep, if_pos hlen, ConsoleState.finish, subUsize, if_pos (by omega)]
      exact .inl rfl
    by_cases hr : s.console.r = s.console.w
    · rw [ConsoleState.readStep, if_neg hlen, if_pos hr]
      split_ifs <;> exact .inl rfl
    rw [readStep_of_lt h.input (by omega) (by omega) (by omega)]
    dsimp only [ConsoleState.settle]
    split_ifs
    · exact .inl rfl
    · exact .inl rfl
    · exact .inl rfl
    · exact .inr ⟨_, upd_self .., ConsoleState.setConsole_consumed⟩
    · exact .inr ⟨_, upd_self .., ConsoleState.setConsole_consumed⟩
  all_goals cases hs

/-- The indices of the console stay in order and no index computation goes below zero; the write
index only grows; the committed bytes stand in the ring until they are read, and the reads consume
them in order and deliver what they consume; and in cooked mode a `^D` is consumed by a read that
returns nothing, while a read that has got something leaves it. -/
theorem console_ring (h : Reachable ConsoleInit ConsoleStep s) :
    (s.console.r ≤ s.console.w ∧ s.console.w ≤ s.console.e ∧
      s.console.e ≤ s.console.r + INPUT_BUF_SIZE) ∧
    s.panicked ≠ some .sub ∧
    (∀ a s', ConsoleStep s a s' → s.console.w ≤ s'.console.w ∧ s.committed <+: s'.committed) ∧
    (s.committed.length = s.console.w ∧
      ∀ k (hk : k < s.committed.length), s.console.r ≤ k →
        s.console.byte k = s.committed.get ⟨k, hk⟩) ∧
    s.consumed = s.committed.take s.console.r ∧
    (∀ p copy s', ConsoleStep s (.run p copy) s' → s'.delivered p = s.delivered p ∨
      ∃ c, s'.delivered p = s.delivered p ++ [c] ∧ s'.consumed = s.consumed ++ [c]) ∧
    (∀ a s', ConsoleStep s a s' → s.console.raw = false →
      s'.consumed = s.consumed ++ [ctrl 'D'] →
      ∃ p copy, a = .run p copy ∧ s'.frame p = .user ∧ s'.result p = .ok 0 ∧
        s'.delivered p = []) ∧
    (∀ p target len copy s', s.frame p = .read target len → 0 < len → s.delivered p ≠ [] →
      s.console.raw = false → s.console.r < s.console.w →
      s.console.byte s.console.r = ctrl 'D' → ConsoleStep s (.run p copy) s' →
      s'.console = s.console ∧ s'.consumed = s.consumed ∧ s'.frame p = .user ∧
        s'.result p = .ok (s.delivered p).length) := by
  have hinv := ConsoleInv.of_reachable h
  have hi := hinv.input
  refine ⟨⟨hi.read_le, hi.write_le, hi.edit_le⟩, hinv.panicked, fun a s' hs => ?_,
    ⟨hi.length, fun k hk hr => hi.keeps k hr hk⟩, hi.take,
    fun p copy s' hs => hinv.delivers hs, fun a s' hs => hinv.eof hs,
    fun p target len copy s' hp hlen hgot hraw hr hD hs =>
      hinv.saves_eof hp hlen hgot hraw hr hD hs⟩
  obtain ⟨hm, -⟩ := hinv.step hs
  exact ⟨hm.le, hm.committed ▸ List.prefix_append _ _⟩

/-- A read of a byte and a `^D` that follows it. -/
theorem console_ring_read : ∃ s : ConsoleState,
    (s.consumed, s.committed, s.result 1) = ([97], [97, ctrl 'D'], .ok 1) ∧
      s.consumed = s.committed.take s.console.r := by
  obtain ⟨s, hs, heq⟩ := Option.map_eq_some_iff.1 (show
    ([.interrupt 97, .interrupt (ctrl 'D'), .callRead 1 5, .run 1 true, .run 1 true,
      .run 1 true].foldlM ConsoleState.next ConsoleState.new).map
      (fun s => (s.consumed, s.committed, s.result 1)) = some ([97], [97, ctrl 'D'], .ok 1) by
        rfl)
  obtain ⟨-, -, -, -, htake, -⟩ := console_ring (Reachable.foldlM hs (.init rfl))
  exact ⟨s, heq, htake⟩

end Steps

end Octopos
