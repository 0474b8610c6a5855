import Octopos.User.Line
import Octopos.Lib.Ring
import Mathlib.Data.List.DropRight

/-!
# Editing a line

The line that is edited is a pair of lists, the text before and after the cursor (`Text`), and the
history is the list of all lines that were entered (`Edit`); `LineEditor.Shows` relates the arrays
of the editor to them. Every function of the editor acts as on lists, with one exception: `insert`
does not test whether the line is full, so that a character that is inserted into the middle of a
full line moves the last one out of bounds.
-/

namespace Octopos

/-! ## Texts -/

/-- The text before and after the cursor. -/
structure Text where
  before : List UInt8
  after : List UInt8
  deriving DecidableEq

namespace Text

def length (t : Text) : ℕ := t.before.length + t.after.length

def line (t : Text) : List UInt8 := t.before ++ t.after

def ofLine (l : List UInt8) : Text := ⟨l, []⟩

/-- A character goes in front of the cursor, unless the line is full. -/
def insert (t : Text) (c : UInt8) : Text :=
  if LINEMAX ≤ t.length then t else ⟨t.before ++ [c], t.after⟩

def backspace (t : Text) : Text := ⟨t.before.dropLast, t.after⟩

def killLine (t : Text) : Text := ⟨[], t.after⟩

/-- Spaces and the word in front of them go. -/
def killWord (t : Text) : Text :=
  ⟨(t.before.rdropWhile (· == LineEditor.SPACE)).rdropWhile (· != LineEditor.SPACE), t.after⟩

def moveLeft (t : Text) : Text := ⟨t.before.dropLast, t.before.getLast?.toList ++ t.after⟩

def moveRight (t : Text) : Text := ⟨t.before ++ t.after.head?.toList, t.after.tail⟩

def moveToStart (t : Text) : Text := ⟨[], t.before ++ t.after⟩

def moveToEnd (t : Text) : Text := ⟨t.before ++ t.after, []⟩

end Text

/-- The line that is edited, the lines that were entered before, how far back the history is shown,
and the line that was edited before that. -/
structure LineEdit where
  text : Text
  lines : List (List UInt8)
  offset : ℕ
  stash : List UInt8

namespace LineEdit

open LineEditor (LineEnd Escape)

/-- The `j`-th most recent line. -/
def recent (a : LineEdit) (j : ℕ) : List UInt8 := a.lines.getD (a.lines.length - j) []

def available (a : LineEdit) : ℕ := min a.lines.length HISTORYSIZE

def historyUp (a : LineEdit) : LineEdit :=
  if a.available ≤ a.offset then a
  else
    { a with
      stash := if a.offset = 0 then a.text.line else a.stash
      offset := a.offset + 1
      text := .ofLine (a.recent (a.offset + 1)) }

def historyDown (a : LineEdit) : LineEdit :=
  if a.offset = 0 then a
  else
    { a with
      offset := a.offset - 1
      text := .ofLine (if a.offset = 1 then a.stash else a.recent (a.offset - 1)) }

def press (a : LineEdit) (c : UInt8) : Option LineEnd × LineEdit :=
  if c = 0x0a ∨ c = 0x0d then (some .enter, a)
  else if c = 0x08 ∨ c = 0x7f then (none, { a with text := a.text.backspace })
  else if c = 0x01 then (none, { a with text := a.text.moveToStart })
  else if c = 0x05 then (none, { a with text := a.text.moveToEnd })
  else if c = 0x15 then (none, { a with text := a.text.killLine })
  else if c = 0x17 then (none, { a with text := a.text.killWord })
  else if c = 0x0c then (none, a)
  else if c = 0x04 ∧ a.text.length = 0 then (some .eof, a)
  else if c = 0x03 then (some .interrupt, { a with text := ⟨[], []⟩ })
  else if LineEditor.isPrintable c then (none, { a with text := a.text.insert c })
  else (none, a)

def handleEscape (a : LineEdit) (x y : UInt8) : LineEdit :=
  if x = 91 ∧ y = 65 then a.historyUp
  else if x = 91 ∧ y = 66 then a.historyDown
  else if x = 91 ∧ y = 68 then { a with text := a.text.moveLeft }
  else if x = 91 ∧ y = 67 then { a with text := a.text.moveRight }
  else a

/-- What the bytes of an input do, until the line is entered. -/
def readLoop (a : LineEdit) : Escape → List UInt8 → (LineEnd × List UInt8) × LineEdit
  | _, [] => ((.waiting, []), a)
  | .none, c :: rest =>
    if c = LineEditor.ESC then a.readLoop .start rest
    else
      match a.press c with
      | (some r, a) => ((r, rest), a)
      | (none, a) => a.readLoop .none rest
  | .start, x :: rest => a.readLoop (.second x) rest
  | .second x, y :: rest => (a.handleEscape x y).readLoop .none rest

def start (a : LineEdit) : LineEdit := { a with text := ⟨[], []⟩ }

/-- What a call of `read_line` does; a line that is not empty goes to the history. -/
def readLine (a : LineEdit) (input : List UInt8) : (LineEnd × List UInt8) × LineEdit :=
  let r := a.start.readLoop .none input
  if r.1.1 = .enter ∨ r.1.1 = .interrupt then
    (r.1, { r.2 with
      lines := if r.2.text.line = [] then r.2.lines else r.2.lines ++ [r.2.text.line]
      offset := 0 })
  else r

/-- No character is typed into the middle of a full line. -/
def Roomy (a : LineEdit) (c : UInt8) : Prop :=
  LineEditor.isPrintable c = true → a.text.length = LINEMAX → a.text.after = []

/-- No character of the input is typed into the middle of a full line. -/
def Accepts (a : LineEdit) : Escape → List UInt8 → Prop
  | _, [] => True
  | .none, c :: rest =>
    if c = LineEditor.ESC then a.Accepts .start rest
    else a.Roomy c ∧
      match a.press c with
      | (some _, _) => True
      | (none, a) => a.Accepts .none rest
  | .start, x :: rest => a.Accepts (.second x) rest
  | .second x, y :: rest => (a.handleEscape x y).Accepts .none rest

theorem readLoop_lines {a : LineEdit} {esc : Escape} {input : List UInt8} :
    (a.readLoop esc input).2.lines = a.lines := by
  have hpress {a : LineEdit} (c : UInt8) : (a.press c).2.lines = a.lines := by
    unfold press
    split_ifs <;> rfl
  have hesc {a : LineEdit} (x y : UInt8) : (a.handleEscape x y).lines = a.lines := by
    unfold handleEscape historyUp historyDown
    split_ifs <;> rfl
  induction input generalizing a esc with
  | nil => cases esc <;> rfl
  | cons c rest ih =>
    cases esc with
    | none =>
      unfold readLoop
      split_ifs
      · exact ih
      · rcases hp : a.press c with ⟨_ | r, b⟩
        · exact ih.trans ((congrArg (·.2.lines) hp).symm.trans (hpress c))
        · exact (congrArg (·.2.lines) hp).symm.trans (hpress c)
    | start => exact ih
    | second x => exact ih.trans (hesc x c)

end LineEdit

/-! ## Buffers and lists -/

/-- The first `n` bytes of a buffer. -/
def bytes (f : Bytes) (n : ℕ) : List UInt8 := (List.range n).map f

@[simp] theorem length_bytes (f : Bytes) (n : ℕ) : (bytes f n).length = n := by simp [bytes]

theorem bytes_congr {f g : Bytes} {n : ℕ} (h : ∀ i < n, f i = g i) : bytes f n = bytes g n :=
  List.map_congr_left fun i hi => h i (List.mem_range.1 hi)

@[simp] theorem bytes_zero (f : Bytes) : bytes f 0 = [] := rfl

theorem bytes_succ (f : Bytes) (n : ℕ) : bytes f (n + 1) = bytes f n ++ [f n] := by
  simp [bytes, List.range_succ]

theorem bytes_add (f : Bytes) (m n : ℕ) :
    bytes f (m + n) = bytes f m ++ bytes (fun i => f (m + i)) n := by
  simp [bytes, List.range_add]

theorem bytes_blit (f g : Bytes) (n : ℕ) : bytes (blit f 0 n g) n = bytes g n :=
  bytes_congr fun _ hi => blit_start hi

namespace LineEditor

/-- The arrays of the editor hold the line that is edited, the last lines of the history, and the
stash. -/
structure Shows (e : LineEditor) (a : LineEdit) : Prop where
  before : bytes e.buf e.cursor = a.text.before
  after : bytes (fun i => e.buf (e.cursor + i)) (e.len - e.cursor) = a.text.after
  cursor_le : e.cursor ≤ e.len
  len_le : e.len ≤ LINEMAX
  entries : e.historyEntries = a.lines.length
  kept : Keeps HISTORYSIZE (fun slot => bytes (e.history slot) (e.historyLens slot))
    (a.lines.length - HISTORYSIZE) a.lines
  lens : ∀ slot, e.historyLens slot ≤ LINEMAX
  offset : e.historyOffset = a.offset
  offset_le : a.offset ≤ a.available
  stash : a.offset ≠ 0 → bytes e.stashedBuf e.stashedLen = a.stash ∧ e.stashedLen ≤ LINEMAX
  prompt : e.prompt.length ≤ 246

section Rules

variable {e : LineEditor} {a : LineEdit} {E : LinePanic → Prop} {Q : PUnit → LineEditor → Prop}
variable {buf : Bytes} {t : Text} {n : ℕ} {c : UInt8} {input : List UInt8}

theorem Shows.length_before (h : e.Shows a) : a.text.before.length = e.cursor := by
  rw [← h.before, length_bytes]

theorem Shows.length_after (h : e.Shows a) : a.text.after.length = e.len - e.cursor := by
  rw [← h.after, length_bytes]

theorem Shows.length (h : e.Shows a) : a.text.length = e.len := by
  have := h.cursor_le
  rw [Text.length, h.length_before, h.length_after]
  omega

theorem Shows.line (h : e.Shows a) : bytes e.buf e.len = a.text.line := by
  rw [Text.line, ← h.before, ← h.after, ← bytes_add, Nat.add_sub_cancel' h.cursor_le]

theorem Shows.edit (h : e.Shows a) {len cursor : ℕ} (hbefore : bytes buf cursor = t.before)
    (hafter : bytes (fun i => buf (cursor + i)) (len - cursor) = t.after) (hcursor : cursor ≤ len)
    (hlen : len ≤ LINEMAX) :
    Shows { e with buf := buf, len := len, cursor := cursor } { a with text := t } :=
  ⟨hbefore, hafter, hcursor, hlen, h.entries, h.kept, h.lens, h.offset, h.offset_le, h.stash, h.prompt⟩

theorem Shows.edit_line (h : e.Shows a) {len cursor : ℕ} (hline : bytes buf len = t.line)
    (hcursor : cursor = t.before.length) (hlen : len ≤ LINEMAX) :
    Shows { e with buf := buf, len := len, cursor := cursor } { a with text := t } := by
  have hlength : len = t.before.length + t.after.length := by
    have := congrArg List.length hline
    rwa [length_bytes, Text.line, List.length_append] at this
  rw [Text.line, hlength, bytes_add] at hline
  obtain ⟨h1, h2⟩ := List.append_inj hline (by simp)
  refine h.edit (by rw [hcursor]; exact h1) ?_ (by omega) hlen
  rw [hcursor, hlength, Nat.add_sub_cancel_left]
  exact h2

theorem sub_wp {x y : ℕ} {Q : ℕ → LineEditor → Prop} (hle : y ≤ x) (hQ : Q (x - y) e) :
    wp (sub x y) Q E e := by
  unfold sub
  rw [if_neg (by omega)]
  exact hQ

theorem copyLine_wp {dst src : Bytes} {Q : Bytes → LineEditor → Prop} (hn : n ≤ LINEMAX)
    (hQ : Q (blit dst 0 n src) e) : wp (copyLine dst src n) Q E e := by
  unfold copyLine
  rw [if_neg (by omega)]
  exact hQ

theorem redraw_wp (h : e.Shows a) (hQ : Q ⟨⟩ e) : wp redraw Q E e := by
  have hlen := h.len_le
  have hprompt := h.prompt
  have hmax : LINEMAX = 256 := rfl
  have hout : REDRAWMAX = 512 := rfl
  have hdigits : (Nat.digits 10 (e.len - e.cursor)).length ≤ 3 := by
    rw [Nat.digits_length_le_iff (by omega)]
    omega
  have hfits : e.redrawLen ≤ 266 + e.prompt.length := by
    unfold redrawLen
    split_ifs <;> omega
  unfold redraw
  rw [wp_bind]
  refine wp_ite (fun hbad => by omega) fun _ => ?_
  rw [wp_bind]
  exact sub_wp h.cursor_le hQ

/-! ## Shifting -/

theorem moveByte_wp {dst src : ℕ} (hsrc : src < LINEMAX) (hdst : dst < LINEMAX)
    (hQ : Q ⟨⟩ { e with buf := upd e.buf dst (e.buf src) }) : wp (moveByte dst src) Q E e := by
  unfold moveByte
  rw [wp_bind]
  exact wp_ite (fun hbad => by omega) fun _ => hQ

theorem moveUp_wp {a : ℕ} (hfit : a + n < LINEMAX)
    (hQ : Q ⟨⟩ { e with buf := fun i => if a < i ∧ i ≤ a + n then e.buf (i - 1) else e.buf i }) :
    wp ((List.range' a n).reverse.forM fun i => moveByte (i + 1) i) Q E e := by
  induction n generalizing e with
  | zero =>
    have hbuf : (fun i => if a < i ∧ i ≤ a + 0 then e.buf (i - 1) else e.buf i) = e.buf :=
      funext fun i => if_neg (by omega)
    rw [hbuf] at hQ
    exact hQ
  | succ n ih =>
    rw [List.range'_concat, List.reverse_append, one_mul]
    refine wp_bind.2 (moveByte_wp (by omega) (by omega) (ih (by omega) ?_))
    convert hQ using 2
    funext i
    dsimp only
    rcases Nat.lt_trichotomy i (a + n + 1) with hi | hi | hi
    · rw [upd_of_ne (by omega), upd_of_ne (by omega)]
      exact if_congr (by omega) rfl rfl
    · rw [if_neg (by omega), if_pos (by omega), hi, upd_self, Nat.add_sub_cancel]
    · rw [if_neg (by omega), if_neg (by omega), upd_of_ne (by omega)]

theorem moveUp_full {a : ℕ} (hfull : a + (n + 1) = LINEMAX) (hE : E .outOfBounds) :
    wp ((List.range' a (n + 1)).reverse.forM fun i => moveByte (i + 1) i) Q E e := by
  rw [List.range'_concat, List.reverse_append, one_mul]
  refine wp_bind.2 ?_
  unfold moveByte
  rw [wp_bind]
  exact wp_ite (fun _ => hE) fun hfit => by omega

theorem moveDown_wp {a d k : ℕ} {f g : ℕ → ℕ} (hf : ∀ m < n, f (a + m) = d + m)
    (hg : ∀ m < n, g (a + m) = d + k + m) (hfit : d + k + n ≤ LINEMAX)
    (hQ : Q ⟨⟩ { e with buf := fun i => if d ≤ i ∧ i < d + n then e.buf (i + k) else e.buf i }) :
    wp ((List.range' a n).forM fun i => moveByte (f i) (g i)) Q E e := by
  induction n generalizing e a d with
  | zero =>
    have hbuf : (fun i => if d ≤ i ∧ i < d + 0 then e.buf (i + k) else e.buf i) = e.buf :=
      funext fun i => if_neg (by omega)
    rw [hbuf] at hQ
    exact hQ
  | succ n ih =>
    have hfa := hf 0 (by omega)
    have hga := hg 0 (by omega)
    rw [add_zero] at hfa hga
    rw [List.range'_succ]
    refine wp_bind.2 (moveByte_wp (by omega) (by omega) (ih (d := d + 1) (fun m hm => ?_) (fun m hm => ?_)
      (by omega) ?_))
    · rw [show a + 1 + m = a + (m + 1) by omega, hf (m + 1) (by omega)]
      omega
    · rw [show a + 1 + m = a + (m + 1) by omega, hg (m + 1) (by omega)]
      omega
    convert hQ using 2
    funext i
    dsimp only
    rw [hfa, hga, add_zero, add_zero]
    by_cases hi : i = d
    · rw [if_neg (by omega), if_pos (by omega), hi, upd_self]
    · by_cases hr : d + 1 ≤ i ∧ i < d + 1 + n
      · rw [if_pos hr, if_pos (by omega), upd_of_ne (by omega)]
      · rw [if_neg hr, if_neg (by omega), upd_of_ne hi]

/-! ## Keys -/

theorem insert_wp (h : e.Shows a) (hroom : a.text.length = LINEMAX → a.text.after = [])
    (hQ : ∀ e', e'.Shows { a with text := a.text.insert c } → Q ⟨⟩ e') : wp (insert c) Q E e := by
  have hlen := h.length
  have hcursor := h.cursor_le
  have hle := h.len_le
  have hafter := h.length_after
  unfold insert
  rw [wp_bind]
  refine wp_ite (fun hfull => hQ e ?_) fun hfit => ?_
  · rw [Text.insert, if_pos (by omega)]
    exact h
  · -- there is room, since the text after the cursor of a full line is empty
    have hlt : e.len < LINEMAX := by
      rcases Nat.lt_or_ge e.len LINEMAX with hlt | hge
      · exact hlt
      · have hnil := congrArg List.length (hroom (by omega))
        rw [List.length_nil] at hnil
        omega
    rw [wp_bind]
    refine moveUp_wp (by omega) ?_
    rw [wp_bind]
    unfold setByte
    rw [wp_bind]
    refine wp_ite (fun hbad => absurd hbad hfit) fun _ => ?_
    have hshows : Shows { e with
        buf := upd (fun i => if e.cursor < i ∧ i ≤ e.cursor + (e.len - e.cursor) then e.buf (i - 1) else e.buf i)
          e.cursor c
        len := e.len + 1
        cursor := e.cursor + 1 } { a with text := a.text.insert c } := by
      rw [Text.insert, if_neg (by omega)]
      refine h.edit ?_ ?_ (by omega) (by omega)
      · rw [bytes_succ, upd_self, ← h.before]
        refine congrArg (· ++ [c]) (bytes_congr fun i hi => ?_)
        rw [upd_of_ne (by omega), if_neg (by omega)]
      · rw [← h.after, Nat.add_sub_add_right]
        refine bytes_congr fun i hi => ?_
        rw [upd_of_ne (by omega), if_pos (by omega)]
        congr 1
        omega
    exact redraw_wp hshows (hQ _ hshows)

/-- A character in the middle of a full line moves the last one out of bounds. -/
theorem insert_full (h : e.Shows a) (hfull : a.text.length = LINEMAX) (hafter : a.text.after ≠ [])
    (hE : E .outOfBounds) : wp (insert c) Q E e := by
  have hlen := h.length
  have hcursor := h.cursor_le
  have hpos := List.length_pos_iff.2 hafter
  rw [h.length_after] at hpos
  obtain ⟨n, hn⟩ : ∃ n, e.len - e.cursor = n + 1 := ⟨e.len - e.cursor - 1, by omega⟩
  unfold insert
  rw [wp_bind]
  refine wp_ite (fun hbad => by omega) fun _ => ?_
  rw [wp_bind, hn]
  exact moveUp_full (by omega) hE

theorem Shows.cut (h : e.Shows a) {d : ℕ} {before : List UInt8} (hd : d ≤ e.cursor)
    (hbefore : bytes e.buf d = before) : Shows { e with
      buf := fun i => if d ≤ i ∧ i < d + (e.len - e.cursor) then e.buf (i + (e.cursor - d)) else e.buf i
      len := e.len - (e.cursor - d)
      cursor := d } { a with text := ⟨before, a.text.after⟩ } := by
  have hcursor := h.cursor_le
  have hle := h.len_le
  refine h.edit ?_ ?_ (by omega) (by omega)
  · rw [← hbefore]
    exact bytes_congr fun i hi => if_neg (by omega)
  · rw [← h.after, show e.len - (e.cursor - d) - d = e.len - e.cursor by omega]
    refine bytes_congr fun i hi => ?_
    rw [if_pos (by omega)]
    congr 1
    omega

theorem backspace_wp (h : e.Shows a)
    (hQ : ∀ e', e'.Shows { a with text := a.text.backspace } → Q ⟨⟩ e') : wp backspace Q E e := by
  have hcursor := h.cursor_le
  have hle := h.len_le
  unfold backspace
  rw [wp_bind]
  refine wp_ite (fun h0 => hQ e ?_) fun h0 => ?_
  · have hnil : a.text.before = [] := by rw [← List.length_eq_zero_iff, h.length_before, h0]
    have htext : a.text.backspace = a.text := by
      rw [Text.backspace, hnil, List.dropLast_nil, ← hnil]
    rw [htext]
    exact h
  · have hbefore : bytes e.buf (e.cursor - 1) = a.text.before.dropLast := by
      rw [← h.before]
      obtain ⟨n, hn⟩ : ∃ n, e.cursor = n + 1 := ⟨e.cursor - 1, by omega⟩
      rw [hn, bytes_succ, List.dropLast_concat, Nat.add_sub_cancel]
    have hshows := h.cut (Nat.sub_le e.cursor 1) hbefore
    rw [show e.cursor - (e.cursor - 1) = 1 by omega] at hshows
    rw [wp_bind]
    refine sub_wp (by omega) ?_
    rw [wp_bind]
    refine moveDown_wp (d := e.cursor - 1) (k := 1) (fun m hm => rfl) (fun m hm => by omega) (by omega) ?_
    rw [show e.len - 1 - (e.cursor - 1) = e.len - e.cursor by omega]
    exact redraw_wp hshows (hQ _ hshows)

theorem killLine_wp (h : e.Shows a)
    (hQ : ∀ e', e'.Shows { a with text := a.text.killLine } → Q ⟨⟩ e') : wp killLine Q E e := by
  have hcursor := h.cursor_le
  have hle := h.len_le
  have hshows := h.cut (Nat.zero_le e.cursor) (bytes_zero e.buf)
  unfold killLine
  rw [wp_bind, wp_get, wp_bind]
  refine moveDown_wp (d := 0) (k := e.cursor) (fun m hm => by omega) (fun m hm => by omega) (by omega) ?_
  rw [wp_bind]
  refine sub_wp hcursor ?_
  exact redraw_wp hshows (hQ _ hshows)

theorem skipBack_wp {p : UInt8 → Bool} {i : ℕ} (hi : i ≤ LINEMAX) {Q : ℕ → LineEditor → Prop}
    (hQ : ∀ j ≤ i, bytes e.buf j = (bytes e.buf i).rdropWhile p → Q j e) :
    wp (skipBack p i) Q E e := by
  induction i with
  | zero => exact hQ 0 le_rfl rfl
  | succ i ih =>
    unfold skipBack
    rw [wp_bind]
    unfold getByte
    rw [wp_bind]
    refine wp_ite (fun hbad => by omega) fun _ => wp_ite (fun hp => ?_) fun hp => ?_
    · refine ih (by omega) fun j hj hbytes => hQ j (by omega) ?_
      rw [hbytes, bytes_succ, List.rdropWhile_concat_pos _ _ _ hp]
    · refine hQ (i + 1) le_rfl ?_
      rw [bytes_succ, List.rdropWhile_concat_neg _ _ _ hp]

theorem killWord_wp (h : e.Shows a)
    (hQ : ∀ e', e'.Shows { a with text := a.text.killWord } → Q ⟨⟩ e') : wp killWord Q E e := by
  have hcursor := h.cursor_le
  have hle := h.len_le
  unfold killWord
  rw [wp_bind, wp_get, wp_bind]
  refine skipBack_wp (by omega) fun j hj hword => ?_
  rw [wp_bind]
  refine skipBack_wp (by omega) fun i hi hspace => ?_
  have hbefore : bytes e.buf i = a.text.killWord.before := by
    rw [hspace, hword, h.before]
    rfl
  have hshows := h.cut (hi.trans hj) hbefore
  rw [wp_bind]
  refine moveDown_wp (d := i) (k := e.cursor - i) (fun m hm => by omega) (fun m hm => by omega) (by omega) ?_
  rw [wp_bind]
  refine sub_wp (by omega) ?_
  exact redraw_wp hshows (hQ _ hshows)

theorem moveTo_line (h : e.Shows a) (hline : t.line = a.text.line) {c : ℕ}
    (hcursor : c = t.before.length) : Shows { e with cursor := c } { a with text := t } :=
  h.edit_line (h.line.trans hline.symm) hcursor h.len_le

theorem moveLeft_wp (h : e.Shows a)
    (hQ : ∀ e', e'.Shows { a with text := a.text.moveLeft } → Q ⟨⟩ e') : wp moveLeft Q E e := by
  refine wp_modify.2 (hQ _ ?_)
  have hbefore := h.length_before
  have hline : a.text.moveLeft.line = a.text.line := by
    rw [Text.moveLeft, Text.line, Text.line, ← List.append_assoc]
    congr 1
    rcases List.eq_nil_or_concat a.text.before with hnil | ⟨l, c, hl⟩
    · rw [hnil]
      rfl
    · rw [hl]
      simp
  split_ifs with h0
  · refine moveTo_line h hline ?_
    rw [Text.moveLeft, List.length_dropLast, hbefore]
  · have := moveTo_line h hline (c := e.cursor) (by rw [Text.moveLeft, List.length_dropLast]; omega)
    exact this

theorem moveRight_wp (h : e.Shows a)
    (hQ : ∀ e', e'.Shows { a with text := a.text.moveRight } → Q ⟨⟩ e') : wp moveRight Q E e := by
  refine wp_modify.2 (hQ _ ?_)
  have hbefore := h.length_before
  have hafter := h.length_after
  have hcursor := h.cursor_le
  have hline : a.text.moveRight.line = a.text.line := by
    rw [Text.moveRight, Text.line, Text.line, List.append_assoc]
    congr 1
    cases a.text.after <;> rfl
  split_ifs with hlt
  · refine moveTo_line h hline ?_
    obtain ⟨c, l, hl⟩ := List.exists_cons_of_length_pos (l := a.text.after) (by omega)
    rw [Text.moveRight, List.length_append, hbefore, hl]
    rfl
  · have hnil : a.text.after = [] := List.length_eq_zero_iff.1 (by omega)
    have := moveTo_line h hline (c := e.cursor) (by rw [Text.moveRight, hnil]; simp [hbefore])
    exact this

theorem moveToStart_wp (h : e.Shows a)
    (hQ : ∀ e', e'.Shows { a with text := a.text.moveToStart } → Q ⟨⟩ e') :
    wp moveToStart Q E e := by
  have hshows := moveTo_line (t := a.text.moveToStart) h rfl (c := 0) rfl
  unfold moveToStart
  rw [wp_bind]
  exact redraw_wp hshows (hQ _ hshows)

theorem moveToEnd_wp (h : e.Shows a)
    (hQ : ∀ e', e'.Shows { a with text := a.text.moveToEnd } → Q ⟨⟩ e') : wp moveToEnd Q E e := by
  have hshows := moveTo_line (t := a.text.moveToEnd) h (by simp [Text.line, Text.moveToEnd]) (c := e.len)
    (by rw [← h.length, Text.moveToEnd, List.length_append]; rfl)
  unfold moveToEnd
  rw [wp_bind]
  exact redraw_wp hshows (hQ _ hshows)

theorem Shows.recent (h : e.Shows a) {j : ℕ} (hj : 0 < j) (hle : j ≤ a.available) :
    bytes (e.history (historySlot (a.lines.length - j)))
      (e.historyLens (historySlot (a.lines.length - j))) = a.recent j := by
  rw [LineEdit.available, le_min_iff] at hle
  have hlt : a.lines.length - j < a.lines.length := by omega
  have hkept := h.kept (a.lines.length - j) (by omega) hlt
  rw [LineEdit.recent, List.getD_eq_getElem _ _ hlt]
  exact hkept

theorem loadFromHistory_wp (h : e.Shows a) (hpos : a.offset ≠ 0)
    (hQ : ∀ e', e'.Shows { a with text := .ofLine (a.recent a.offset) } → Q ⟨⟩ e') :
    wp loadFromHistory Q E e := by
  have hle := h.offset_le
  have hentries := h.entries
  have hoffset := h.offset
  have hrecent := h.recent (Nat.pos_of_ne_zero hpos) hle
  rw [LineEdit.available, le_min_iff] at hle
  unfold loadFromHistory
  rw [wp_bind, wp_get, wp_bind]
  refine sub_wp (by omega) ?_
  rw [show e.historyEntries - e.historyOffset = a.lines.length - a.offset by rw [hentries, hoffset]]
  dsimp only
  rw [wp_bind]
  refine copyLine_wp (h.lens _) (wp_set.2 (hQ _ ?_))
  refine h.edit_line ?_ ?_ (h.lens _)
  · rw [bytes_blit, hrecent]
    exact (List.append_nil _).symm
  · rw [Text.ofLine, ← hrecent, length_bytes]

theorem historyUp_wp (h : e.Shows a) (hQ : ∀ e', e'.Shows a.historyUp → Q ⟨⟩ e') :
    wp historyUp Q E e := by
  have hoffset := h.offset
  have havail : min e.historyEntries HISTORYSIZE = a.available := by rw [h.entries, LineEdit.available]
  unfold historyUp
  rw [wp_bind, wp_get]
  dsimp only
  rw [havail]
  refine wp_ite (fun hend => hQ e ?_) fun hmore => ?_
  · rw [LineEdit.historyUp, if_pos (hoffset ▸ hend)]
    exact h
  rw [hoffset] at hmore
  have hend (e1 : LineEditor) (stash : List UInt8)
      (hstash : stash = if a.offset = 0 then a.text.line else a.stash)
      (h1 : e1.Shows { a with stash := stash })
      (hbytes : bytes e1.stashedBuf e1.stashedLen = stash ∧ e1.stashedLen ≤ LINEMAX) :
      wp (do
        modify fun e => { e with historyOffset := e.historyOffset + 1 }
        loadFromHistory
        redraw : LineM PUnit) Q E e1 := by
    rw [wp_bind]
    refine wp_modify.2 ?_
    have h2 : Shows { e1 with historyOffset := e1.historyOffset + 1 }
        { a with stash := stash, offset := a.offset + 1 } :=
      ⟨h1.before, h1.after, h1.cursor_le, h1.len_le, h1.entries, h1.kept, h1.lens, by rw [h1.offset],
        by unfold LineEdit.available at hmore ⊢; dsimp only; omega, fun _ => hbytes, h1.prompt⟩
    rw [wp_bind]
    refine loadFromHistory_wp h2 (Nat.succ_ne_zero _) fun e3 h3 => redraw_wp h3 (hQ e3 ?_)
    rw [LineEdit.historyUp, if_neg hmore, ← hstash]
    exact h3
  refine wp_ite (fun h0 => ?_) fun h0 => ?_ <;> rw [hoffset] at h0
  · rw [wp_bind]
    refine copyLine_wp h.len_le (wp_bind.2 <| wp_set.2 (hend _ a.text.line (if_pos h0).symm ?_ ⟨?_, h.len_le⟩))
    · exact ⟨h.before, h.after, h.cursor_le, h.len_le, h.entries, h.kept, h.lens, h.offset, h.offset_le,
        fun hne => absurd h0 hne, h.prompt⟩
    · dsimp only
      rw [bytes_blit, h.line]
  · exact hend e a.stash (if_neg h0).symm h (h.stash h0)

theorem historyDown_wp (h : e.Shows a) (hQ : ∀ e', e'.Shows a.historyDown → Q ⟨⟩ e') :
    wp historyDown Q E e := by
  have hoffset := h.offset
  have hle := h.offset_le
  unfold historyDown
  rw [wp_bind, wp_get]
  dsimp only
  rw [hoffset]
  refine wp_ite (fun h0 => hQ e ?_) fun h0 => ?_
  · rw [LineEdit.historyDown, if_pos h0]
    exact h
  have h₁ : Shows { e with historyOffset := a.offset - 1 } { a with offset := a.offset - 1 } :=
    ⟨h.before, h.after, h.cursor_le, h.len_le, h.entries, h.kept, h.lens, rfl,
      by unfold LineEdit.available at hle ⊢; dsimp only; omega, fun _ => h.stash h0, h.prompt⟩
  obtain ⟨hstash, hslen⟩ := h.stash h0
  rw [wp_bind, wp_set]
  refine wp_ite (fun h1 => ?_) fun h1 => ?_
  · rw [wp_bind]
    refine copyLine_wp hslen (wp_bind.2 <| wp_modify.2 ?_)
    have h2 : Shows { e with
        historyOffset := a.offset - 1
        buf := blit e.buf 0 e.stashedLen e.stashedBuf
        len := e.stashedLen
        cursor := e.stashedLen } { a with offset := a.offset - 1, text := .ofLine a.stash } := by
      refine h₁.edit_line ?_ ?_ hslen
      · rw [bytes_blit, hstash]
        exact (List.append_nil _).symm
      · rw [Text.ofLine, ← hstash, length_bytes]
    refine redraw_wp h2 (hQ _ ?_)
    rw [LineEdit.historyDown, if_neg h0, if_pos (by omega)]
    exact h2
  · rw [wp_bind]
    refine loadFromHistory_wp h₁ h1 fun e2 h2 => redraw_wp h2 (hQ e2 ?_)
    rw [LineEdit.historyDown, if_neg h0, if_neg (by omega)]
    exact h2

/-! ## Whole inputs -/

theorem press_ite {c : Prop} [Decidable c] {m m' : LineM (Option LineEnd)}
    {r r' : Option LineEnd × LineEdit} {Q : Option LineEnd → LineEditor → Prop}
    (hQ : ∀ e', e'.Shows (if c then r else r').2 → Q (if c then r else r').1 e')
    (h : c → (∀ e', e'.Shows r.2 → Q r.1 e') → wp m Q E e)
    (h' : ¬c → (∀ e', e'.Shows r'.2 → Q r'.1 e') → wp m' Q E e) :
    wp (if c then m else m') Q E e := by
  refine wp_ite (fun hc => ?_) fun hc => ?_
  · rw [if_pos hc] at hQ
    exact h hc hQ
  · rw [if_neg hc] at hQ
    exact h' hc hQ

theorem press_wp (h : e.Shows a) (hroom : a.Roomy c) {Q : Option LineEnd → LineEditor → Prop}
    (hQ : ∀ e', e'.Shows (a.press c).2 → Q (a.press c).1 e') : wp (press c) Q E e := by
  unfold LineEdit.press at hQ
  unfold press
  rw [wp_bind, wp_get, ← h.length]
  refine press_ite hQ (fun _ hQ => hQ e h) fun _ hQ => ?_
  refine press_ite hQ (fun _ hQ => wp_bind.2 (backspace_wp h hQ)) fun _ hQ => ?_
  refine press_ite hQ (fun _ hQ => wp_bind.2 (moveToStart_wp h hQ)) fun _ hQ => ?_
  refine press_ite hQ (fun _ hQ => wp_bind.2 (moveToEnd_wp h hQ)) fun _ hQ => ?_
  refine press_ite hQ (fun _ hQ => wp_bind.2 (killLine_wp h hQ)) fun _ hQ => ?_
  refine press_ite hQ (fun _ hQ => wp_bind.2 (killWord_wp h hQ)) fun _ hQ => ?_
  refine press_ite hQ (fun _ hQ => wp_bind.2 (redraw_wp h (hQ e h))) fun _ hQ => ?_
  refine press_ite hQ (fun _ hQ => hQ e h) fun _ hQ => ?_
  refine press_ite hQ (fun _ hQ => hQ _ (h.edit (t := ⟨[], []⟩) rfl rfl le_rfl (Nat.zero_le _))) fun _ hQ => ?_
  exact press_ite hQ (fun hc hQ => wp_bind.2 (insert_wp h (hroom hc) hQ)) fun _ hQ => hQ e h

theorem press_full (h : e.Shows a) (hroom : ¬a.Roomy c) {Q : Option LineEnd → LineEditor → Prop}
    (hE : E .outOfBounds) : wp (press c) Q E e := by
  simp only [LineEdit.Roomy, Classical.not_imp] at hroom
  obtain ⟨hprint, hfull, hafter⟩ := hroom
  have hrange : 32 ≤ c ∧ c ≤ 126 := by simpa [isPrintable] using hprint
  have hne {x : UInt8} (hx : x < 32 ∨ 126 < x) : c ≠ x := by
    rintro rfl
    rcases hx with hx | hx
    · exact absurd hx (UInt8.not_lt.2 hrange.1)
    · exact absurd hx (UInt8.not_lt.2 hrange.2)
  unfold press
  rw [wp_bind, wp_get]
  rw [if_neg (not_or.2 ⟨hne (by decide), hne (by decide)⟩), if_neg (not_or.2 ⟨hne (by decide), hne (by decide)⟩),
    if_neg (hne (by decide)), if_neg (hne (by decide)), if_neg (hne (by decide)), if_neg (hne (by decide)),
    if_neg (hne (by decide)), if_neg (fun hd => hne (by decide) hd.1), if_neg (hne (by decide)), if_pos hprint]
  exact wp_bind.2 (insert_full h hfull hafter hE)

theorem handleEscape_wp (h : e.Shows a) {x y : UInt8}
    (hQ : ∀ e', e'.Shows (a.handleEscape x y) → Q ⟨⟩ e') : wp (handleEscape x y) Q E e := by
  unfold LineEdit.handleEscape at hQ
  unfold handleEscape
  split_ifs at hQ ⊢
  · exact historyUp_wp h hQ
  · exact historyDown_wp h hQ
  · exact moveLeft_wp h hQ
  · exact moveRight_wp h hQ
  · exact hQ e h

/-- An input acts as on lists, or it has a character that does not fit and stops the editor. -/
theorem readLoop_wp (h : e.Shows a) {esc : Escape} {Q : LineEnd × List UInt8 → LineEditor → Prop}
    (hQ : a.Accepts esc input → ∀ e', e'.Shows (a.readLoop esc input).2 →
      Q (a.readLoop esc input).1 e') (hE : ¬a.Accepts esc input → E .outOfBounds) :
    wp (readLoop esc input) Q E e := by
  induction input generalizing e a esc with
  | nil => cases esc <;> exact hQ trivial e h
  | cons c rest ih =>
    cases esc with
    | none =>
      unfold LineEdit.Accepts at hQ hE
      unfold LineEdit.readLoop at hQ
      unfold readLoop
      refine wp_ite (fun hesc => ?_) fun hesc => ?_
      · rw [if_pos hesc, if_pos hesc] at hQ
        rw [if_pos hesc] at hE
        exact ih h hQ hE
      · rw [if_neg hesc, if_neg hesc] at hQ
        rw [if_neg hesc] at hE
        rw [wp_bind]
        by_cases hroom : a.Roomy c
        · refine press_wp h hroom fun e1 h1 => ?_
          rcases hp : a.press c with ⟨_ | r, b⟩
          · rw [hp] at hQ hE h1
            exact ih h1 (fun hrest => hQ ⟨hroom, hrest⟩) fun hrest => hE fun hfits => hrest hfits.2
          · rw [hp] at hQ h1
            exact hQ ⟨hroom, trivial⟩ e1 h1
        · exact press_full h hroom (hE fun hfits => hroom hfits.1)
    | start =>
      unfold readLoop
      exact ih h hQ hE
    | second x =>
      unfold readLoop
      rw [wp_bind]
      exact handleEscape_wp h fun e1 h1 => ih h1 hQ hE

theorem addToHistory_wp (h : e.Shows a)
    (hQ : ∀ e', e'.len = e.len → e'.buf = e.buf →
      Shows { e' with historyOffset := 0 }
        { a with lines := a.lines ++ [a.text.line], offset := 0 } → Q ⟨⟩ e') :
    wp addToHistory Q E e := by
  have hslot : historySlot e.historyEntries = Fin.ofNat HISTORYSIZE a.lines.length := by
    rw [historySlot, h.entries]
  unfold addToHistory
  rw [wp_bind, wp_get]
  dsimp only
  rw [wp_bind]
  refine copyLine_wp h.len_le (wp_set.2 (hQ _ rfl rfl ?_))
  refine ⟨h.before, h.after, h.cursor_le, h.len_le, ?_, ?_, fun slot => ?_, rfl, Nat.zero_le _,
    fun hne => absurd rfl hne, h.prompt⟩
  · rw [List.length_append, List.length_singleton, ← h.entries]
  · have hring : (fun slot => bytes (upd e.history (historySlot e.historyEntries)
          (blit (e.history (historySlot e.historyEntries)) 0 e.len e.buf) slot)
          (upd e.historyLens (historySlot e.historyEntries) e.len slot)) =
        upd (fun slot => bytes (e.history slot) (e.historyLens slot)) (Fin.ofNat HISTORYSIZE a.lines.length)
          a.text.line := by
      funext slot
      by_cases hs : slot = Fin.ofNat HISTORYSIZE a.lines.length
      · rw [hslot, hs, upd_self, upd_self, upd_self, bytes_blit, h.line]
      · rw [hslot, upd_of_ne hs, upd_of_ne hs, upd_of_ne hs]
    have hN : HISTORYSIZE = 16 := rfl
    dsimp only
    rw [hring]
    have hpush := (h.kept.drop (q := a.lines.length + 1 - HISTORYSIZE) (by omega)).push (by omega) a.text.line
    rwa [List.length_append, List.length_singleton]
  · dsimp only
    by_cases hs : slot = historySlot e.historyEntries
    · rw [hs, upd_self]
      exact h.len_le
    · rw [upd_of_ne hs]
      exact h.lens slot

theorem readLine_wp (h : e.Shows a) {prompt : List UInt8} (hprompt : prompt.length ≤ 246)
    {Q : LineEnd × List UInt8 → LineEditor → Prop}
    (hQ : a.start.Accepts .none input → ∀ e', e'.Shows (a.readLine input).2 →
      bytes e'.buf e'.len = (a.readLine input).2.text.line → Q (a.readLine input).1 e')
    (hE : ¬a.start.Accepts .none input → E .outOfBounds) : wp (readLine prompt input) Q E e := by
  have h0 : Shows { e with len := 0, cursor := 0, prompt := prompt } a.start :=
    ⟨rfl, rfl, le_rfl, Nat.zero_le _, h.entries, h.kept, h.lens, h.offset, h.offset_le, h.stash, hprompt⟩
  unfold readLine
  rw [wp_bind]
  refine wp_modify.2 ?_
  rw [wp_bind]
  refine readLoop_wp h0 (fun hfits e1 h1 => ?_) hE
  replace hQ := hQ hfits
  unfold LineEdit.readLine at hQ
  rcases hr : a.start.readLoop .none input with ⟨⟨r, rest⟩, b⟩
  rw [hr] at hQ h1
  dsimp only at hQ h1 ⊢
  have hdone (hend : r = .enter ∨ r = .interrupt) : wp (do
      let e ← get
      if 0 < e.len then addToHistory
      modify fun e => { e with historyOffset := 0 }
      return (r, rest) : LineM (LineEnd × List UInt8)) Q E e1 := by
    rw [if_pos hend] at hQ
    rw [wp_bind, wp_get]
    refine wp_ite (fun hpos => ?_) fun hzero => ?_
    · have hne : b.text.line ≠ [] := by
        rw [← h1.line]
        exact List.length_pos_iff.1 (by rwa [length_bytes])
      rw [if_neg hne] at hQ
      rw [wp_bind]
      refine addToHistory_wp h1 fun e2 hlen hbuf h2 => hQ _ h2 ?_
      dsimp only
      rw [hlen, hbuf, h1.line]
    · have hnil : b.text.line = [] := by
        rw [← h1.line, Nat.eq_zero_of_not_pos hzero, bytes_zero]
      rw [if_pos hnil] at hQ
      refine hQ _ ⟨h1.before, h1.after, h1.cursor_le, h1.len_le, h1.entries, h1.kept, h1.lens, rfl,
        Nat.zero_le _, fun hne => absurd rfl hne, h1.prompt⟩ ?_
      exact h1.line
  cases r with
  | enter => exact hdone (Or.inl rfl)
  | interrupt => exact hdone (Or.inr rfl)
  | eof => exact hQ e1 h1 h1.line
  | waiting => exact hQ e1 h1 h1.line

end Rules

/-- Calls of `read_line` on one editor have returned the lines `lines`, of those that are not empty.
The last call may still be waiting for input. -/
inductive Session : LineEditor → List (List UInt8) → Prop
  | new : Session LineEditor.new []
  | call {e e' : LineEditor} {lines : List (List UInt8)} {prompt input rest : List UInt8} {r : LineEnd}
    (h : Session e lines) (hprompt : prompt.length ≤ 246)
    (hrun : (readLine prompt input).run e = .ok ((r, rest), e')) :
    Session e' (if (r = .enter ∨ r = .interrupt) ∧ bytes e'.buf e'.len ≠ [] then
      lines ++ [bytes e'.buf e'.len] else lines)

theorem new_shows : new.Shows ⟨⟨[], []⟩, [], 0, []⟩ :=
  ⟨rfl, rfl, le_rfl, Nat.zero_le _, rfl, .nil, fun _ => Nat.zero_le _, rfl, Nat.zero_le _,
    fun hne => absurd rfl hne, Nat.zero_le _⟩

/-- The editor shows a line, and its history are the lines that were entered. -/
theorem Session.shows {e : LineEditor} {lines : List (List UInt8)} (h : Session e lines) :
    ∃ a : LineEdit, e.Shows a ∧ a.lines = lines := by
  induction h with
  | new => exact ⟨_, new_shows, rfl⟩
  | @call e e' lines prompt input rest r _ hprompt hrun ih =>
    obtain ⟨a, ha, rfl⟩ := ih
    obtain ⟨hr, hshows, hline⟩ := wp_ok (E := fun _ => True)
      (Q := fun r e' => r = (a.readLine input).1 ∧ e'.Shows (a.readLine input).2 ∧
        bytes e'.buf e'.len = (a.readLine input).2.text.line)
      (readLine_wp ha hprompt (fun _ e' hs hl => ⟨rfl, hs, hl⟩) fun _ => trivial) hrun
    refine ⟨_, hshows, ?_⟩
    have hlines : (a.start.readLoop .none input).2.lines = a.lines := LineEdit.readLoop_lines
    rw [hline]
    unfold LineEdit.readLine at hr ⊢
    by_cases hend : (a.start.readLoop .none input).1.1 = .enter ∨
        (a.start.readLoop .none input).1.1 = .interrupt
    · dsimp only at hr ⊢
      rw [if_pos hend] at hr ⊢
      dsimp only at hr ⊢
      rw [← hr] at hend
      rw [hlines]
      by_cases hnil : (a.start.readLoop .none input).2.text.line = []
      · rw [if_pos hnil, if_neg fun hc => hc.2 hnil]
      · rw [if_neg hnil, if_pos ⟨hend, hnil⟩]
    · dsimp only at hr ⊢
      rw [if_neg hend] at hr ⊢
      rw [← hr] at hend
      rw [if_neg fun hc => hend hc.1, hlines]

end LineEditor

open LineEditor in
/-- A call of `read_line` returns and acts as on lists, exactly if no character is typed into the
middle of a full line. -/
theorem readLine_refines_iff {e : LineEditor} {lines : List (List UInt8)} (h : Session e lines) :
    ∃ a : LineEdit, e.Shows a ∧ a.lines = lines ∧ ∀ prompt input : List UInt8, prompt.length ≤ 246 →
      ((∃ e', (readLine prompt input).run e = .ok ((a.readLine input).1, e') ∧
        e'.Shows (a.readLine input).2) ↔ a.start.Accepts .none input) := by
  obtain ⟨a, ha, hlines⟩ := h.shows
  refine ⟨a, ha, hlines, fun prompt input hprompt => ⟨?_, fun hfits => ?_⟩⟩
  · rintro ⟨e', hrun, -⟩
    exact wp_ok (E := fun _ => True) (Q := fun _ _ => a.start.Accepts .none input)
      (readLine_wp ha hprompt (fun hfits _ _ _ => hfits) fun _ => trivial) hrun
  · obtain ⟨r, e', hrun, rfl, hshows⟩ := wp_total (readLine_wp
      (Q := fun r e' => r = (a.readLine input).1 ∧ e'.Shows (a.readLine input).2) ha hprompt
      (fun _ e' hs _ => ⟨rfl, hs⟩) fun hno => hno hfits)
    exact ⟨e', hrun, hshows⟩

open LineEditor in
/-- A full line, the key for its start, and another character. -/
theorem insert_out_of_bounds :
    (readLine [36, 32] (List.replicate 256 97 ++ [1, 98])).run LineEditor.new =
      .error .outOfBounds := by
  have hrun : stopsWith .outOfBounds ((readLine [36, 32] (List.replicate 256 97 ++ [1, 98])).run LineEditor.new) =
      true := by
    decide +kernel
  exact eq_of_stopsWith hrun

open LineEditor in
/-- The keys `a`, `b`, backspace and enter. -/
theorem readLine_refines_ab : ∃ e', (readLine [36, 32] [97, 98, 8, 13]).run LineEditor.new =
    .ok ((.enter, []), e') ∧ bytes e'.buf e'.len = [97] := by
  obtain ⟨⟨t, l, o, st⟩, hshows, rfl, hiff⟩ := readLine_refines_iff .new
  obtain rfl : o = 0 := hshows.offset.symm
  obtain ⟨e', hrun, h⟩ := (hiff [36, 32] [97, 98, 8, 13] (by decide)).2
    ⟨fun _ _ => rfl, fun _ _ => rfl, fun _ _ => rfl, fun _ _ => rfl, trivial⟩
  exact ⟨e', hrun, h.line⟩

end Octopos
