/-
# Xv6.Console.Editor -- the line as a text with a cursor

What the editing keys are for, without the ring: a text, a place in it, and one operation for each
key. The ring holds the text in `[w, e)`, and counts the cursor from the right end.

Insertion and deletion are passes that move the part of the text behind the cursor by one cell;
Ctrl-N builds the new line in an array of its own, erases the old one and types the new one. Each of
them is shown to do to the text what the editor's operation does, for every place of the cursor and of
the line in the ring (`Spans`). `line_editing_refines` collects them, key by key, and
`line_editing_runs` follows a whole sequence of keys.
-/
import Mathlib.Data.List.TakeWhile
import Xv6.Console.History

namespace Xv6.Cons
open Lib List
set_option autoImplicit false

/-! ## The editor -/

/-- A text and a place in it, counted from the left. -/
@[ext] structure Editor where
  text : List Byte
  cursor : Nat
  inside : cursor ≤ text.length

namespace Editor

def insert (b : Byte) (ed : Editor) : Editor where
  text := ed.text.take ed.cursor ++ b :: ed.text.drop ed.cursor
  cursor := ed.cursor + 1
  inside := by
    have := ed.inside
    simp only [length_append, length_cons, length_take, length_drop]
    omega

/-- The byte before the cursor goes. -/
def delete (ed : Editor) : Editor where
  text := ed.text.take (ed.cursor - 1) ++ ed.text.drop ed.cursor
  cursor := ed.cursor - 1
  inside := by
    have := ed.inside
    simp only [length_append, length_take, length_drop]
    omega

def left (ed : Editor) : Editor := { ed with
  cursor := ed.cursor - 1
  inside := (Nat.sub_le _ _).trans ed.inside }

def right (ed : Editor) : Editor := { ed with
  cursor := min (ed.cursor + 1) ed.text.length
  inside := min_le_right _ _ }

def start (ed : Editor) : Editor := { ed with cursor := 0, inside := Nat.zero_le _ }

def atEnd (text : List Byte) : Editor := ⟨text, text.length, le_rfl⟩

/-- The operation of a key. An ordinary character is inserted. -/
def press (ed : Editor) : Key → Editor
  | .typed code => ed.insert (UInt8.ofNat code)
  | .backspace => ed.delete
  | .left => ed.left
  | .right => ed.right
  | .start => ed.start
  | .stop => atEnd ed.text
  | .killLine | .clear => atEnd []
  | .delnums => atEnd (ed.text.filter fun b => !isDigit b)
  | .procdump | .up | .down | .tab => ed

end Editor

/-- The text of the line, and the cursor `e - w - shift`. -/
def editorOf (s : Input) : Editor :=
  ⟨lineText s, (lineText s).length - s.shift.toNat, Nat.sub_le _ _⟩

/-- The default case of `consoleintr`. -/
def Key.Ordinary : Key → Prop
  | .typed _ => True
  | _ => False

instance : ∀ key : Key, Decidable key.Ordinary
  | .typed _ => .isTrue trivial
  | .procdump | .killLine | .backspace | .clear | .left | .right | .delnums | .start | .stop | .up
  | .down | .tab => .isFalse not_false

/-- The ordinary characters, and the keys of the editor. -/
def Key.Edits : Key → Prop
  | .typed code => code ≠ 0 ∧ code ≠ 10 ∧ code ≠ 13 ∧ code ≠ 4
  | .backspace | .left | .right | .start | .stop | .killLine | .clear | .delnums => True
  | .procdump | .up | .down | .tab => False

instance : ∀ key : Key, Decidable key.Edits
  | .typed _ => inferInstanceAs (Decidable (_ ∧ _))
  | .backspace | .left | .right | .start | .stop | .killLine | .clear | .delnums => .isTrue trivial
  | .procdump | .up | .down | .tab => .isFalse not_false

/-! ## The line in the ring -/

namespace Input

variable {s s' : Input} {W E : Nat}

/-- The line lies between the counters `W` and `E`, at most a ring apart. -/
structure Spans (s : Input) (W E : Nat) : Prop where
  w : s.w = BitVec.ofNat 32 W
  e : s.e = BitVec.ofNat 32 E
  we : W ≤ E
  room : E ≤ W + INPUT_BUF

theorem Counts.spans {R : Nat} (counts : s.Counts R W E) : s.Spans W E :=
  ⟨counts.w, counts.e, counts.we, counts.room.trans (Nat.add_le_add_right counts.rw _)⟩

/-- Every line of at most a ring has such counters. -/
theorem Spans.of_short (short : (s.e - s.w).toNat ≤ INPUT_BUF) :
    s.Spans s.w.toNat (s.w.toNat + (s.e - s.w).toNat) := by
  refine ⟨by simp, ?_, Nat.le_add_right _ _, Nat.add_le_add_left short _⟩
  rw [BitVec.ofNat_add, BitVec.ofNat_toNat, BitVec.ofNat_toNat, BitVec.setWidth_eq,
    BitVec.setWidth_eq, BitVec.add_comm, BitVec.sub_add_cancel]

namespace Spans

variable (spans : s.Spans W E)
include spans

theorem length : (s.e - s.w).toNat = E - W := by
  have room : E ≤ W + 128 := spans.room
  rw [spans.e, spans.w, toNat_sub_ofNat spans.we (by omega)]

theorem text : lineText s = Ring.window INPUT_BUF s.buf W (E - W) := by
  rw [lineText, spans.length]
  refine map_congr_left fun k _ => ?_
  rw [spans.w, ofNat_add_ofNat, get_ofNat]

theorem lengthen (space : E < W + INPUT_BUF) : { s with e := s.e + 1 }.Spans W (E + 1) :=
  ⟨spans.w, by rw [spans.e, ofNat_succ], spans.we.trans (Nat.le_succ E), space⟩

theorem shorten (some : W < E) : { s with e := s.e - 1 }.Spans W (E - 1) := by
  have room := spans.room
  exact ⟨spans.w, by rw [spans.e, ofNat_pred (by omega)], by omega, by omega⟩

end Spans

end Input

section Passes

variable {s : Input} {c : Console} {W E : Nat}

/-- The line keeps its place when only cells and the cursor change. -/
theorem Input.Spans.congr {s' : Input} (spans : s.Spans W E) (w : s'.w = s.w) (e : s'.e = s.e) :
    s'.Spans W E :=
  ⟨w.trans spans.w, e.trans spans.e, spans.we, spans.room⟩

theorem inputputc_buf (b : Byte) (e : c.input.e = BitVec.ofNat 32 E)
    (cursor : c.input.shift.toNat ≤ E) :
    (inputputc b c).input.buf = Ring.write INPUT_BUF
      (Input.copies (E - ·) (E - · - 1) (range c.input.shift.toNat) c.input.buf)
      (E - c.input.shift.toNat) b := by
  rw [inputputc_input]
  by_cases home : c.input.shift = 0
  · rw [if_pos home, e, Input.put_ofNat, home]
    rfl
  · have index : c.input.e - c.input.shift = BitVec.ofNat 32 (E - c.input.shift.toNat) := by
      rw [e, ← ofNat_sub_ofNat cursor]
      simp
    rw [if_neg home, Input.inputshiftright_eq e cursor]
    rw [index, Input.put_ofNat]

/-- The part behind the cursor moves up, and the byte goes to the cursor. -/
theorem inputputc_text (b : Byte) (spans : c.input.Spans W E) (space : E < W + INPUT_BUF)
    (cursor : c.input.shift.toNat ≤ E - W) :
    (inputputc b c).input.Spans W (E + 1) ∧
      lineText (inputputc b c).input =
        (lineText c.input).take (E - W - c.input.shift.toNat) ++
          b :: (lineText c.input).drop (E - W - c.input.shift.toNat) := by
  have we := spans.we
  obtain ⟨-, w, e, -⟩ := inputputc_indices b c
  have after : (inputputc b c).input.Spans W (E + 1) :=
    (spans.lengthen space).congr w (e.trans rfl)
  refine ⟨after, ?_⟩
  have buf := inputputc_buf b spans.e (by omega)
  generalize place : E - W - c.input.shift.toNat = n at *
  have whole : E - W = n + c.input.shift.toNat := by omega
  have grown : E + 1 - W = n + c.input.shift.toNat + 1 := by omega
  rw [after.text, spans.text, whole, grown, buf]
  apply Ring.window_insert
  · intro k above below
    rw [Ring.read_write _ _ (by omega) (by omega), if_neg (by omega)]
    rw [Input.copies, Ring.read_moveUp _ (by omega) (by omega) (by omega) (by omega),
      if_neg (by omega)]
  · rw [Ring.read_write _ _ (by omega) (by omega), if_pos (by omega)]
  · intro k inside
    rw [Ring.read_write _ _ (by omega) (by omega), if_neg (by omega)]
    rw [Input.copies, Ring.read_moveUp _ (by omega) (by omega) (by omega) (by omega),
      if_pos (by omega)]
    congr 1
    omega

/-- The part behind the cursor moves down, over the byte before it. -/
theorem inputshiftleft_text (spans : s.Spans W E) (cursor : s.shift.toNat < E - W) :
    s.inputshiftleft.Spans W (E - 1) ∧
      lineText s.inputshiftleft =
        (lineText s).take (E - W - s.shift.toNat - 1) ++
          (lineText s).drop (E - W - s.shift.toNat) := by
  have room := spans.room
  obtain ⟨-, w, e, -⟩ := inputshiftleft_indices s
  have after : s.inputshiftleft.Spans W (E - 1) :=
    (spans.shorten (by omega)).congr w (e.trans rfl)
  refine ⟨after, ?_⟩
  have short : s.shift.toNat < INPUT_BUF := by omega
  have buf := congrArg Input.buf (Input.inputshiftleft_eq spans.e (by omega) short)
  obtain ⟨n, place⟩ : ∃ n, E - W - s.shift.toNat = n + 1 := ⟨E - W - s.shift.toNat - 1, by omega⟩
  have whole : E - W = n + 1 + s.shift.toNat := by omega
  have shorter : E - 1 - W = n + s.shift.toNat := by omega
  rw [after.text, spans.text, place, whole, shorter, buf, Nat.add_sub_cancel]
  apply Ring.window_delete
  · intro k above below
    rw [Input.copies, Ring.read_moveDown _ (by omega) (by omega) (by omega), if_neg (by omega)]
  · intro k inside
    rw [Input.copies, Ring.read_moveDown _ (by omega) (by omega) (by omega), if_pos (by omega)]
    congr 1
    omega

end Passes

/-! ## Erasing the line and typing another -/

section Refill

variable {c : Console} {W E : Nat}

/-- Without a newline in the line, the loop goes down to `w`. -/
theorem eraseLoop_plain {n : Nat} (spans : c.input.Spans W (W + n))
    (plain : newline ∉ lineText c.input) :
    eraseLoop n c = { c with input := { c.input with e := c.input.w } }.emit
      (replicate n .backspace) := by
  induction n generalizing c with
  | zero =>
    have same : c.input.e = c.input.w := spans.e.trans spans.w.symm
    rw [eraseLoop, ← same]
    simp [Console.emit]
  | succ n ih =>
    have some : W < W + (n + 1) := by omega
    have text : lineText c.input = Ring.window INPUT_BUF c.input.buf W n ++
        [Ring.read INPUT_BUF c.input.buf (W + n)] := by
      rw [spans.text, Nat.add_sub_cancel_left, Ring.window_append]
      rfl
    have last : c.input.e - 1 = BitVec.ofNat 32 (W + n) := by
      rw [spans.e, ofNat_pred (by omega)]
      rfl
    have differ : c.input.e ≠ c.input.w := by
      intro same
      have length := spans.length
      rw [same, BitVec.sub_self] at length
      simp at length
    have more : c.input.e ≠ c.input.w ∧ c.input.get (c.input.e - 1) ≠ newline := by
      refine ⟨differ, ?_⟩
      intro stop
      apply plain
      rw [text, ← stop, last, Input.get_ofNat]
      simp
    let next := { c with input := { c.input with e := c.input.e - 1 } }.emit [.backspace]
    have shorter : next.input.Spans W (W + n) := spans.shorten some
    have rest : newline ∉ lineText next.input := by
      intro inside
      apply plain
      rw [shorter.text, Nat.add_sub_cancel_left] at inside
      rw [text]
      exact mem_append_left _ inside
    rw [eraseLoop, if_pos more, ih shorter rest]
    simp [Console.emit, next, replicate_succ]

theorem conseraseline_plain (spans : c.input.Spans W E) (plain : newline ∉ lineText c.input) :
    conseraseline c = { c with input := { c.input with e := c.input.w, shift := 0 } }.emit
      (.move c.input.shift :: replicate (E - W) .backspace) := by
  have whole : W + (E - W) = E := Nat.add_sub_cancel' spans.we
  let ended : Console := { movpostoend c with input := { c.input with shift := 0 } }
  have spans' : ended.input.Spans W (W + (E - W)) := by
    rw [whole]
    exact spans.congr rfl rfl
  have loop := eraseLoop_plain spans' plain
  change eraseLoop (c.input.e - c.input.w).toNat ended = _
  rw [spans.length, loop]
  simp [ended, movpostoend, Console.emit]

/-- Text typed at the end of the line. -/
theorem foldl_putEnd_text (text : List Byte) (spans : c.input.Spans W E)
    (fits : E + text.length ≤ W + INPUT_BUF) :
    (text.foldl putEnd c).input.Spans W (E + text.length) ∧
      lineText (text.foldl putEnd c).input = lineText c.input ++ text ∧
      (text.foldl putEnd c).screen = c.screen ++ text.map .putc := by
  induction text generalizing c E with
  | nil => exact ⟨spans, by simp, by simp⟩
  | cons b rest ih =>
    have we := spans.we
    rw [length_cons] at fits
    have first : (putEnd c b).input.Spans W (E + 1) :=
      (spans.lengthen (by omega)).congr rfl rfl
    have buf : (putEnd c b).input.buf = Ring.write INPUT_BUF c.input.buf E b :=
      (congrArg (fun i => (c.input.put i b).buf) spans.e).trans
        (congrArg Input.buf (Input.put_ofNat _ _ _))
    have grown : lineText (putEnd c b).input = lineText c.input ++ [b] := by
      have longer : E + 1 - W = E - W + 1 := by omega
      have here : W + (E - W) = E := by omega
      rw [first.text, spans.text, buf, longer, Ring.window_append, here]
      congr 1
      · apply Ring.window_congr
        intro k above below
        exact Ring.read_write_above _ _ (by omega) (by omega)
      · change [Ring.read INPUT_BUF (Ring.write INPUT_BUF _ E b) E] = [b]
        rw [Ring.read_write _ _ (by omega) (by omega), if_pos rfl]
    obtain ⟨spans', text', screen'⟩ := ih first (by omega)
    refine ⟨?_, ?_, ?_⟩
    · rw [length_cons, Nat.add_comm rest.length, ← Nat.add_assoc]
      exact spans'
    · rw [foldl_cons, text', grown, append_assoc]
      rfl
    · rw [foldl_cons, screen']
      simp [putEnd, Console.emit]

/-- **Another text in place of the line**, wherever the line stood. -/
theorem refill_text (s : Nat → Byte) (spans : c.input.Spans W E)
    (plain : newline ∉ lineText c.input) :
    (refill s c).input.Spans W (W + (cstr s).length) ∧ lineText (refill s c).input = cstr s ∧
      (refill s c).screen = c.screen ++
        (.move c.input.shift :: replicate (E - W) .backspace) ++ (cstr s).map .putc := by
  rw [refill, consputs, conseraseline_plain spans plain]
  let erased := { c with input := { c.input with e := c.input.w, shift := 0 } }.emit
    (.move c.input.shift :: replicate (E - W) .backspace)
  have empty : erased.input.Spans W W := ⟨spans.w, spans.w, le_rfl, Nat.le_add_right _ _⟩
  obtain ⟨spans', text, screen⟩ := foldl_putEnd_text (cstr s) empty
    (Nat.add_le_add_left (cstr_length s) W)
  refine ⟨spans', ?_, screen⟩
  rw [text, empty.text, Nat.sub_self]
  rfl

theorem cstr_congr {s s' : Nat → Byte} (same : ∀ j < INPUT_BUF, s' j = s j) : cstr s' = cstr s := by
  rw [cstr, cstr, map_congr_left fun j inside => same j (mem_range.mp inside)]

theorem cstr_nul {s : Nat → Byte} (nul : s 0 = 0) : cstr s = [] := by
  rw [cstr, range_succ_eq_map, map_cons]
  simp [nul]

/-- An array that holds a text, and zeros behind it. -/
theorem cstr_getD {text : List Byte} (short : text.length ≤ INPUT_BUF) :
    cstr (fun j => text.getD j 0) = text.takeWhile (· ≠ 0) := by
  have array : (range INPUT_BUF).map (fun j => text.getD j 0) =
      text ++ replicate (INPUT_BUF - text.length) 0 := by
    apply ext_getElem?
    intro j
    rcases Nat.lt_or_ge j text.length with inside | past
    · have bound : j < INPUT_BUF := by omega
      simp [getElem?_append_left inside, bound, inside]
    · rcases Nat.lt_or_ge j INPUT_BUF with bound | outside
      · have zero : j - text.length < INPUT_BUF - text.length := by omega
        simp [getElem?_append_right past, bound, zero, past]
      · have none : ¬ j - text.length < INPUT_BUF - text.length := by omega
        have bound : ¬ j < INPUT_BUF := by omega
        simp [getElem?_append_right past, bound, none]
  rw [cstr, array, takeWhile_append]
  split
  · rename_i whole
    have same : text.takeWhile (· ≠ 0) = text := (List.takeWhile_prefix _).eq_of_length whole
    rw [same]
    simp
  · rfl

theorem takeWhile_of_nul {text : List Byte} (nul : 0 ∉ text) : text.takeWhile (· ≠ 0) = text := by
  apply takeWhile_eq_self_iff.mpr
  intro b inside
  have differ : b ≠ 0 := by
    rintro rfl
    exact nul inside
  simpa using differ

/-- The array of `delnums` holds the line without its digits. -/
theorem cstr_delnumsLine (spans : c.input.Spans W E) :
    cstr (delnumsLine c.input) =
      ((lineText c.input).filter fun b => !isDigit b).takeWhile (· ≠ 0) := by
  apply cstr_getD
  have room := spans.room
  have shorter := length_filter_le (fun b => !isDigit b) (lineText c.input)
  rw [lineText_length, spans.length] at shorter
  exact shorter.trans (by omega)

end Refill

/-! ## One key -/

/-- What the editor relies on: the indices are in order and have not wrapped, the cursor is inside the
line, the line is shorter than the ring, the ring is not overrun, and the line is one text. -/
structure Editing (s : Input) : Prop where
  rw : s.r ≤ s.w
  we : s.w ≤ s.e
  cursor : CursorInside s
  line : (s.e - s.w).toNat < INPUT_BUF
  room : (s.e - s.r).toNat ≤ INPUT_BUF
  newline : newline ∉ lineText s
  nul : 0 ∉ lineText s

/-- An ordinary key is the one that fills the ring. -/
def Fills (s : Input) : Prop := s.e + 1 = s.r + BitVec.ofNat 32 INPUT_BUF
deriving Decidable

/-- An ordinary key finds no room. -/
def Full (s : Input) : Prop := s.e - s.r = BitVec.ofNat 32 INPUT_BUF
deriving Decidable

/-- Nothing changes but the line and the cursor in it. -/
structure Refines (s s' : Input) (ed : Editor) : Prop where
  editor : editorOf s' = ed
  cursor : CursorInside s'
  r : s'.r = s.r
  w : s'.w = s.w
  committed : ∀ k < (s.w - s.r).toNat,
    s'.get (s.r + BitVec.ofNat 32 k) = s.get (s.r + BitVec.ofNat 32 k)

theorem Editing.counts {s : Input} (editing : Editing s) :
    s.Counts s.r.toNat s.w.toNat s.e.toNat := by
  have rw : s.r.toNat ≤ s.w.toNat := editing.rw
  have we : s.w.toNat ≤ s.e.toNat := editing.we
  have room := editing.room
  rw [BitVec.toNat_sub_of_le (BitVec.le_trans editing.rw editing.we)] at room
  exact ⟨by simp, by simp, by simp, rw, we, by omega⟩

variable (beyond : Beyond)

section OneKey

variable {c : Console} {s s' : Input} {R W E : Nat} {ed : Editor}

theorem Input.Edit.refines {E' : Nat} (edit : s.Edit R W s' E') (counts : s.Counts R W E)
    (cursor : s'.shift.toNat ≤ E' - W) (text : lineText s' = ed.text)
    (place : E' - W - s'.shift.toNat = ed.cursor) : Refines s s' ed := by
  have length : (s'.e - s'.w).toNat = E' - W := edit.counts.edited
  refine ⟨?_, ?_, edit.keeps.r, edit.keeps.w, ?_⟩
  · apply Editor.ext text
    rw [← place, ← length, ← lineText_length]
    rfl
  · change s'.shift.toNat ≤ (s'.e - s'.w).toNat
    rw [length]
    exact cursor
  · intro k inside
    rw [counts.unread] at inside
    rw [counts.r, ofNat_add_ofNat, Input.get_ofNat, Input.get_ofNat]
    exact edit.keeps.bytes _ (Nat.le_add_right R k) (by omega)

/-- The cursor of the editor, from the counters. -/
theorem Input.Spans.cursor (spans : s.Spans W E) :
    (editorOf s).cursor = E - W - s.shift.toNat := by
  rw [← spans.length, ← lineText_length]
  rfl

/-- Only the cursor moves. -/
theorem moved_refines (counts : s.Counts R W E) (shift : Word) (inside : shift.toNat ≤ E - W)
    (text : ed.text = lineText s) (place : E - W - shift.toNat = ed.cursor) :
    Refines s { s with shift := shift } ed :=
  (counts.shifted shift).refines counts inside text.symm place

/-- The line is erased. -/
theorem conseraseline_refines (counts : c.input.Counts R W E)
    (plain : newline ∉ lineText c.input) :
    Refines c.input (conseraseline c).input (.atEnd []) := by
  have le := counts.we
  have room := counts.room
  have edit : c.input.Edit R W { c.input with e := c.input.w, shift := 0 } W :=
    counts.edit rfl rfl counts.w le_rfl (by omega) (fun _ _ _ => rfl)
  have empty : ({ c.input with e := c.input.w, shift := 0 } : Input).Spans W W := edit.counts.spans
  rw [conseraseline_plain counts.spans plain]
  apply edit.refines counts
  · exact Nat.zero_le _
  · rw [empty.text, Nat.sub_self]
    rfl
  · rw [Nat.sub_self]
    rfl

/-- Another line of no greater length is typed. -/
theorem refill_refines (line : Nat → Byte) (counts : c.input.Counts R W E)
    (plain : newline ∉ lineText c.input) (shorter : (cstr line).length ≤ E - W) :
    Refines c.input (refill line c).input (.atEnd (cstr line)) := by
  have le := counts.we
  have le' := counts.rw
  have room := counts.room
  have fits : Fits c line := by
    rw [Fits, conseraseline_plain counts.spans plain]
    change (c.input.w - c.input.r).toNat + _ ≤ _
    rw [counts.unread]
    omega
  obtain ⟨E', edit⟩ := refill_edit counts fits
  obtain ⟨spans, text, -⟩ := refill_text line counts.spans plain
  have shift : (refill line c).input.shift.toNat = 0 := congrArg BitVec.toNat (refill_shift line c)
  have length : E' - W = (cstr line).length := by
    rw [← edit.counts.edited, spans.length, Nat.add_sub_cancel_left]
  apply edit.refines counts
  · rw [shift]
    exact Nat.zero_le _
  · exact text
  · rw [shift, length]
    rfl

theorem backspace_refines (counts : c.input.Counts R W E) (cursor : c.input.shift.toNat < E - W) :
    Refines c.input c.input.inputshiftleft (editorOf c.input).delete := by
  obtain ⟨-, -, -, shift⟩ := inputshiftleft_indices c.input
  obtain ⟨-, text⟩ := inputshiftleft_text counts.spans cursor
  have place := counts.spans.cursor
  apply (counts.inputshiftleft cursor).refines counts
  · rw [shift]
    omega
  · rw [text, ← place]
    rfl
  · change _ = (editorOf c.input).cursor - 1
    rw [shift, place]
    omega

theorem inputputc_refines (b : Byte) (counts : c.input.Counts R W E) (space : E < R + INPUT_BUF)
    (cursor : c.input.shift.toNat ≤ E - W) :
    Refines c.input (inputputc b c).input ((editorOf c.input).insert b) := by
  have le := counts.we
  have le' := counts.rw
  obtain ⟨-, -, -, shift⟩ := inputputc_indices b c
  obtain ⟨-, text⟩ := inputputc_text b counts.spans (by omega) cursor
  have place := counts.spans.cursor
  apply (inputputc_edit b counts space cursor).refines counts
  · rw [shift]
    omega
  · rw [text, ← place]
    rfl
  · change _ = (editorOf c.input).cursor + 1
    rw [shift, place]
    omega

/-- An ordinary character that does not commit is inserted, and nothing else happens. -/
theorem typed_inserts {code : Nat} (edits : (Key.typed code).Edits)
    (free : c.input.e - c.input.r < BitVec.ofNat 32 INPUT_BUF) (stays : ¬ Fills c.input) :
    typed beyond code c = inputputc (UInt8.ofNat code) c := by
  obtain ⟨some, notEnter, notReturn, notEot⟩ := edits
  obtain ⟨r, -, e, -⟩ := inputputc_indices (UInt8.ofNat code) c
  have enters : entered beyond code c = c := if_neg (by simp [notEnter])
  have accepted : code ≠ 0 ∧ c.input.e - c.input.r < BitVec.ofNat 32 INPUT_BUF := ⟨some, free⟩
  have kept : ¬ (code = 10 ∨ code = 4 ∨ (inputputc (UInt8.ofNat code) c).input.e =
      (inputputc (UInt8.ofNat code) c).input.r + BitVec.ofNat 32 INPUT_BUF) := by
    rw [e, r]
    rintro (enter | eot | fills)
    · exact notEnter enter
    · exact notEot eot
    · exact stays fills
  rw [typed, if_pos accepted]
  simp only [if_neg notReturn, enters]
  exact if_neg kept

theorem typed_full (code : Nat) (full : Full c.input) : typed beyond code c = c := by
  apply if_neg
  rw [full]
  simp

/-- The keys that are not ordinary. -/
theorem key_refines {code : Nat} (editing : Editing c.input) (edits : (Key.ofCode code).Edits)
    (special : ¬ (Key.ofCode code).Ordinary) :
    Refines c.input (consoleintr beyond code c).input
      ((editorOf c.input).press (Key.ofCode code)) := by
  have counts := editing.counts
  have length := counts.edited
  have place := counts.spans.cursor
  have total : (lineText c.input).length = c.input.e.toNat - c.input.w.toNat := by
    rw [lineText_length, length]
  have cursor : c.input.shift.toNat ≤ c.input.e.toNat - c.input.w.toNat := by
    rw [← length]
    exact editing.cursor
  -- a key that finds nothing to do
  have idle : ∀ ed : Editor, ed.text = lineText c.input → (editorOf c.input).cursor = ed.cursor →
      Refines c.input c.input ed := by
    intro ed text same
    exact moved_refines counts c.input.shift cursor text (place.symm.trans same)
  unfold consoleintr
  cases key : Key.ofCode code <;> rw [key] at edits special <;> simp only [Editor.press]
  case killLine | clear => exact conseraseline_refines counts editing.newline
  case backspace =>
      have place' : (c.input.e - c.input.shift).toNat = c.input.e.toNat - c.input.shift.toNat := by
        apply BitVec.toNat_sub_of_le
        change c.input.shift.toNat ≤ c.input.e.toNat
        omega
      by_cases deletes : c.input.e - c.input.shift > c.input.w
      · have above : c.input.w.toNat < (c.input.e - c.input.shift).toNat := deletes
        rw [if_pos deletes]
        apply backspace_refines counts
        omega
      · have atStart : ¬ c.input.w.toNat < (c.input.e - c.input.shift).toNat := deletes
        have zero : (editorOf c.input).cursor = 0 := by omega
        rw [if_neg deletes]
        apply idle
        · simp only [Editor.delete, zero, Nat.zero_sub, take_zero, nil_append,
            drop_zero]
          rfl
        · change _ = (editorOf c.input).cursor - 1
          omega
  case left =>
      by_cases room : c.input.shift < c.input.e - c.input.w
      · have below : c.input.shift.toNat < (c.input.e - c.input.w).toNat := room
        have next : (c.input.shift + 1).toNat = c.input.shift.toNat + 1 := by bv_omega
        rw [if_pos room]
        apply moved_refines counts _ _ rfl
        · change _ = (editorOf c.input).cursor - 1
          omega
        · omega
      · have atStart : ¬ c.input.shift.toNat < (c.input.e - c.input.w).toNat := room
        rw [if_neg room]
        apply idle _ rfl
        change _ = (editorOf c.input).cursor - 1
        omega
  case right =>
      by_cases back : c.input.shift > 0
      · have next : (c.input.shift - 1).toNat = c.input.shift.toNat - 1 := by bv_omega
        rw [if_pos back]
        apply moved_refines counts _ _ rfl
        · change _ = min ((editorOf c.input).cursor + 1) (lineText c.input).length
          omega
        · omega
      · have home : ¬ 0 < c.input.shift.toNat := back
        rw [if_neg back]
        apply idle _ rfl
        change _ = min ((editorOf c.input).cursor + 1) (lineText c.input).length
        omega
  case start =>
      by_cases room : c.input.shift < c.input.e - c.input.w
      · rw [if_pos room]
        apply moved_refines counts (c.input.e - c.input.w) _ rfl
        · change _ = 0
          rw [length, Nat.sub_self]
        · rw [length]
      · have atStart : ¬ c.input.shift.toNat < (c.input.e - c.input.w).toNat := room
        rw [if_neg room]
        apply idle _ rfl
        change _ = 0
        omega
  case stop =>
      apply moved_refines counts 0 (Nat.zero_le _) rfl
      exact total.symm
  case delnums =>
      have text := cstr_delnumsLine counts.spans
      have nul : 0 ∉ (lineText c.input).filter fun b => !isDigit b := by
        intro inside
        exact editing.nul (mem_of_mem_filter inside)
      rw [takeWhile_of_nul nul] at text
      have refilled := refill_refines (delnumsLine c.input) counts editing.newline (by
        rw [text, ← total]
        exact length_filter_le _ _)
      rw [text] at refilled
      exact refilled
  case typed => exact absurd trivial special
  all_goals exact edits.elim

/-- An ordinary key that does not commit. -/
theorem ordinary_refines {code : Nat} (editing : Editing c.input) (edits : (Key.typed code).Edits)
    (stays : ¬ Fills c.input) (free : ¬ Full c.input) :
    typed beyond code c = inputputc (UInt8.ofNat code) c ∧
      Refines c.input (typed beyond code c).input
        ((editorOf c.input).insert (UInt8.ofNat code)) := by
  have counts := editing.counts
  have cursor : c.input.shift.toNat ≤ c.input.e.toNat - c.input.w.toNat := by
    rw [← counts.edited]
    exact editing.cursor
  have below : (c.input.e - c.input.r).toNat < 128 := by
    apply lt_of_le_of_ne editing.room
    intro same
    exact free (BitVec.eq_of_toNat_eq same)
  have space : c.input.e.toNat < c.input.r.toNat + 128 := by
    rw [counts.used] at below
    omega
  have inserts := typed_inserts beyond edits below stays
  rw [inserts]
  exact ⟨rfl, inputputc_refines _ counts space cursor⟩

theorem Key.Ordinary.typed {key : Key} (ordinary : key.Ordinary) : ∃ code, key = .typed code := by
  cases key
  case typed code => exact ⟨code, rfl⟩
  all_goals exact ordinary.elim

/-- **The editing keys are the operations of the editor.** On a line that is one text, with the cursor
inside it, a key that does not commit changes text and cursor as its operation does; an ordinary key
is ignored exactly when the ring is full. What is committed stays as it is. -/
theorem line_editing_refines (beyond : Beyond) {code : Nat} (editing : Editing c.input)
    (edits : (Key.ofCode code).Edits) (stays : (Key.ofCode code).Ordinary → ¬ Fills c.input) :
    Refines c.input (consoleintr beyond code c).input
        (if (Key.ofCode code).Ordinary ∧ Full c.input then editorOf c.input
          else (editorOf c.input).press (Key.ofCode code)) ∧
      ((Key.ofCode code).Ordinary → (consoleintr beyond code c = c ↔ Full c.input)) := by
  by_cases ordinary : (Key.ofCode code).Ordinary
  · obtain ⟨code', key⟩ := ordinary.typed
    have pressed : consoleintr beyond code c = typed beyond code' c := by
      rw [consoleintr, key]
    rw [key] at edits stays ⊢
    rw [pressed]
    by_cases full : Full c.input
    · rw [typed_full beyond code' full, if_pos ⟨trivial, full⟩]
      exact ⟨⟨rfl, editing.cursor, rfl, rfl, fun _ _ => rfl⟩, fun _ => iff_of_true rfl full⟩
    · obtain ⟨inserts, refines⟩ := ordinary_refines beyond editing edits (stays trivial) full
      obtain ⟨-, -, e, -⟩ := inputputc_indices (UInt8.ofNat code') c
      rw [if_neg (by simp [full])]
      refine ⟨refines, fun _ => iff_of_false ?_ full⟩
      intro same
      rw [← inserts, same] at e
      bv_omega
  · rw [if_neg (by simp [ordinary])]
    exact ⟨key_refines beyond editing edits ordinary, fun is => absurd is ordinary⟩

end OneKey

/-- `abc` with the cursor behind `a`, in cells 126, 127 and 0; the byte in cell 125 is committed. -/
def acrossEnd : Console where
  input :=
    { buf := fun j => if j = 126 then 97 else if j = 127 then 98 else if j = 0 then 99 else 7
      r := 125, w := 126, e := 129, shift := 2 }
  cmds := boot.con.cmds
  screen := []

theorem line_editing_refines_acrossEnd :
    lineText (consoleintr (fun _ => 0) 120 acrossEnd).input = [97, 120, 98, 99] ∧
      Refines acrossEnd.input (consoleintr (fun _ => 0) 120 acrossEnd).input
        ((editorOf acrossEnd.input).insert 120) := by
  have editing : Editing acrossEnd.input :=
    ⟨by decide, by decide, by decide, by decide, by decide, by decide, by decide⟩
  have refines := (@line_editing_refines acrossEnd (fun _ => 0) 120 editing (by decide)
    (by decide)).1
  exact ⟨by decide, refines⟩

/-! ## Sequences of keys -/

section Runs

variable {s s' : Input} {c : Console}

theorem Editor.mem_press {ed : Editor} {key : Key} {b : Byte} (inside : b ∈ (ed.press key).text) :
    b ∈ ed.text ∨ ∃ code, key = .typed code ∧ b = UInt8.ofNat code := by
  cases key
  case typed code =>
      rcases mem_append.mp inside with before | behind
      · exact .inl (mem_of_mem_take before)
      · rcases mem_cons.mp behind with new | behind
        · exact .inr ⟨code, rfl, new⟩
        · exact .inl (mem_of_mem_drop behind)
  case backspace =>
      rcases mem_append.mp inside with before | behind
      · exact .inl (mem_of_mem_take before)
      · exact .inl (mem_of_mem_drop behind)
  case killLine | clear => cases inside
  case delnums => exact .inl (mem_of_mem_filter inside)
  all_goals exact .inl inside

theorem Editor.length_press (ed : Editor) (key : Key) :
    (ed.press key).text.length ≤ ed.text.length + if key.Ordinary then 1 else 0 := by
  cases key
  case typed code =>
      rw [if_pos (show (Key.typed code).Ordinary from trivial)]
      simp only [press, insert, length_append, length_cons, length_take,
        length_drop]
      omega
  case backspace =>
      simp only [press, delete, length_append, length_take, length_drop]
      omega
  case killLine | clear => exact Nat.zero_le _
  case delnums => exact (length_filter_le _ _).trans (Nat.le_add_right _ _)
  all_goals exact Nat.le_add_right _ _

/-- The state after a refined step is one to edit in, if the new text is a short line. -/
theorem Refines.editing {ed : Editor} (refines : Refines s s' ed) (before : Editing s)
    (unwrapped : s.w.toNat + ed.text.length < 2 ^ 32)
    (line : ed.text.length < INPUT_BUF) (room : (s.w - s.r).toNat + ed.text.length ≤ INPUT_BUF)
    (plain : newline ∉ ed.text) (nul : 0 ∉ ed.text) :
    Editing s' ∧ s'.e.toNat = s.w.toNat + ed.text.length := by
  have text : lineText s' = ed.text := congrArg Editor.text refines.editor
  have length : (s'.e - s'.w).toNat = ed.text.length := by
    rw [← text, lineText_length]
  have ended : s'.e.toNat = s.w.toNat + ed.text.length := by
    rw [refines.w] at length
    bv_omega
  have order : s.r.toNat ≤ s.w.toNat := before.rw
  refine ⟨⟨?_, ?_, refines.cursor, length ▸ line, ?_, text ▸ plain, text ▸ nul⟩, ended⟩
  · rw [refines.r, refines.w]
    exact before.rw
  · rw [refines.w]
    change s.w.toNat ≤ s'.e.toNat
    omega
  · have le : s.r ≤ s'.e := by
      change s.r.toNat ≤ s'.e.toNat
      omega
    rw [BitVec.toNat_sub_of_le before.rw] at room
    rw [refines.r, BitVec.toNat_sub_of_le le]
    omega

/-- What a key of a sequence finds: it edits, and an ordinary one neither commits nor is ignored. -/
def Edited (c : Console) (code : Nat) : Prop :=
  (Key.ofCode code).Edits ∧ code < 256 ∧
    ((Key.ofCode code).Ordinary → ¬ Fills c.input ∧ ¬ Full c.input)

/-- One key of a sequence. -/
theorem edited_step {code : Nat} (editing : Editing c.input) (edited : Edited c code)
    (unwrapped : c.input.e.toNat + 1 < 2 ^ 32) :
    editorOf (consoleintr beyond code c).input = (editorOf c.input).press (Key.ofCode code) ∧
      Editing (consoleintr beyond code c).input ∧
      (consoleintr beyond code c).input.e.toNat ≤ c.input.e.toNat + 1 := by
  obtain ⟨edits, small, free⟩ := edited
  have counts := editing.counts
  have we := counts.we
  have rw' := counts.rw
  have unread := counts.unread
  have total : (editorOf c.input).text.length = c.input.e.toNat - c.input.w.toNat := by
    change (lineText c.input).length = _
    rw [lineText_length, counts.edited]
  have line : c.input.e.toNat - c.input.w.toNat < 128 := by
    rw [← counts.edited]
    exact editing.line
  have room : c.input.e.toNat ≤ c.input.r.toNat + 128 := counts.room
  have longer := Editor.length_press (editorOf c.input) (Key.ofCode code)
  -- an ordinary key finds two free cells
  have space : (Key.ofCode code).Ordinary → c.input.e.toNat + 1 < c.input.r.toNat + 128 := by
    intro ordinary
    obtain ⟨notFills, notFull⟩ := free ordinary
    have differ : c.input.e - c.input.r ≠ 128 := notFull
    have differ' : c.input.e + 1 ≠ c.input.r + 128 := notFills
    bv_omega
  have refines : Refines c.input (consoleintr beyond code c).input
      ((editorOf c.input).press (Key.ofCode code)) := by
    by_cases ordinary : (Key.ofCode code).Ordinary
    · obtain ⟨code', key⟩ := ordinary.typed
      obtain ⟨notFills, notFull⟩ := free ordinary
      rw [key] at edits ⊢
      rw [consoleintr, key]
      exact (ordinary_refines beyond editing edits notFills notFull).2
    · exact key_refines beyond editing edits ordinary
  -- the new byte, if there is one, is neither a newline nor NUL
  have byte : ∀ b : Byte, b ∈ ((editorOf c.input).press (Key.ofCode code)).text →
      b ≠ newline ∧ b ≠ 0 := by
    intro b inside
    rcases Editor.mem_press inside with old | ⟨code', key, new⟩
    · exact ⟨ne_of_mem_of_not_mem old editing.newline, ne_of_mem_of_not_mem old editing.nul⟩
    · cases Key.ofCode_typed key
      rw [key] at edits
      obtain ⟨some, notEnter, -, -⟩ := edits
      have value : b.toNat = code := by
        rw [new, UInt8.toNat_ofNat', Nat.mod_eq_of_lt small]
      refine ⟨?_, ?_⟩
      · rintro rfl
        exact notEnter value.symm
      · rintro rfl
        exact some value.symm
  have short : ∃ k ≤ 1, c.input.w.toNat + ((editorOf c.input).press (Key.ofCode code)).text.length ≤
      c.input.e.toNat + k ∧ c.input.e.toNat + k < c.input.w.toNat + 128 ∧
        c.input.e.toNat + k ≤ c.input.r.toNat + 128 := by
    by_cases ordinary : (Key.ofCode code).Ordinary
    · have := space ordinary
      rw [if_pos ordinary] at longer
      exact ⟨1, by omega⟩
    · rw [if_neg ordinary] at longer
      exact ⟨0, by omega⟩
  obtain ⟨after, ended⟩ := refines.editing editing (by omega)
    (show _ < 128 by omega) (show _ ≤ 128 by omega)
    (fun inside => (byte _ inside).1 rfl) (fun inside => (byte _ inside).2 rfl)
  exact ⟨refines.editor, after, by omega⟩

/-- The console after a sequence of keys. -/
def pressAll (c : Console) (keys : List (Nat × Beyond)) : Console :=
  keys.foldl (fun c key => consoleintr key.2 key.1 c) c

/-- Every key of the sequence edits where it finds the console. -/
def AllEdited : Console → List (Nat × Beyond) → Prop
  | _, [] => True
  | c, key :: rest => Edited c key.1 ∧ AllEdited (consoleintr key.2 key.1 c) rest

/-- **A session of editing** is a run of the editor: after any sequence of keys that edit and do not
commit, the ring holds the text the editor has. -/
theorem line_editing_runs (keys : List (Nat × Beyond)) (editing : Editing c.input)
    (edited : AllEdited c keys) (unwrapped : c.input.e.toNat + keys.length < 2 ^ 32) :
    editorOf (pressAll c keys).input =
        keys.foldl (fun ed key => ed.press (Key.ofCode key.1)) (editorOf c.input) ∧
      Editing (pressAll c keys).input := by
  induction keys generalizing c with
  | nil => exact ⟨rfl, editing⟩
  | cons key rest ih =>
    rw [length_cons] at unwrapped
    obtain ⟨editor, after, bound⟩ := edited_step key.2 editing edited.1 (by omega)
    obtain ⟨editor', after'⟩ := ih after edited.2 (by omega)
    refine ⟨?_, after'⟩
    rw [editor] at editor'
    exact editor'

theorem line_editing_runs_acrossEnd :
    Editing (pressAll acrossEnd [(120, fun _ => 0), (8, fun _ => 0)]).input := by
  refine (line_editing_runs _ ?_ ?_ (by decide)).2
  · exact ⟨by decide, by decide, by decide, by decide, by decide, by decide, by decide⟩
  · exact ⟨⟨by decide, by decide, by decide⟩, ⟨by decide, by decide, by decide⟩, trivial⟩

end Runs

end Xv6.Cons
