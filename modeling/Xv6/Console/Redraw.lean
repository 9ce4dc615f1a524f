/-
# Xv6.Console.Redraw -- the screen shows the line

From some cell on, the screen holds the text of the line, and a blank behind it; the hardware cursor
stands at the edit cursor. A key that edits prints its part of the line anew: to the end of the line,
back over what is behind the cursor, the new text, and back to the edit cursor. Every byte printed
blanks the cell the cursor goes to, and the byte that reaches the end of the last row moves the whole
screen up.

`redraw_shows_line`: after each such key the screen holds the new line in the same way, from the same
cell or, for each row the screen moved up, from a row above.
-/
import Xv6.Console.Screen
import Xv6.Console.Editor

namespace Xv6.Cons
open Lib List
set_option autoImplicit false

/-- The end of the line is typed anew: to its end, back over `n` cells, and text. -/
def retypeOps (s : Word) (n : Nat) (text : List Byte) : List ScreenOp :=
  (.move s :: replicate n .backspace) ++ text.map .putc

variable {n : Word}

namespace Display

/-! ## Rows that move up -/

/-- Whether `cgaputc` moves the screen up, by the position it has computed. -/
def rolls (pos : Int) : Nat := if 0 ≤ pos ∧ pos ≤ 25 * 80 ∧ pos / 80 ≥ 24 then 1 else 0

/-- How often an operation moves the screen up. -/
def scrolls (d : Display) (op : ScreenOp) : Nat :=
  if d.panicked then 0
  else match op with
    | .putc b => rolls (d.place (some b)).2
    | .backspace => rolls (d.place none).2
    | .move _ | .clear | .prompt | .procdump => 0

def scrollsAll (d : Display) : List ScreenOp → Nat
  | [] => 0
  | op :: rest => d.scrolls op + (d.apply op).scrollsAll rest

theorem scrollsAll_append (d : Display) (first second : List ScreenOp) :
    d.scrollsAll (first ++ second) =
      d.scrollsAll first + (first.foldl Display.apply d).scrollsAll second := by
  induction first generalizing d with
  | nil => simp [scrollsAll]
  | cons op rest ih => simp [scrollsAll, ih, Nat.add_assoc]

/-! ## What the screen holds -/

/-- The cells from `S` on hold the text, then a blank; the cursor stands `back` cells before that. -/
structure Holds (d : Display) (S : Nat) (text : List Byte) (back : Nat) : Prop where
  running : d.panicked = false
  cells : ∀ k b, text[k]? = some b → d.crt ((S + k : Nat) : Int) = glyph b
  blank : d.crt ((S + text.length : Nat) : Int) = glyph 32
  place : d.reg.toNat + back = S + text.length
  fits : S + text.length < 24 * 80

section Operations

variable {d : Display} {S back : Nat} {text : List Byte}

theorem setpos_reg (d : Display) {q : Nat} (small : q < 2 ^ 16) : (d.setpos q).reg.toNat = q := by
  exact Nat.mod_eq_of_lt small

/-- The cursor moves, and nothing else. -/
theorem Holds.move (holds : d.Holds S text back) {back' : Nat} (enough : back' ≤ S + text.length)
    (target : BitVec.ofNat 32 d.reg.toNat + n = BitVec.ofNat 32 (S + text.length - back')) :
    (d.apply (.move n)).Holds S text back' := by
  have fits := holds.fits
  have wide : d.reg.setWidth 32 = BitVec.ofNat 32 d.reg.toNat := by
    rw [BitVec.ofNat_toNat]
  have pos : (d.reg.setWidth 32 + n).toInt = ((S + text.length - back' : Nat) : Int) := by
    rw [wide, target, BitVec.toInt_eq_toNat_of_lt, BitVec.toNat_ofNat]
    · omega
    · rw [BitVec.toNat_ofNat]
      omega
  have applied : d.apply (.move n) = d.setpos (d.reg.setWidth 32 + n).toInt := by
    simp [Display.apply, holds.running]
  rw [applied, pos]
  refine ⟨holds.running, holds.cells, holds.blank, ?_, fits⟩
  rw [setpos_reg d (by omega)]
  omega

theorem Holds.toEnd (holds : d.Holds S text back) (all : n.toNat = back) :
    (d.apply (.move n)).Holds S text 0 := by
  have place := holds.place
  apply holds.move (Nat.zero_le _)
  rw [Nat.sub_zero, ← place, ← all, BitVec.ofNat_add]
  simp

theorem Holds.fromEnd (holds : d.Holds S text 0) (enough : n.toNat ≤ S + text.length) :
    (d.apply (.move (-n))).Holds S text n.toNat := by
  have place : d.reg.toNat = S + text.length := holds.place
  apply holds.move enough
  rw [place, ← ofNat_sub_ofNat enough, BitVec.ofNat_toNat, BitVec.setWidth_eq, BitVec.sub_eq_add_neg]

/-- Before the last row, the cursor goes to a cell and blanks it. -/
theorem settle_plain (d : Display) {q : Nat} (low : q < 24 * 80) :
    (d.settle q).panicked = d.panicked ∧ (d.settle q).reg.toNat = q ∧
      ∀ i : Nat, (d.settle q).crt i = if i = q then glyph 32 else d.crt i := by
  have row : ¬ ((q : Int) / 80 ≥ 24) := by omega
  simp only [settle, if_neg row]
  refine ⟨rfl, setpos_reg d (by omega), ?_⟩
  intro i
  simp only [conserasechar, store]
  by_cases here : i = q
  · rw [if_pos (by omega), if_pos here]
  · rw [if_neg (by omega), if_neg here]
    rfl

/-- At the last row, everything moves up a row first. -/
theorem settle_last (d : Display) :
    (d.settle (24 * 80)).panicked = d.panicked ∧ (d.settle (24 * 80)).reg.toNat = 23 * 80 ∧
      (d.settle (24 * 80)).crt (23 * 80) = glyph 32 ∧
      ∀ i : Nat, i < 23 * 80 → (d.settle (24 * 80)).crt i = d.crt ((i + 80 : Nat) : Int) := by
  have row : (24 * 80 : Int) / 80 ≥ 24 := by decide
  simp only [settle, if_pos row]
  refine ⟨rfl, ?_, ?_, ?_⟩
  · exact setpos_reg (d.scroll.store (24 * 80 - 80) (24 * 80) 0) (q := 23 * 80) (by decide)
  · simp [conserasechar, store]
  · intro i above
    simp only [conserasechar, store, setpos, scroll]
    rw [if_neg (by omega), if_neg (by omega), if_pos (by omega)]
    rfl

/-- The last byte of the text is wiped out. -/
theorem Holds.backspace {b : Byte} (holds : d.Holds S (text ++ [b]) 0) :
    (d.apply .backspace).Holds S text 0 ∧ d.scrolls .backspace = 0 := by
  have reg : d.reg.toNat = S + (text.length + 1) := by simpa using holds.place
  have fits : S + (text.length + 1) < 24 * 80 := by simpa using holds.fits
  have placed : d.place none = (d, ((S + text.length : Nat) : Int)) := by
    have pos : d.getpos = ((S + (text.length + 1) : Nat) : Int) := congrArg Nat.cast reg
    simp only [Display.place, pos]
    congr 1
    split <;> omega
  have fine : ¬ (((S + text.length : Nat) : Int) < 0 ∨ ((S + text.length : Nat) : Int) > 25 * 80) := by
    omega
  have applied : d.apply .backspace = d.settle ((S + text.length : Nat) : Int) := by
    simp only [Display.apply, holds.running, cgaputc, placed, if_neg fine]
    rfl
  obtain ⟨running, cursor, cells⟩ := settle_plain d (q := S + text.length) (by omega)
  refine ⟨?_, ?_⟩
  · rw [applied]
    refine ⟨running.trans holds.running, ?_, ?_, cursor, by omega⟩
    · intro k b' inside
      have bound := (List.getElem?_eq_some_iff.mp inside).1
      rw [cells, if_neg (by omega)]
      apply holds.cells
      rw [getElem?_append_left bound]
      exact inside
    · rw [cells, if_pos rfl]
  · simp only [scrolls, holds.running, placed, rolls]
    rw [if_neg (by simp), if_neg (by omega)]

/-- A byte is printed behind the text. -/
theorem Holds.putc {b : Byte} (holds : d.Holds S text 0) (plain : b ≠ newline)
    (high : S + text.length + 1 = 24 * 80 → 80 ≤ S) :
    ∃ S', (d.apply (.putc b)).Holds S' (text ++ [b]) 0 ∧ S' + 80 * d.scrolls (.putc b) = S ∧
      (S + text.length + 1 < 24 * 80 → S' = S) := by
  have reg : d.reg.toNat = S + text.length := holds.place
  have fits := holds.fits
  have pos : d.getpos = ((S + text.length : Nat) : Int) := congrArg Nat.cast reg
  let written := d.conswritechar ((S + text.length : Nat) : Int) b
  have placed : d.place (some b) = (written, ((S + text.length + 1 : Nat) : Int)) := by
    simp only [Display.place, if_neg plain, pos]
    rfl
  have fine : ¬ (((S + text.length + 1 : Nat) : Int) < 0 ∨
      ((S + text.length + 1 : Nat) : Int) > 25 * 80) := by omega
  have applied : d.apply (.putc b) = written.settle ((S + text.length + 1 : Nat) : Int) := by
    simp only [Display.apply, holds.running, cgaputc, placed, if_neg fine]
    rfl
  -- the text with the new byte, before the cursor is set
  have cells : ∀ k b', (text ++ [b])[k]? = some b' →
      written.crt ((S + k : Nat) : Int) = glyph b' := by
    intro k b' inside
    have bound : k < text.length + 1 := by
      simpa using (List.getElem?_eq_some_iff.mp inside).1
    simp only [written, conswritechar, store]
    by_cases last : k = text.length
    · subst last
      have same : b = b' := by simpa using inside
      rw [if_pos (by omega), same]
    · rw [if_neg (by omega)]
      apply holds.cells
      rw [getElem?_append_left (by omega)] at inside
      exact inside
  have count : d.scrolls (.putc b) = rolls ((S + text.length + 1 : Nat) : Int) := by
    rw [scrolls, if_neg (by simp [holds.running])]
    simp only [placed]
  have length : S + (text ++ [b]).length = S + text.length + 1 := by
    simp [Nat.add_assoc]
  rw [applied, count]
  by_cases room : S + text.length + 1 < 24 * 80
  · obtain ⟨running, cursor, after⟩ := settle_plain written (q := S + text.length + 1) room
    refine ⟨S, ⟨running.trans holds.running, ?_, ?_, ?_, ?_⟩, ?_, fun _ => rfl⟩
    · intro k b' inside
      have bound : k < text.length + 1 := by
        simpa using (List.getElem?_eq_some_iff.mp inside).1
      rw [after, if_neg (by omega)]
      exact cells k b' inside
    · rw [length, after, if_pos rfl]
    · rw [length]
      exact cursor
    · rw [length]
      exact room
    · rw [rolls, if_neg (by omega)]
      omega
  · have last : S + text.length + 1 = 24 * 80 := by omega
    obtain ⟨running, cursor, blank, after⟩ := settle_last written
    have low : S - 80 + (text ++ [b]).length = 23 * 80 := by omega
    rw [last]
    refine ⟨S - 80, ⟨running.trans holds.running, ?_, ?_, ?_, ?_⟩, ?_, ?_⟩
    · intro k b' inside
      have bound : k < text.length + 1 := by
        simpa using (List.getElem?_eq_some_iff.mp inside).1
      have moved := after (S - 80 + k) (by omega)
      have row : S - 80 + k + 80 = S + k := by omega
      rw [row] at moved
      exact moved.trans (cells k b' inside)
    · rw [low]
      exact blank
    · rw [low]
      exact cursor
    · rw [low]
      decide
    · have one : rolls ((24 * 80 : Nat) : Int) = 1 := by decide
      omega
    · intro below
      exact absurd below (Nat.lt_irrefl _)

variable (tail : List Byte)

/-- The tail of the text is wiped out. -/
theorem Holds.backspaces (holds : d.Holds S (text ++ tail) 0) :
    ((replicate tail.length ScreenOp.backspace).foldl Display.apply d).Holds S text 0 ∧
      d.scrollsAll (replicate tail.length ScreenOp.backspace) = 0 := by
  induction tail using reverseRecOn generalizing d with
  | nil =>
    rw [append_nil] at holds
    exact ⟨holds, rfl⟩
  | append_singleton init b ih =>
    rw [← append_assoc] at holds
    obtain ⟨shorter, still⟩ := holds.backspace
    obtain ⟨rest, still'⟩ := ih shorter
    rw [length_append, length_singleton, replicate_succ]
    refine ⟨rest, ?_⟩
    simp [scrollsAll, still, still']

variable (more : List Byte)

/-- Text is printed behind the text, as far as the last cell. -/
theorem Holds.putcs (holds : d.Holds S text 0) (plain : newline ∉ more)
    (room : S + text.length + more.length ≤ 24 * 80)
    (high : S + text.length + more.length = 24 * 80 → 80 ≤ S) :
    ∃ S', ((more.map ScreenOp.putc).foldl Display.apply d).Holds S' (text ++ more) 0 ∧
      S' + 80 * d.scrollsAll (more.map ScreenOp.putc) = S := by
  induction more generalizing d S text with
  | nil => exact ⟨S, by simpa using holds, by simp [scrollsAll]⟩
  | cons b rest ih =>
    rw [length_cons] at room high
    rw [mem_cons, not_or] at plain
    obtain ⟨S₁, first, count, same⟩ := holds.putc (Ne.symm plain.1) (by omega)
    have length : (text ++ [b]).length = text.length + 1 := by simp
    have within : S₁ + (text ++ [b]).length + rest.length ≤ 24 * 80 := by omega
    have high' : S₁ + (text ++ [b]).length + rest.length = 24 * 80 → 80 ≤ S₁ := by
      intro last
      -- a screen that has moved up has room for a row
      by_cases moved : S + text.length + 1 < 24 * 80
      · omega
      · omega
    obtain ⟨S', all, count'⟩ := ih first plain.2 within high'
    refine ⟨S', ?_, ?_⟩
    · rw [append_assoc] at all
      exact all
    · simp only [map_cons, scrollsAll]
      omega

/-- The end of the line is printed anew. -/
theorem Holds.retype (holds : d.Holds S (text ++ tail) back) (all : n.toNat = back)
    (plain : newline ∉ more) (room : S + text.length + more.length ≤ 24 * 80)
    (high : S + text.length + more.length = 24 * 80 → 80 ≤ S) :
    ∃ S', ((retypeOps n tail.length more).foldl Display.apply d).Holds S' (text ++ more) 0 ∧
      S' + 80 * d.scrollsAll (retypeOps n tail.length more) = S := by
  have ended := holds.toEnd all
  obtain ⟨wiped, still⟩ := ended.backspaces tail
  obtain ⟨S', printed, count⟩ := wiped.putcs more plain room high
  refine ⟨S', ?_, ?_⟩
  · rw [retypeOps, foldl_append]
    exact printed
  · rw [retypeOps, scrollsAll_append, scrollsAll, still]
    have zero : d.scrolls (.move n) = 0 := by simp [scrolls]
    rw [zero]
    simpa using count

/-- The same, and back to the edit cursor. -/
theorem Holds.redraw (holds : d.Holds S (text ++ tail) back) (all : n.toNat = back)
    (plain : newline ∉ more) (room : S + text.length + more.length ≤ 24 * 80)
    (high : S + text.length + more.length = 24 * 80 → 80 ≤ S)
    (enough : back ≤ text.length + more.length) :
    ∃ S', ((redrawOps n tail.length more).foldl Display.apply d).Holds S' (text ++ more) back ∧
      S' + 80 * d.scrollsAll (redrawOps n tail.length more) = S := by
  obtain ⟨S', printed, count⟩ := holds.retype tail more all plain room high
  have ops : redrawOps n tail.length more = retypeOps n tail.length more ++ [.move (-n)] := rfl
  have zero : ∀ d : Display, d.scrollsAll [.move (-n)] = 0 := by
    intro d
    simp [scrollsAll, scrolls]
  have length : (text ++ more).length = text.length + more.length := length_append
  have within : n.toNat ≤ S' + (text ++ more).length := by omega
  refine ⟨S', ?_, ?_⟩
  · rw [ops, foldl_append, ← all]
    exact printed.fromEnd within
  · rw [ops, scrollsAll_append, zero, Nat.add_zero]
    exact count

end Operations

end Display

/-! ## What a key prints -/

section Prints

variable {c : Console} {W E : Nat}

/-- The part of the line from counter `i` on, as the loops of `consshiftleft` and `consshiftright` read
it: by the distance from the end. -/
theorem tail_eq_window {s : Input} {n : Nat} (e : s.e = BitVec.ofNat 32 E)
    (short : s.shift.toNat ≤ E) (within : n ≤ s.shift.toNat + 1) :
    (range n).map (fun k => s.get (s.e - (s.shift - BitVec.ofNat 32 k))) =
      Ring.window INPUT_BUF s.buf (E - s.shift.toNat) n := by
  apply map_congr_left
  intro k inside
  have bound := mem_range.mp inside
  have shift : s.shift = BitVec.ofNat 32 s.shift.toNat := by simp
  have index : s.e - (s.shift - BitVec.ofNat 32 k) =
      BitVec.ofNat 32 (E - s.shift.toNat + k) := by
    have place : E - (s.shift.toNat - k) = E - s.shift.toNat + k := by omega
    rw [e, shift, ofNat_sub_ofNat (by omega), ofNat_sub_ofNat (by omega), ← shift, place]
  rw [index, Input.get_ofNat]

/-- An insertion prints the line from the new byte on. -/
theorem inputputc_screen (b : Byte) (spans : c.input.Spans W E) (space : E < W + INPUT_BUF)
    (cursor : c.input.shift.toNat ≤ E - W) (back : c.input.shift ≠ 0) :
    (inputputc b c).screen = c.screen ++ redrawOps c.input.shift c.input.shift.toNat
      ((lineText (inputputc b c).input).drop (E - W - c.input.shift.toNat)) := by
  have we := spans.we
  obtain ⟨after, -⟩ := inputputc_text b spans space cursor
  have pass := inputshiftright_passed c.input
  let s := c.input.inputshiftright.put
    (c.input.inputshiftright.e - c.input.inputshiftright.shift) b
  have e : s.e = BitVec.ofNat 32 E := pass.e.trans spans.e
  have shift : s.shift = c.input.shift := pass.shift
  have buf : (inputputc b c).input.buf = s.buf := by
    rw [inputputc_input, if_neg back]
  have line : (lineText (inputputc b c).input).drop (E - W - c.input.shift.toNat) =
      Ring.window INPUT_BUF s.buf (E - c.input.shift.toNat) (c.input.shift.toNat + 1) := by
    have parts : E + 1 - W = (E - W - c.input.shift.toNat) + (c.input.shift.toNat + 1) := by omega
    have start : W + (E - W - c.input.shift.toNat) = E - c.input.shift.toNat := by omega
    rw [after.text, parts, Ring.window_drop, start, buf]
  have printed := tail_eq_window e (by rw [shift]; omega) (le_refl (s.shift.toNat + 1))
  rw [shift] at printed
  rw [line, ← printed, redrawOps, map_map]
  unfold inputputc
  rw [if_neg back]
  simp only [consshiftright, Console.emit, Function.comp_def, s, Input.put_shift, pass.shift]

/-- A deletion prints the line from the place of the byte on. -/
theorem consshiftleft_screen (spans : c.input.Spans W E) (cursor : c.input.shift.toNat < E - W) :
    (consshiftleft { c with input := c.input.inputshiftleft }).screen =
      c.screen ++ redrawOps c.input.shift (c.input.shift.toNat + 1)
        ((lineText c.input.inputshiftleft).drop (E - W - c.input.shift.toNat - 1)) := by
  obtain ⟨after, -⟩ := inputshiftleft_text spans cursor
  obtain ⟨-, -, -, shift⟩ := inputshiftleft_indices c.input
  have line : (lineText c.input.inputshiftleft).drop (E - W - c.input.shift.toNat - 1) =
      Ring.window INPUT_BUF c.input.inputshiftleft.buf (E - 1 - c.input.shift.toNat)
        c.input.shift.toNat := by
    have parts : E - 1 - W = (E - W - c.input.shift.toNat - 1) + c.input.shift.toNat := by omega
    have start : W + (E - W - c.input.shift.toNat - 1) = E - 1 - c.input.shift.toNat := by omega
    rw [after.text, parts, Ring.window_drop, start]
  have printed := tail_eq_window after.e (by rw [shift]; omega)
    (Nat.le_succ c.input.inputshiftleft.shift.toNat)
  rw [shift] at printed
  rw [line, ← printed, redrawOps, map_map]
  simp only [consshiftleft, Console.emit, Function.comp_def, shift]

end Prints

/-! ## Keys -/

/-- The screen shows the line from cell `S` on: its text, a blank behind it, and the cursor at the edit
cursor. -/
structure Form (d : Display) (s : Input) (S : Nat) : Prop where
  plain : newline ∉ lineText s
  cursor : CursorInside s
  holds : d.Holds S (lineText s) s.shift.toNat

/-- The keys that print a part of the line anew or move the cursor in it. -/
def Key.Redraws : Key → Prop
  | .typed code => code ≠ 0 ∧ code ≠ 10 ∧ code ≠ 13 ∧ code ≠ 4
  | .backspace | .left | .right | .stop | .killLine | .delnums => True
  | .start | .clear | .procdump | .up | .down | .tab => False

instance : ∀ key : Key, Decidable key.Redraws
  | .typed _ => inferInstanceAs (Decidable (_ ∧ _))
  | .backspace | .left | .right | .stop | .killLine | .delnums => .isTrue trivial
  | .start | .clear | .procdump | .up | .down | .tab => .isFalse not_false

/-- The screen shows the line of `c'`, after the operations `c'` has recorded on `d`. -/
def Redrawn (d : Display) (c' : Console) (S : Nat) : Prop :=
  ∃ S', Form (c'.screen.foldl Display.apply d) c'.input S' ∧ S' + 80 * d.scrollsAll c'.screen = S

section OneKey

variable {d : Display} {c : Console} {S W E : Nat}

/-- A key that does nothing. -/
theorem Form.idle (form : Form d c.input S) (fresh : c.screen = []) : Redrawn d c S := by
  refine ⟨S, ?_, ?_⟩
  · rw [fresh]
    exact form
  · rw [fresh]
    rfl

theorem Form.length (form : Form d c.input S) (spans : c.input.Spans W E) :
    (lineText c.input).length = E - W ∧ c.input.shift.toNat ≤ E - W ∧
      d.reg.toNat + c.input.shift.toNat = S + (E - W) ∧ S + (E - W) < 24 * 80 := by
  have length : (lineText c.input).length = E - W := by
    rw [lineText_length, spans.length]
  have cursor : c.input.shift.toNat ≤ (c.input.e - c.input.w).toNat := form.cursor
  have place := form.holds.place
  have fits := form.holds.fits
  rw [spans.length] at cursor
  rw [length] at place fits
  exact ⟨length, cursor, place, fits⟩

/-- The cursor moves by `n`, and `shift` with it. -/
theorem Form.moved {shift : Word} {c' : Console} (form : Form d c.input S)
    (spans : c.input.Spans W E) (fresh : c.screen = [])
    (after : c' = { c with input := { c.input with shift := shift } }.emit [.move n])
    (inside : shift.toNat ≤ E - W)
    (target : BitVec.ofNat 32 d.reg.toNat + n = BitVec.ofNat 32 (S + (E - W) - shift.toNat)) :
    Redrawn d c' S := by
  obtain ⟨length, -, -, -⟩ := form.length spans
  subst after
  have screen : ({ c with input := { c.input with shift := shift } }.emit [.move n]).screen =
      [.move n] := by
    simp [Console.emit, fresh]
  refine ⟨S, ?_, ?_⟩
  · rw [screen]
    refine ⟨form.plain, ?_, ?_⟩
    · change shift.toNat ≤ (c.input.e - c.input.w).toNat
      rw [spans.length]
      exact inside
    · apply form.holds.move
      · change shift.toNat ≤ S + (lineText c.input).length
        omega
      · rw [length]
        exact target
  · rw [screen]
    simp [Display.scrollsAll, Display.scrolls]

/-- The line is erased, and another one typed that is not longer. -/
theorem Form.refilled (line : Nat → Byte) (form : Form d c.input S) (spans : c.input.Spans W E)
    (fresh : c.screen = []) (shorter : (cstr line).length ≤ E - W) (plain : newline ∉ cstr line) :
    Redrawn d (refill line c) S := by
  obtain ⟨length, -, -, fits⟩ := form.length spans
  obtain ⟨spans', text, screen⟩ := refill_text line spans form.plain
  have home := refill_shift line c
  have ops : (refill line c).screen =
      retypeOps c.input.shift (lineText c.input).length (cstr line) := by
    rw [screen, fresh, length]
    rfl
  have whole : d.Holds S ([] ++ lineText c.input) c.input.shift.toNat := form.holds
  obtain ⟨S', printed, count⟩ := whole.retype (lineText c.input) (cstr line) rfl plain
    (by simp only [length_nil]; omega) (by simp only [length_nil]; omega)
  refine ⟨S', ⟨?_, ?_, ?_⟩, ?_⟩
  · rw [text]
    exact plain
  · exact .of_zero home
  · rw [ops, text, home]
    exact printed
  · rw [ops]
    exact count

/-- A byte is inserted. -/
theorem Form.inserted (b : Byte) (form : Form d c.input S) (spans : c.input.Spans W E)
    (fresh : c.screen = []) (space : E < W + INPUT_BUF) (plain : b ≠ newline) :
    Redrawn d (inputputc b c) S := by
  obtain ⟨length, cursor, -, fits⟩ := form.length spans
  have space' : E < W + 128 := space
  obtain ⟨-, -, -, shift⟩ := inputputc_indices b c
  obtain ⟨after, text⟩ := inputputc_text b spans space cursor
  generalize place : E - W - c.input.shift.toNat = n at text
  have cut : ((lineText c.input).take n).length = n := by
    rw [length_take]
    omega
  have tail : ((lineText c.input).drop n).length = c.input.shift.toNat := by
    rw [length_drop]
    omega
  have behind : newline ∉ b :: (lineText c.input).drop n := by
    simp only [mem_cons, not_or]
    exact ⟨Ne.symm plain, fun inside => form.plain (mem_of_mem_drop inside)⟩
  have line : newline ∉ lineText (inputputc b c).input := by
    rw [text, mem_append, not_or]
    exact ⟨fun inside => form.plain (mem_of_mem_take inside), behind⟩
  have inside : CursorInside (inputputc b c).input := by
    change (inputputc b c).input.shift.toNat ≤ _
    rw [shift, after.length]
    omega
  have halves : d.Holds S ((lineText c.input).take n ++ (lineText c.input).drop n)
      c.input.shift.toNat := by
    rw [take_append_drop]
    exact form.holds
  -- the line starts in the last rows if the new byte takes the last cell
  have room : S + ((lineText c.input).take n).length +
      (b :: (lineText c.input).drop n).length ≤ 24 * 80 := by
    rw [length_cons]
    omega
  have high : S + ((lineText c.input).take n).length +
      (b :: (lineText c.input).drop n).length = 24 * 80 → 80 ≤ S := by
    rw [length_cons]
    omega
  by_cases home : c.input.shift = 0
  · -- at the end of the line only the byte is printed
    have zero : c.input.shift.toNat = 0 := by simp [home]
    have whole : (lineText c.input).drop n = [] := length_eq_zero_iff.mp (tail.trans zero)
    have screen : (inputputc b c).screen = [b].map .putc := by
      rw [inputputc_home b home]
      simp [putEnd, Console.emit, fresh]
    rw [whole] at room high text
    rw [whole, append_nil, zero] at halves
    obtain ⟨S', printed, count⟩ := halves.putcs [b] (by simpa using Ne.symm plain) room high
    refine ⟨S', ⟨line, inside, ?_⟩, ?_⟩
    · rw [screen, text, shift, zero]
      exact printed
    · rw [screen]
      exact count
  · have screen : (inputputc b c).screen =
        redrawOps c.input.shift ((lineText c.input).drop n).length
          (b :: (lineText c.input).drop n) := by
      have printed := inputputc_screen b spans space cursor home
      rw [fresh, nil_append, place, text, drop_left' cut] at printed
      rw [printed, tail]
    obtain ⟨S', printed, count⟩ := halves.redraw _ _ rfl behind room high
      (by rw [length_cons]; omega)
    refine ⟨S', ⟨line, inside, ?_⟩, ?_⟩
    · rw [screen, text, shift]
      exact printed
    · rw [screen]
      exact count

/-- The byte before the cursor is deleted. -/
theorem Form.deleted (form : Form d c.input S) (spans : c.input.Spans W E) (fresh : c.screen = [])
    (some : c.input.shift.toNat < E - W) :
    Redrawn d (consshiftleft { c with input := c.input.inputshiftleft }) S := by
  obtain ⟨length, -, -, fits⟩ := form.length spans
  obtain ⟨-, -, -, shift⟩ := inputshiftleft_indices c.input
  obtain ⟨after, text⟩ := inputshiftleft_text spans some
  obtain ⟨n, place⟩ : ∃ n, E - W - c.input.shift.toNat = n + 1 :=
    ⟨E - W - c.input.shift.toNat - 1, by omega⟩
  rw [place, Nat.add_sub_cancel] at text
  have cut : ((lineText c.input).take n).length = n := by
    rw [length_take]
    omega
  have tail : ((lineText c.input).drop n).length = c.input.shift.toNat + 1 := by
    rw [length_drop]
    omega
  have kept : ((lineText c.input).drop (n + 1)).length = c.input.shift.toNat := by
    rw [length_drop]
    omega
  have behind : newline ∉ (lineText c.input).drop (n + 1) :=
    fun inside => form.plain (mem_of_mem_drop inside)
  have line : newline ∉ lineText c.input.inputshiftleft := by
    rw [text, mem_append, not_or]
    exact ⟨fun inside => form.plain (mem_of_mem_take inside), behind⟩
  have screen : (consshiftleft { c with input := c.input.inputshiftleft }).screen =
      redrawOps c.input.shift ((lineText c.input).drop n).length
        ((lineText c.input).drop (n + 1)) := by
    rw [consshiftleft_screen spans some, fresh, nil_append, place, Nat.add_sub_cancel, text,
      drop_left' cut, tail]
  have halves : d.Holds S ((lineText c.input).take n ++ (lineText c.input).drop n)
      c.input.shift.toNat := by
    rw [take_append_drop]
    exact form.holds
  obtain ⟨S', printed, count⟩ := halves.redraw _ ((lineText c.input).drop (n + 1)) rfl behind
    (by omega) (by omega) (by omega)
  refine ⟨S', ⟨line, ?_, ?_⟩, ?_⟩
  · change c.input.inputshiftleft.shift.toNat ≤
      (c.input.inputshiftleft.e - c.input.inputshiftleft.w).toNat
    rw [shift, after.length]
    omega
  · rw [screen]
    change Display.Holds _ _ (lineText c.input.inputshiftleft) c.input.inputshiftleft.shift.toNat
    rw [text, shift]
    exact printed
  · rw [screen]
    exact count

end OneKey

/-- A key that edits the line leaves it shorter than the ring. -/
theorem redraw_short {c : Console} {W E : Nat} (beyond : Beyond) {code : Nat}
    (spans : c.input.Spans W E) (short : E - W < INPUT_BUF) (plain : newline ∉ lineText c.input)
    (cursor : CursorInside c.input) (redraws : (Key.ofCode code).Redraws)
    (stays : (Key.ofCode code).Ordinary → ¬ Fills c.input)
    (ordered : (c.input.w - c.input.r).toNat ≤ (c.input.e - c.input.r).toNat) :
    ((consoleintr beyond code c).input.e - (consoleintr beyond code c).input.w).toNat <
      INPUT_BUF := by
  have total := spans.length
  have bound : E - W < 128 := short
  have same : (c.input.e - c.input.w).toNat < INPUT_BUF := total ▸ short
  unfold consoleintr
  cases key : Key.ofCode code <;> rw [key] at redraws stays <;> simp only
  case killLine =>
      rw [conseraseline_plain spans plain]
      change (c.input.w - c.input.w).toNat < 128
      simp
  case backspace =>
      split
      · obtain ⟨-, w, e, -⟩ := inputshiftleft_indices c.input
        change (c.input.inputshiftleft.e - c.input.inputshiftleft.w).toNat < 128
        have inside : c.input.shift.toNat ≤ (c.input.e - c.input.w).toNat := cursor
        bv_omega
      · exact same
  case left | right =>
      split
      · exact same
      · exact same
  case stop => exact same
  case delnums =>
      obtain ⟨after, -, -⟩ := refill_text (delnumsLine c.input) spans plain
      have shorter := ((takeWhile_sublist (· ≠ (0 : Byte))).length_le.trans
        (length_filter_le (fun b => !isDigit b) (lineText c.input)))
      rw [← cstr_delnumsLine spans, lineText_length, total] at shorter
      change ((refill (delnumsLine c.input) c).input.e -
        (refill (delnumsLine c.input) c).input.w).toNat < 128
      rw [after.length]
      omega
  case typed code' =>
      cases Key.ofCode_typed key
      by_cases free : c.input.e - c.input.r < BitVec.ofNat 32 INPUT_BUF
      · have notFills : ¬ c.input.e + 1 = c.input.r + 128 := stays trivial
        have below : (c.input.e - c.input.r).toNat < 128 := free
        obtain ⟨-, w, e, -⟩ := inputputc_indices (UInt8.ofNat code) c
        rw [typed_inserts beyond redraws free (stays trivial), w, e]
        change (c.input.e + 1 - c.input.w).toNat < 128
        bv_omega
      · rw [typed, if_neg (by simp [free])]
        exact same
  all_goals exact redraws.elim

/-- **The screen shows the line.** A key that edits the line, or moves the cursor in it, leaves the
screen showing the new line as it showed the old one, from the same cell or, for every row the screen
moved up, from a row above. The line stays shorter than the ring where `r` is not past `w`. -/
theorem redraw_shows_line {d : Display} {c : Console} {S : Nat} (beyond : Beyond) {code : Nat}
    (form : Form d c.input S) (short : (c.input.e - c.input.w).toNat < INPUT_BUF)
    (fresh : c.screen = []) (byte : code < 256) (redraws : (Key.ofCode code).Redraws)
    (stays : (Key.ofCode code).Ordinary → ¬ Fills c.input) :
    Redrawn d (consoleintr beyond code c) S ∧
      ((c.input.w - c.input.r).toNat ≤ (c.input.e - c.input.r).toNat →
        ((consoleintr beyond code c).input.e - (consoleintr beyond code c).input.w).toNat <
          INPUT_BUF) := by
  have spans := Input.Spans.of_short short.le
  refine ⟨?_, redraw_short beyond spans (by rw [← spans.length]; exact short) form.plain
    form.cursor redraws stays⟩
  generalize W' : c.input.w.toNat = W at spans
  generalize E' : W + (c.input.e - c.input.w).toNat = E at spans
  obtain ⟨length, cursor, place, fits⟩ := form.length spans
  unfold consoleintr
  cases key : Key.ofCode code <;> rw [key] at redraws stays <;> simp only
  case killLine =>
      have empty : cstr (fun _ => 0) = [] := cstr_nul rfl
      have erased : refill (fun _ => 0) c = conseraseline c := by
        rfl
      rw [← erased]
      exact form.refilled _ spans fresh (by simp [empty]) (by simp [empty])
  case backspace =>
      split
      · apply form.deleted spans fresh
        bv_omega
      · exact form.idle fresh
  case left =>
      split
      · rename_i room
        have below : c.input.shift.toNat < (c.input.e - c.input.w).toNat := room
        have next : (c.input.shift + 1).toNat = c.input.shift.toNat + 1 := by bv_omega
        refine form.moved (n := -1) spans fresh rfl (by omega) ?_
        bv_omega
      · exact form.idle fresh
  case right =>
      split
      · have next : (c.input.shift - 1).toNat = c.input.shift.toNat - 1 := by bv_omega
        refine form.moved (n := 1) spans fresh rfl (by omega) ?_
        bv_omega
      · exact form.idle fresh
  case stop =>
      have target : BitVec.ofNat 32 d.reg.toNat + c.input.shift =
          BitVec.ofNat 32 (S + (E - W) - (0 : Word).toNat) := by
        have back : c.input.shift = BitVec.ofNat 32 c.input.shift.toNat := by simp
        rw [back, ofNat_add_ofNat, place]
        rfl
      exact form.moved spans fresh
        (show _ = { c with input := { c.input with shift := 0 } }.emit [.move c.input.shift] from rfl)
        (Nat.zero_le _) target
  case delnums =>
      have text := cstr_delnumsLine spans
      have part : ∀ b ∈ cstr (delnumsLine c.input), b ∈ lineText c.input := by
        intro b inside
        rw [text] at inside
        exact mem_of_mem_filter ((takeWhile_sublist _).mem inside)
      apply form.refilled _ spans fresh
      · rw [text, ← length]
        exact (takeWhile_sublist _).length_le.trans (length_filter_le _ _)
      · exact fun inside => form.plain (part _ inside)
  case typed code' =>
      cases Key.ofCode_typed key
      by_cases free : c.input.e - c.input.r < BitVec.ofNat 32 INPUT_BUF
      · rw [typed_inserts beyond redraws free (stays trivial)]
        apply form.inserted _ spans fresh
        · omega
        · intro same
          have value : (UInt8.ofNat code).toNat = code := by
            rw [UInt8.toNat_ofNat', Nat.mod_eq_of_lt byte]
          rw [same] at value
          exact redraws.2.1 value.symm
      · rw [typed, if_neg (by simp [free])]
        exact form.idle fresh
  all_goals exact redraws.elim

/-- `ab` with the cursor between the two bytes, in the last cells of the screen but one. -/
def lastCells : Display where
  reg := 1918
  crt := fun i => if i = 1917 then Display.glyph 97 else if i = 1918 then Display.glyph 98
    else Display.glyph 32
  panicked := false
  left := false
  strayed := false

def twoBytes : Console where
  input := { buf := fun j => if j = 0 then 97 else if j = 1 then 98 else 0
             r := 0, w := 0, e := 2, shift := 1 }
  cmds := boot.con.cmds
  screen := []

/-- Typing `x` there prints three bytes, and the screen moves up a row. -/
theorem redraw_shows_line_lastCells :
    Redrawn lastCells (consoleintr (fun _ => 0) 120 twoBytes) 1917 ∧
      lineText (consoleintr (fun _ => 0) 120 twoBytes).input = [97, 120, 98] ∧
      lastCells.scrollsAll (consoleintr (fun _ => 0) 120 twoBytes).screen = 1 := by
  have text : lineText twoBytes.input = [97, 98] := by decide
  have form : Form lastCells twoBytes.input 1917 := by
    refine ⟨by decide, by decide, rfl, ?_, by rw [text]; rfl, by rw [text]; rfl, by rw [text]; decide⟩
    intro k b inside
    rcases k with _ | _ | k
    · cases inside
      rfl
    · cases inside
      rfl
    · cases inside
  have shown := redraw_shows_line (fun _ => 0) form (by decide) rfl (by decide : 120 < 256)
    (by decide) (by decide)
  exact ⟨shown.1, by decide, by decide +kernel⟩

end Xv6.Cons
