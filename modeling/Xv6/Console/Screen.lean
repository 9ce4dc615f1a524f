/-
# Xv6.Console.Screen -- where the cursor of the display goes

The keys move the hardware cursor by steps relative to where it stands (`setpos(getpos() + d)`), and
whatever is printed moves the same register. This module runs the screen operations of
`Console.Keys` on the CGA registers and adds the bytes that processes and the kernel print.

The cursor is on the screen as long as the rest of the line, right of the edit cursor, would still
fit: `pos + shift` is where the line ends. `cursor_on_screen_runs` keeps that along runs in which

* Ctrl-A is pressed where the whole line lies left of the cursor (it goes back by the length of the
  line from wherever the edit cursor is);
* Ctrl-L is pressed on a line without newlines past its second byte (erasing stops at one, and the
  cursor is put right behind the prompt);
* a byte is printed where the rest of the line still fits behind it;

and the keys find what the delivery of lines relies on.
-/
import Xv6.Console.Cursor

namespace Xv6.Cons
open Lib List
set_option autoImplicit false

/-! ## The display -/

/-- The CGA. `left` and `strayed` are ghosts: whether `setpos` was ever given a position outside the
first 24 rows, and whether a store ever went outside the 25 rows of the buffer. -/
structure Display where
  /-- the cursor register of the CRT controller -/
  reg : BitVec 16
  crt : Int → BitVec 16
  /-- `panic` was called -/
  panicked : Bool
  left : Bool
  strayed : Bool

namespace Display

def getpos (d : Display) : Int := d.reg.toNat

/-- The register takes the low 16 bits. -/
def setpos (d : Display) (pos : Int) : Display :=
  { d with
    reg := BitVec.ofInt 16 pos
    left := d.left || decide (pos < 0 ∨ 24 * 80 ≤ pos) }

/-- Store `value` in the cells from `first` on, before `past`. -/
def store (d : Display) (first past : Int) (value : BitVec 16) : Display :=
  { d with
    crt := fun i => if first ≤ i ∧ i < past then value else d.crt i
    strayed := d.strayed || decide (first < past ∧ (first < 0 ∨ 25 * 80 < past)) }

/-- A byte, black on white. -/
def glyph (b : Byte) : BitVec 16 := BitVec.ofNat 16 b.toNat ||| 0x0700

def conserasechar (d : Display) (pos : Int) : Display := d.store pos (pos + 1) (glyph 32)

def conswritechar (d : Display) (pos : Int) (b : Byte) : Display := d.store pos (pos + 1) (glyph b)

/-- The part of `cgaputc` that depends on what is printed; `none` is `BACKSPACE`. -/
def place (d : Display) (c : Option Byte) : Display × Int :=
  let pos := d.getpos
  match c with
  | none => (d, if pos > 0 then pos - 1 else pos)
  | some b => if b = newline then (d, pos + (80 - pos % 80)) else (d.conswritechar pos b, pos + 1)

/-- One row up. -/
def scroll (d : Display) : Display :=
  { d with crt := fun i => if 0 ≤ i ∧ i < 23 * 80 then d.crt (i + 80) else d.crt i }

/-- The part of `cgaputc` behind its check. -/
def settle (d : Display) (pos : Int) : Display :=
  if pos / 80 ≥ 24 then
    let pos := pos - 80
    (((d.scroll).store pos (24 * 80) 0).setpos pos).conserasechar pos
  else
    (d.setpos pos).conserasechar pos

def cgaputc (d : Display) (c : Option Byte) : Display :=
  let (d, pos) := d.place c
  if pos < 0 ∨ pos > 25 * 80 then { d with panicked := true } else d.settle pos

def consclear (d : Display) : Display := d.store 0 (d.getpos + 1) (glyph 32)

def consnewcommand (d : Display) : Display := (d.conswritechar 0 36).setpos 2

/-- What one operation does. `getpos() + n` is unsigned, and an `int` again for `setpos`. The listing
of Ctrl-P is printed later, byte by byte. A machine that panicked prints no more. -/
def apply (d : Display) (op : ScreenOp) : Display :=
  if d.panicked then d
  else match op with
    | .putc b => d.cgaputc (some b)
    | .backspace => d.cgaputc none
    | .move n => d.setpos (d.reg.setWidth 32 + n).toInt
    | .clear => d.consclear
    | .prompt => d.consnewcommand
    | .procdump => d

end Display

/-- Where the cursor goes when a byte is printed. -/
def nextPos (b : Byte) (p : Nat) : Nat :=
  let pos := if b = newline then p + (80 - p % 80) else p + 1
  if pos < 24 * 80 then pos else 23 * 80

/-- The line is redrawn: to its end, back over `n` cells, text, and back to the edit cursor. -/
def redrawOps (s : Word) (n : Nat) (text : List Byte) : List ScreenOp :=
  [.move s] ++ replicate n .backspace ++ text.map .putc ++ [.move (-s)]

variable (b : Byte)

/-- It goes forward, or to the start of the last row of text. -/
theorem nextPos_far (p : Nat) : min (p + 1) (23 * 80) ≤ nextPos b p := by
  unfold nextPos
  by_cases line : b = newline
  · simp only [if_pos line]
    split <;> omega
  · simp only [if_neg line]
    split <;> omega

namespace Display

/-- Nothing has gone wrong, and the cursor is at `p`. -/
structure At (d : Display) (p : Nat) : Prop where
  reg : d.reg.toNat = p
  inside : p < 24 * 80
  panicked : d.panicked = false
  left : d.left = false
  strayed : d.strayed = false

namespace At

variable {d : Display} {p q : Nat}

theorem setpos (here : d.At p) (inside : q < 24 * 80) : (d.setpos q).At q := by
  refine ⟨?_, inside, here.panicked, ?_, here.strayed⟩
  · show (BitVec.ofInt 16 (q : Int)).toNat = q
    rw [BitVec.ofInt_natCast, BitVec.toNat_ofNat]
    omega
  · show (d.left || decide ((q : Int) < 0 ∨ 24 * 80 ≤ (q : Int))) = false
    rw [here.left, Bool.false_or, decide_eq_false_iff_not]
    omega

theorem store (here : d.At p) (first past : Int) (value : BitVec 16) (low : 0 ≤ first)
    (high : past ≤ 25 * 80) : (d.store first past value).At p := by
  refine ⟨here.reg, here.inside, here.panicked, here.left, ?_⟩
  show (d.strayed || decide (first < past ∧ (first < 0 ∨ 25 * 80 < past))) = false
  rw [here.strayed, Bool.false_or, decide_eq_false_iff_not]
  omega

theorem getpos (here : d.At p) : d.getpos = (p : Int) := congrArg Nat.cast here.reg

/-- From a position at most on the first cell of the last row, the text scrolls or the cursor is set
as it is. -/
theorem settle (here : d.At p) {pos : Nat} (low : pos ≤ 24 * 80) :
    (d.settle pos).At (if pos < 24 * 80 then pos else 23 * 80) := by
  unfold Display.settle
  by_cases last : pos = 24 * 80
  · subst last
    have scrolled : d.scroll.At p := ⟨here.reg, here.inside, here.panicked, here.left, here.strayed⟩
    have blank := scrolled.store (23 * 80) (24 * 80) 0 (by omega) (by omega)
    have set := blank.setpos (q := 23 * 80) (by omega)
    exact set.store _ _ _ (by omega) (by omega)
  · have row : ¬ ((pos : Int) / 80 ≥ 24) := by omega
    have set := here.setpos (q := pos) (by omega)
    rw [if_neg row, if_pos (by omega)]
    exact set.store _ _ _ (by omega) (by omega)

/-- What `cgaputc` does once the new position is known to be on the screen. -/
theorem cgaputc_of_place {c : Option Byte} {pos : Nat} (placed : (d.place c).2 = pos)
    (kept : (d.place c).1.At p) (low : pos ≤ 24 * 80) :
    (d.cgaputc c).At (if pos < 24 * 80 then pos else 23 * 80) := by
  have fine : ¬ ((pos : Int) < 0 ∨ (pos : Int) > 25 * 80) := by omega
  have shape : d.cgaputc c = if (d.place c).2 < 0 ∨ (d.place c).2 > 25 * 80 then
      { (d.place c).1 with panicked := true } else (d.place c).1.settle (d.place c).2 := rfl
  rw [shape, placed, if_neg fine]
  exact kept.settle low

theorem backspace (here : d.At p) : (d.apply .backspace).At (p - 1) := by
  have inside := here.inside
  have placed : (d.place none).2 = ((p - 1 : Nat) : Int) := by
    show (if d.getpos > 0 then d.getpos - 1 else d.getpos) = _
    rw [here.getpos]
    split <;> omega
  have moved := cgaputc_of_place placed here (by omega)
  rw [if_pos (by omega)] at moved
  rw [Display.apply, here.panicked]
  exact moved

theorem putc (here : d.At p) (b : Byte) : (d.apply (.putc b)).At (nextPos b p) := by
  have inside := here.inside
  have applied : d.apply (.putc b) = d.cgaputc (some b) := by
    rw [Display.apply, here.panicked]
    rfl
  rw [applied]
  by_cases line : b = newline
  · have placed : (d.place (some b)).2 = ((p + (80 - p % 80) : Nat) : Int) := by
      simp only [Display.place, if_pos line, here.getpos]
      omega
    have kept : (d.place (some b)).1.At p := by
      simp only [Display.place, if_pos line]
      exact here
    simpa only [nextPos, if_pos line] using cgaputc_of_place placed kept (by omega)
  · have placed : (d.place (some b)).2 = ((p + 1 : Nat) : Int) := by
      simp only [Display.place, if_neg line, here.getpos]
      omega
    have kept : (d.place (some b)).1.At p := by
      simp only [Display.place, if_neg line, here.getpos]
      exact here.store _ _ _ (by omega) (by omega)
    simpa only [nextPos, if_neg line] using cgaputc_of_place placed kept (by omega)

variable {n : Word}

section

variable (here : d.At p)
include here

theorem move (target : BitVec.ofNat 32 p + n = BitVec.ofNat 32 q) (inside : q < 24 * 80) :
    (d.apply (.move n)).At q := by
  have wide : d.reg.setWidth 32 = BitVec.ofNat 32 p := by
    rw [← here.reg, BitVec.ofNat_toNat]
  have pos : (d.reg.setWidth 32 + n).toInt = (q : Int) := by
    rw [wide, target, BitVec.toInt_eq_toNat_of_lt, BitVec.toNat_ofNat]
    · omega
    · rw [BitVec.toNat_ofNat]
      omega
  have applied : d.apply (.move n) = d.setpos (d.reg.setWidth 32 + n).toInt := by
    rw [Display.apply, here.panicked]
    rfl
  rw [applied, pos]
  exact here.setpos inside

theorem forward (inside : p + n.toNat < 24 * 80) : (d.apply (.move n)).At (p + n.toNat) := by
  refine here.move ?_ inside
  rw [BitVec.ofNat_add, BitVec.ofNat_toNat, BitVec.setWidth_eq]

theorem back (enough : n.toNat ≤ p) : (d.apply (.move (-n))).At (p - n.toNat) := by
  have inside := here.inside
  refine here.move ?_ (by omega)
  rw [← ofNat_sub_ofNat enough, BitVec.ofNat_toNat, BitVec.setWidth_eq, BitVec.sub_eq_add_neg]

theorem clear : (d.apply .clear).At p := by
  have inside := here.inside
  rw [Display.apply, here.panicked]
  refine here.store _ _ _ (by omega) ?_
  rw [here.getpos]
  omega

theorem prompt : (d.apply .prompt).At 2 := by
  rw [Display.apply, here.panicked]
  have written := here.store 0 (0 + 1) (Display.glyph 36) (by omega) (by omega)
  exact written.setpos (q := 2) (by omega)

theorem backspaces (n : Nat) :
    ((replicate n ScreenOp.backspace).foldl Display.apply d).At (p - n) := by
  induction n generalizing d p with
  | zero => exact here
  | succ n ih =>
    rw [replicate_succ, foldl_cons, Nat.sub_add_eq, Nat.sub_right_comm]
    exact ih here.backspace

theorem putcs (text : List Byte) :
    ∃ q, ((text.map ScreenOp.putc).foldl Display.apply d).At q ∧
      min (p + text.length) (23 * 80) ≤ q := by
  induction text generalizing d p with
  | nil => exact ⟨p, here, by simp⟩
  | cons b rest ih =>
    obtain ⟨q, all, farther⟩ := ih (here.putc b)
    have far := nextPos_far b p
    refine ⟨q, all, ?_⟩
    rw [length_cons]
    omega

theorem redraw {s : Word} (n : Nat) (text : List Byte) (fits : p + s.toNat < 24 * 80)
    (enough : s.toNat ≤ min (p + s.toNat - n + text.length) (23 * 80)) :
    ∃ q, min (p + s.toNat - n + text.length) (23 * 80) ≤ q ∧ q < 24 * 80 ∧
      ((redrawOps s n text).foldl Display.apply d).At (q - s.toNat) := by
  have ended := here.forward fits
  obtain ⟨q, printed, far⟩ := (ended.backspaces n).putcs text
  refine ⟨q, far, printed.inside, ?_⟩
  rw [redrawOps, foldl_append, foldl_append, foldl_append]
  exact printed.back (enough.trans far)

end

end At

end Display

/-! ## The console with its display -/

structure Shown where
  state : State
  display : Display

/-- A key or a reader of the console, or a byte that is printed: by `consolewrite`, by `cprintf`, or
as part of the listing of Ctrl-P. -/
inductive ShowEvent where
  | console (e : Event)
  | print (b : Byte)

/-- The record of screen operations, emptied before a key so that it holds the key's own. -/
def State.wiped (s : State) : State := { s with con := { s.con with screen := [] } }

def shown : System Shown ShowEvent where
  start := fun s => Start s.state ∧ ∃ p, s.display.At p
  next := fun s e =>
    if s.display.panicked then none
    else match e with
      | .console e =>
        (step s.state.wiped e).map fun state =>
          ⟨state, state.con.screen.foldl Display.apply s.display⟩
      | .print b => some ⟨s.state, s.display.apply (.putc b)⟩

/-- The rest of the line, right of the edit cursor, is on the screen, and the screen holds the whole
line. -/
structure Sits (s : Input) (d : Display) (p : Nat) : Prop where
  here : d.At p
  fits : p + s.shift.toNat < 24 * 80
  line : (s.e - s.w).toNat ≤ p + s.shift.toNat

/-- No newline in the line, but for its first two bytes. Erasing the line stops at a newline. -/
def Plain (s : Input) : Prop :=
  ∀ k < (s.e - s.w).toNat, 2 ≤ k → s.get (s.w + BitVec.ofNat 32 k) ≠ newline

instance (s : Input) : Decidable (Plain s) := inferInstanceAs (Decidable (∀ k < _, _))

/-- What a step relies on, beside what the delivery of lines does. -/
def ShowEvent.Room (s : Shown) : ShowEvent → Prop
  | .console (.key code _) =>
    (Key.ofCode code = .start →
      s.state.con.input.shift < s.state.con.input.e - s.state.con.input.w →
        (s.state.con.input.e - s.state.con.input.w).toNat ≤ s.display.reg.toNat) ∧
    (Key.ofCode code = .clear → Plain s.state.con.input)
  | .console _ => True
  | .print b => nextPos b s.display.reg.toNat + s.state.con.input.shift.toNat < 24 * 80

instance (s : Shown) : ∀ e, Decidable (ShowEvent.Room s e)
  | .console (.key _ _) => inferInstanceAs (Decidable ((_ → _ → _) ∧ (_ → _)))
  | .console (.read _ _ _) | .console (.resume _ _) => .isTrue trivial
  | .print _ => inferInstanceAs (Decidable (_ < _))

/-- The condition on a step. -/
def OnScreen (s : Shown) : ShowEvent → Prop
  | .console e => ShowEvent.Room s (.console e) ∧ Admitted s.state.wiped e
  | .print b => ShowEvent.Room s (.print b)

instance (s : Shown) : ∀ e, Decidable (OnScreen s e)
  | .console _ => inferInstanceAs (Decidable (_ ∧ _))
  | .print b => inferInstanceAs (Decidable (ShowEvent.Room s (.print b)))

/-! ## Keys -/

/-- The console sits on the display that its record of operations makes of `d`. -/
def Shows (d : Display) (c : Console) (p : Nat) : Prop := Sits c.input (c.screen.foldl Display.apply d) p

section Keys

variable {d : Display} {c : Console} {p : Nat}

theorem foldl_emit (ops : List ScreenOp) :
    (c.emit ops).screen.foldl Display.apply d =
      ops.foldl Display.apply (c.screen.foldl Display.apply d) := by
  rw [Console.emit, foldl_append]

/-- The cursor goes to the end of the line. -/
theorem Shows.toEnd (shows : Shows d c p) {c' : Console} (screen : c'.screen = (movpostoend c).screen)
    (line : c'.input.e - c'.input.w = c.input.e - c.input.w) (home : c'.input.shift = 0) :
    Shows d c' (p + c.input.shift.toNat) := by
  have moved := shows.here.forward shows.fits
  have zero : c'.input.shift.toNat = 0 := by rw [home]; rfl
  refine ⟨?_, ?_, ?_⟩
  · rw [screen]
    show ((c.emit [.move c.input.shift]).screen.foldl Display.apply d).At _
    rw [foldl_emit]
    exact moved
  · rw [zero]
    exact shows.fits
  · rw [zero, line]
    exact shows.line

theorem Shows.eraseLoop (n : Nat) (shows : Shows d c p) (home : c.input.shift = 0) :
    ∃ q, Shows d (eraseLoop n c) q ∧
      ((Cons.eraseLoop n c).input.e - (Cons.eraseLoop n c).input.w).toNat ≤
        (c.input.e - c.input.w).toNat := by
  induction n generalizing c p with
  | zero => exact ⟨p, shows, le_rfl⟩
  | succ n ih =>
    simp only [Cons.eraseLoop]
    split
    · have shorter : (c.input.e - 1 - c.input.w).toNat = (c.input.e - c.input.w).toNat - 1 ∧
          0 < (c.input.e - c.input.w).toNat := by
        constructor
        · bv_omega
        · bv_omega
      have fits := shows.fits
      have line := shows.line
      have erased : Shows d
          ({ c with input := { c.input with e := c.input.e - 1 } }.emit [.backspace]) (p - 1) := by
        refine ⟨?_, ?_, ?_⟩
        · rw [foldl_emit]
          exact shows.here.backspace
        · show p - 1 + c.input.shift.toNat < 24 * 80
          omega
        · show (c.input.e - 1 - c.input.w).toNat ≤ p - 1 + c.input.shift.toNat
          omega
      obtain ⟨q, all, short⟩ := ih erased home
      refine ⟨q, all, short.trans ?_⟩
      show (c.input.e - 1 - c.input.w).toNat ≤ _
      omega
    · exact ⟨p, shows, le_rfl⟩

/-- Erasing leaves at most the two bytes where a newline may stand. -/
theorem eraseLoop_short (n : Nat) (rounds : (c.input.e - c.input.w).toNat ≤ n)
    (plain : Plain c.input) :
    ((Cons.eraseLoop n c).input.e - (Cons.eraseLoop n c).input.w).toNat ≤ 2 := by
  induction n generalizing c with
  | zero => exact rounds.trans (Nat.zero_le _)
  | succ n ih =>
    simp only [Cons.eraseLoop]
    split
    · have shorter : (c.input.e - 1 - c.input.w).toNat + 1 = (c.input.e - c.input.w).toNat := by
        bv_omega
      refine ih (c := { c with input := { c.input with e := c.input.e - 1 } }.emit [.backspace])
        ?_ ?_
      · show (c.input.e - 1 - c.input.w).toNat ≤ n
        omega
      · intro k below
        have inside : k < (c.input.e - 1 - c.input.w).toNat := below
        exact plain k (by omega)
    · rename_i stops
      rw [not_and, not_not] at stops
      by_contra long
      have last : c.input.w + BitVec.ofNat 32 ((c.input.e - c.input.w).toNat - 1) = c.input.e - 1 := by
        bv_omega
      refine plain ((c.input.e - c.input.w).toNat - 1) (by omega) (by omega) ?_
      rw [last]
      exact stops (by bv_omega)

theorem conseraseline_short (plain : Plain c.input) :
    ((Cons.conseraseline c).input.e - (Cons.conseraseline c).input.w).toNat ≤ 2 :=
  eraseLoop_short _ le_rfl plain

theorem Shows.conseraseline (shows : Shows d c p) :
    ∃ q, Shows d (conseraseline c) q ∧
      ((Cons.conseraseline c).input.e - (Cons.conseraseline c).input.w).toNat ≤
        (c.input.e - c.input.w).toNat := by
  have ended : Shows d { movpostoend c with input := { c.input with shift := 0 } } _ :=
    shows.toEnd rfl rfl rfl
  exact ended.eraseLoop _ rfl

/-- Text is typed at the end of a line that has room on the screen. -/
theorem Shows.putEnds (text : List Byte) (shows : Shows d c p) (home : c.input.shift = 0)
    (short : (c.input.e - c.input.w).toNat + text.length ≤ 23 * 80) :
    ∃ q, Shows d (text.foldl putEnd c) q := by
  induction text generalizing c p with
  | nil => exact ⟨p, shows⟩
  | cons b rest ih =>
    have zero : c.input.shift.toNat = 0 := by rw [home]; rfl
    have line := shows.line
    have far := nextPos_far b p
    have longer : (c.input.e + 1 - c.input.w).toNat = (c.input.e - c.input.w).toNat + 1 := by
      bv_omega
    have typed : Shows d (putEnd c b) (nextPos b p) := by
      have printed := shows.here.putc b
      refine ⟨?_, ?_, ?_⟩
      · show ((_ : Console).emit _).screen.foldl Display.apply d |>.At _
        rw [foldl_emit]
        exact printed
      · show nextPos b p + c.input.shift.toNat < 24 * 80
        have := printed.inside
        omega
      · show (c.input.e + 1 - c.input.w).toNat ≤ nextPos b p + c.input.shift.toNat
        rw [length_cons] at short
        omega
    refine ih typed home ?_
    show (c.input.e + 1 - c.input.w).toNat + rest.length ≤ 23 * 80
    rw [length_cons] at short
    omega

theorem Shows.refill (s : Nat → Byte) (shows : Shows d c p)
    (short : (c.input.e - c.input.w).toNat ≤ INPUT_BUF) : ∃ q, Shows d (refill s c) q := by
  obtain ⟨q, erased, shorter⟩ := shows.conseraseline
  refine erased.putEnds (cstr s) (conseraseline_shift c) ?_
  have bound : (cstr s).length ≤ 128 := cstr_length s
  have old : (c.input.e - c.input.w).toNat ≤ 128 := short
  omega

theorem Shows.loads {c' : Console} (shows : Shows d c p) (loads : Loads c c')
    (short : (c.input.e - c.input.w).toNat ≤ INPUT_BUF) : ∃ q, Shows d c' q := by
  cases loads with
  | keep cmds => exact ⟨p, shows⟩
  | refill s cmds => exact Shows.refill s (c := { c with cmds := cmds }) shows short

/-- Backspace with the cursor inside the line. -/
theorem Shows.backspace (shows : Shows d c p) (room : c.input.shift < c.input.e - c.input.w)
    (short : (c.input.e - c.input.w).toNat ≤ INPUT_BUF) :
    ∃ q, Shows d (consshiftleft { c with input := c.input.inputshiftleft }) q := by
  obtain ⟨-, w, e, shift⟩ := inputshiftleft_indices c.input
  have fits := shows.fits
  have line := shows.line
  have small : (c.input.e - c.input.w).toNat ≤ 128 := short
  have below : c.input.shift.toNat < (c.input.e - c.input.w).toNat := room
  let s := c.input.inputshiftleft
  let text := (range s.shift.toNat).map fun k => s.get (s.e - (s.shift - BitVec.ofNat 32 k))
  have length : text.length = c.input.shift.toNat := by simp [text, s, shift]
  obtain ⟨q, far, inside, drawn⟩ := shows.here.redraw (s := c.input.shift)
    (c.input.shift.toNat + 1) text fits (by omega)
  refine ⟨q - c.input.shift.toNat, ?_, ?_, ?_⟩
  · rw [consshiftleft, foldl_emit]
    simpa only [shift, text, s, redrawOps, map_map, Function.comp_def] using drawn
  · show q - c.input.shift.toNat + c.input.inputshiftleft.shift.toNat < 24 * 80
    rw [shift]
    omega
  · show (c.input.inputshiftleft.e - c.input.inputshiftleft.w).toNat ≤
      q - c.input.shift.toNat + c.input.inputshiftleft.shift.toNat
    have shorter : (c.input.e - 1 - c.input.w).toNat = (c.input.e - c.input.w).toNat - 1 := by
      bv_omega
    rw [w, e, shift, shorter]
    omega

theorem inputputc_home (home : c.input.shift = 0) : inputputc b c = putEnd c b := by
  unfold Cons.inputputc
  rw [if_pos home]
  rfl

theorem inputputc_redraws (back : c.input.shift ≠ 0) :
    ∃ text, text.length = c.input.shift.toNat + 1 ∧
      (inputputc b c).screen = c.screen ++ redrawOps c.input.shift c.input.shift.toNat text := by
  have shift := (inputshiftright_passed c.input).shift
  let s := c.input.inputshiftright
  let s' := s.put (s.e - s.shift) b
  refine ⟨(range (s.shift.toNat + 1)).map fun k => s'.get (s'.e - (s'.shift - BitVec.ofNat 32 k)),
    by simp [s, shift], ?_⟩
  unfold Cons.inputputc
  rw [if_neg back]
  simp only [consshiftright, Console.emit, Input.put_shift, shift, redrawOps, s, s', map_map,
    Function.comp_def]

/-- A byte is typed at the edit cursor, which is inside the line. -/
theorem Shows.inputputc (shows : Shows d c p) (cursor : CursorInside c.input)
    (short : (c.input.e - c.input.w).toNat < INPUT_BUF) : ∃ q, Shows d (inputputc b c) q := by
  have fits := shows.fits
  have line := shows.line
  have small : (c.input.e - c.input.w).toNat < 128 := short
  have below : c.input.shift.toNat ≤ (c.input.e - c.input.w).toNat := cursor
  have longer : (c.input.e + 1 - c.input.w).toNat = (c.input.e - c.input.w).toNat + 1 := by
    bv_omega
  by_cases home : c.input.shift = 0
  · rw [inputputc_home b home]
    exact Shows.putEnds [b] shows home (by simp only [length_singleton]; omega)
  · obtain ⟨-, w, e, shift⟩ := inputputc_indices b c
    obtain ⟨text, length, screen⟩ := inputputc_redraws b home
    obtain ⟨q, far, inside, drawn⟩ := shows.here.redraw (s := c.input.shift) c.input.shift.toNat text
      fits (by omega)
    refine ⟨q - c.input.shift.toNat, ?_, ?_, ?_⟩
    · rw [screen, foldl_append]
      exact drawn
    · rw [shift]
      omega
    · rw [w, e, shift, longer]
      omega

/-- Committing empties the line. -/
theorem Shows.commit (code : Nat) (shows : Shows d c p) : Shows d (commit code c) p := by
  unfold Cons.commit
  split
  · refine ⟨shows.here, shows.fits, ?_⟩
    rw [BitVec.sub_self]
    exact Nat.zero_le _
  · exact shows

variable (beyond : Beyond)

/-- Enter on a line with text goes to its end first. -/
theorem Shows.entered (code : Nat) (shows : Shows d c p) :
    ∃ q, Shows d (entered beyond code c) q := by
  unfold Cons.entered
  split
  · exact ⟨_, shows.toEnd rfl rfl rfl⟩
  · exact ⟨p, shows⟩

variable {R W E : Nat}

theorem line_short (counts : c.input.Counts R W E) :
    (c.input.e - c.input.w).toNat ≤ INPUT_BUF := by
  have ordered := counts.rw
  have room := counts.room
  rw [counts.edited]
  omega

theorem Shows.typed (code : Nat) (shows : Shows d c p) (counts : c.input.Counts R W E)
    (ok : (Key.typed code).Ok beyond c) : ∃ q, Shows d (typed beyond code c) q := by
  unfold Cons.typed
  split
  · rename_i accepted
    have short : (c.input.e - c.input.w).toNat < INPUT_BUF := by
      have free : (c.input.e - c.input.r).toNat < INPUT_BUF := accepted.2
      have ordered := counts.rw
      rw [counts.used] at free
      rw [counts.edited]
      omega
    obtain ⟨q, homed⟩ := shows.entered beyond (if code = 13 then 10 else code)
    obtain ⟨-, w, e, -⟩ := entered_indices beyond (if code = 13 then 10 else code) c
    have cursor : CursorInside (Cons.entered beyond (if code = 13 then 10 else code) c).input := by
      refine entered_cursorInside beyond _ fun ordinary => ok accepted fun enter => ordinary ⟨?_, enter.2⟩
      rcases enter.1 with rfl | rfl
      · rfl
      · rfl
    obtain ⟨q', put⟩ := homed.inputputc (UInt8.ofNat (if code = 13 then 10 else code)) cursor (by
      rw [w, e]
      exact short)
    exact ⟨q', put.commit _⟩
  · exact ⟨p, shows⟩

/-- **A key keeps the cursor on the screen.** -/
theorem consoleintr_shows (code : Nat) (shows : Shows d c p) (counts : c.input.Counts R W E)
    (ok : (Key.ofCode code).Ok beyond c)
    (start : Key.ofCode code = .start → c.input.shift < c.input.e - c.input.w →
      (c.input.e - c.input.w).toNat ≤ p) (clear : Key.ofCode code = .clear → Plain c.input) :
    ∃ q, Shows d (consoleintr beyond code c) q := by
  have fits := shows.fits
  have line := shows.line
  by_cases loading : (Key.ofCode code).loads = true
  · exact shows.loads (consoleintr_loads beyond c loading) (line_short counts)
  unfold consoleintr
  cases key : Key.ofCode code <;> rw [key] at loading ok
  case delnums | up | down | tab => exact absurd rfl loading
  case procdump =>
      refine ⟨p, ?_, fits, line⟩
      rw [foldl_emit]
      show (Display.apply _ .procdump).At p
      rw [Display.apply, shows.here.panicked]
      exact shows.here
  case killLine =>
      obtain ⟨q, erased, -⟩ := shows.conseraseline
      exact ⟨q, erased⟩
  case clear =>
      obtain ⟨q, erased, -⟩ := shows.conseraseline
      refine ⟨2, ?_, ?_, ?_⟩
      · rw [foldl_emit]
        exact erased.here.clear.prompt
      · show 2 + (conseraseline c).input.shift.toNat < 24 * 80
        rw [conseraseline_shift]
        decide
      · exact (conseraseline_short (clear key)).trans (Nat.le_add_right _ _)
  case backspace =>
      simp only
      split
      · rename_i deletes
        have cursor : c.input.shift ≤ c.input.e - c.input.w := ok deletes
        exact shows.backspace (by bv_omega) (line_short counts)
      · exact ⟨p, shows⟩
  case left =>
      simp only
      split
      · rename_i room
        have below : c.input.shift.toNat < (c.input.e - c.input.w).toNat := room
        have next : (c.input.shift + 1).toNat = c.input.shift.toNat + 1 := by bv_omega
        refine ⟨p - 1, ?_, ?_, ?_⟩
        · rw [movpostoleft, foldl_emit]
          exact shows.here.back (n := 1) (by show 1 ≤ p; omega)
        · show p - 1 + (c.input.shift + 1).toNat < 24 * 80
          omega
        · show (c.input.e - c.input.w).toNat ≤ p - 1 + (c.input.shift + 1).toNat
          omega
      · exact ⟨p, shows⟩
  case right =>
      simp only
      split
      · have previous : (c.input.shift - 1).toNat + 1 = c.input.shift.toNat := by bv_omega
        refine ⟨p + 1, ?_, ?_, ?_⟩
        · rw [movpostoright, foldl_emit]
          exact shows.here.forward (n := 1) (by show p + 1 < 24 * 80; omega)
        · show p + 1 + (c.input.shift - 1).toNat < 24 * 80
          omega
        · show (c.input.e - c.input.w).toNat ≤ p + 1 + (c.input.shift - 1).toNat
          omega
      · exact ⟨p, shows⟩
  case start =>
      simp only
      split
      · rename_i room
        have enough := start key room
        refine ⟨p - (c.input.e - c.input.w).toNat, ?_, ?_, ?_⟩
        · show ((_ : Console).emit _).screen.foldl Display.apply d |>.At _
          rw [foldl_emit]
          exact shows.here.back enough
        · show p - (c.input.e - c.input.w).toNat + (c.input.e - c.input.w).toNat < 24 * 80
          omega
        · show (c.input.e - c.input.w).toNat ≤
            p - (c.input.e - c.input.w).toNat + (c.input.e - c.input.w).toNat
          omega
      · exact ⟨p, shows⟩
  case stop => exact ⟨_, shows.toEnd rfl rfl rfl⟩
  case typed code => exact shows.typed beyond code counts ok

end Keys

/-! ## Runs -/

/-- What holds along a run. -/
structure Shown.Inv (s : Shown) : Prop where
  ring : Cons.Inv s.state
  sits : ∃ p, Sits s.state.con.input s.display p

theorem wiped_inv {s : State} (inv : Inv s) : Inv s.wiped := ⟨inv.counts, inv.delivered⟩

variable {s : Shown}

theorem step_key_shown (inv : s.Inv) {code : Nat} {beyond : Beyond}
    (ok : OnScreen s (.console (.key code beyond))) :
    ∃ p, Sits (pressed s.state.wiped code beyond).con.input
      ((pressed s.state.wiped code beyond).con.screen.foldl Display.apply s.display) p := by
  obtain ⟨R, W, E, counts⟩ := inv.ring.counts
  obtain ⟨p, sits⟩ := inv.sits
  have shows : Shows s.display s.state.wiped.con p := sits
  obtain ⟨⟨start, clear⟩, admitted⟩ := ok
  refine consoleintr_shows beyond code shows counts admitted ?_ ?_
  · intro key inside
    rw [← sits.here.reg]
    exact start key inside
  · exact clear

theorem shown_step {s' : Shown} {e : ShowEvent} (inv : s.Inv) (ok : OnScreen s e)
    (stepped : shown.next s e = some s') : s'.Inv := by
  obtain ⟨p, sits⟩ := inv.sits
  have running : s.display.panicked = false := sits.here.panicked
  simp only [shown, running, Bool.false_eq_true, if_false] at stepped
  cases e with
  | print b =>
    cases stepped
    refine ⟨inv.ring, nextPos b p, sits.here.putc b, ?_, ?_⟩
    · rw [← sits.here.reg]
      exact ok
    · obtain ⟨R, W, E, counts⟩ := inv.ring.counts
      have short : (s.state.con.input.e - s.state.con.input.w).toNat ≤ 128 := line_short counts
      have line := sits.line
      have far := nextPos_far b p
      show (s.state.con.input.e - s.state.con.input.w).toNat ≤
        nextPos b p + s.state.con.input.shift.toNat
      omega
  | console e =>
    obtain ⟨state, moved, rfl⟩ := Option.map_eq_some_iff.mp stepped
    refine ⟨step_inv (wiped_inv inv.ring) ok.2 moved, ?_⟩
    -- a reader prints nothing and moves `r` only
    have reader : ∀ p' call killed,
        (∃ q, Sits (runCall s.state.wiped p' call killed).con.input
          ((runCall s.state.wiped p' call killed).con.screen.foldl Display.apply s.display) q) := by
      intro p' call killed
      obtain ⟨w, e, shift⟩ := readLoop_indices call.target call.n s.state.con.input call.dst []
      rw [runCall_con]
      refine ⟨p, sits.here, ?_, ?_⟩
      · show p + (readLoop _ _ s.state.con.input _ _).input.shift.toNat < 24 * 80
        rw [shift]
        exact sits.fits
      · show ((readLoop _ _ s.state.con.input _ _).input.e -
          (readLoop _ _ s.state.con.input _ _).input.w).toNat ≤
            p + (readLoop _ _ s.state.con.input _ _).input.shift.toNat
        rw [w, e, shift]
        exact sits.line
    cases e with
    | key code beyond =>
      cases moved
      exact step_key_shown inv ok
    | read p' n killed =>
      obtain ⟨-, ⟨⟩⟩ := Option.ite_none_right_eq_some.mp moved
      exact reader p' _ killed
    | resume p' killed =>
      obtain ⟨call, -, rfl⟩ := Option.map_eq_some_iff.mp moved
      exact reader p' call killed

theorem shown_inv (reached : shown.Reach OnScreen s) : s.Inv := by
  refine System.Reach.invariant ?_ ?_ reached
  · rintro s ⟨start, p, here⟩
    obtain ⟨r, w, e, shift, -, -, -, -, -, -, -, -, -, committed, consumed⟩ := start
    refine ⟨⟨⟨0, 0, 0, r, w, e, le_rfl, le_rfl, by decide⟩, ?_⟩, p, here, ?_, ?_⟩
    · simp [committed, consumed, unread, r, w]
    · rw [shift]
      exact here.inside
    · simp [e, w]
  · intro s e s' inv ok stepped
    exact shown_step inv ok stepped

/-- **The cursor stays on the screen.** In every state of a run whose steps find the room they rely
on, every position given to `setpos` was inside the first 24 rows, no store has gone outside the
buffer, and `cgaputc` has not panicked. -/
theorem cursor_on_screen_runs {s : Shown} (reached : shown.Reach OnScreen s) :
    s.display.left = false ∧ s.display.strayed = false ∧ s.display.panicked = false ∧
      s.display.getpos < 24 * 80 := by
  obtain ⟨p, sits⟩ := (shown_inv reached).sits
  refine ⟨sits.here.left, sits.here.strayed, sits.here.panicked, ?_⟩
  have inside := sits.here.inside
  rw [sits.here.getpos]
  omega

/-! ## Two runs from boot -/

def bootShown : Shown := ⟨boot, ⟨0, fun _ => 0, false, false, false⟩⟩

theorem bootShown_start : shown.start bootShown := ⟨boot_start, 0, rfl, by decide, rfl, rfl, rfl⟩

/-- `a`, `b`, back to the start; a process prints a byte; `c`. -/
def editing : List ShowEvent :=
  [.console (key 97), .console (key 98), .console (key 1), .print 33, .console (key 99)]

def afterEditing : Shown := (shown.run bootShown editing).getD bootShown

theorem cursor_on_screen_editing :
    afterEditing.display.getpos = 2 ∧ afterEditing.display.left = false ∧
      afterEditing.display.strayed = false := by
  have admitted : shown.Admits OnScreen bootShown editing := by decide +kernel
  have reached : shown.Reach OnScreen afterEditing := .run (.start bootShown_start) admitted rfl
  obtain ⟨left, strayed, -, -⟩ := cursor_on_screen_runs reached
  exact ⟨by decide +kernel, left, strayed⟩

/-- Ctrl-L, six bytes, three times left, Ctrl-A; then a process prints a byte. -/
def ctrlAFromInside : List ShowEvent :=
  [12, 97, 98, 99, 100, 101, 102, 2, 2, 2, 1].map (fun code => .console (key code)) ++ [.print 33]

def afterCtrlA : Shown := (shown.run bootShown ctrlAFromInside).getD bootShown

/-- Ctrl-A goes back six places from the third: one before the screen. The next byte is stored
outside of it, and the kernel panics. -/
theorem ctrlA_leaves_screen :
    shown.Reachable afterCtrlA ∧ afterCtrlA.display.left = true ∧
      afterCtrlA.display.strayed = true ∧ afterCtrlA.display.panicked = true := by
  refine ⟨System.reachable_of_run ctrlAFromInside bootShown_start rfl, ?_, ?_, ?_⟩
  · decide +kernel
  · decide +kernel
  · decide +kernel

end Xv6.Cons
