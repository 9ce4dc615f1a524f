/-
# Xv6.Console.Keys -- console.c: the input ring, the command history and the keys

The line being typed lives in the ring between `w` and `e`, with the cursor `shift` places before
`e`; what is committed and not yet read lives between `r` and `w`. The history keeps the last ten
lines. Every key is one case of `consoleintr`.

What a key prints is recorded as a list of screen operations, in order, next to the state it
leaves: no key reads the screen back.

`storecmd`, `copycmd` and `getpred` index the ring without reducing modulo its size. What they read
past the end of `input.buf` is memory outside this component, and is a parameter here (`beyond`).
`storecmd`, `copycmd` and `delnums` store the whole line in an array of 128 bytes: stores past its end
are not modelled (`fill` and `delnumsLine` drop them), and runs are to keep lines that fit.
-/
import Xv6.Lib.Ring

namespace Xv6.Cons
open Lib List
set_option autoImplicit false

abbrev INPUT_BUF : Nat := 128
abbrev COMMAND_BUF : Nat := 10

abbrev Byte := UInt8

/-- `uint` -/
abbrev Word := BitVec 32

/-- What the console code does to the display. -/
inductive ScreenOp where
  | putc (b : Byte)
  | backspace
  /-- `setpos(getpos() + d)` -/
  | move (d : Word)
  /-- `consclear` -/
  | clear
  /-- `consnewcommand` -/
  | prompt
  /-- the listing of Ctrl-P -/
  | procdump
  deriving DecidableEq, Repr

/-- `struct input` -/
structure Input where
  buf : Nat → Byte
  r : Word
  w : Word
  e : Word
  shift : Word

/-- `struct cmds`. Its counters never go below zero. -/
structure Cmds where
  buf : Nat → Nat → Byte
  r : Nat
  w : Nat
  intab : Bool
  tmpcmd : Nat → Byte
  lastusedidx : Nat

structure Console where
  input : Input
  cmds : Cmds
  screen : List ScreenOp

/-- The memory past the end of `input.buf`, by the index that reaches it. -/
abbrev Beyond := Word → Byte

def newline : Byte := 10

/-- Ctrl-D -/
def eof : Byte := 4

namespace Input

/-- `input.buf[i % INPUT_BUF]` -/
def get (s : Input) (i : Word) : Byte := Ring.read INPUT_BUF s.buf i.toNat

@[simps r w e shift]
def put (s : Input) (i : Word) (b : Byte) : Input :=
  { s with buf := Ring.write INPUT_BUF s.buf i.toNat b }

/-- `input.buf[i]`, without reducing the index. -/
def raw (s : Input) (beyond : Beyond) (i : Word) : Byte :=
  if i.toNat < INPUT_BUF then s.buf i.toNat else beyond i

/-- The bytes the loop `for (int i = input.w; i < input.e; i++)` visits; the comparison is
unsigned. -/
def rawLine (s : Input) (beyond : Beyond) : List Byte :=
  (range (if s.w ≤ s.e then (s.e - s.w).toNat else 0)).map fun k =>
    s.raw beyond (s.w + BitVec.ofNat 32 k)

def inputshiftleft (s : Input) : Input :=
  -- `i` runs from `shift + 1` down to 2, as an `int`
  let steps := (range ((s.shift + 1).toInt - 1).toNat).map fun k =>
    s.shift + 1 - BitVec.ofNat 32 k
  let s := steps.foldl (fun s i => s.put (s.e - i) (s.get (s.e - i + 1))) s
  { s with e := s.e - 1 }

def inputshiftright (s : Input) : Input :=
  (range s.shift.toNat).foldl
    (fun s k => s.put (s.e - BitVec.ofNat 32 k) (s.get (s.e - BitVec.ofNat 32 k - 1))) s

end Input

/-! ## Moving and printing -/

def Console.emit (c : Console) (ops : List ScreenOp) : Console :=
  { c with screen := c.screen ++ ops }

def movpostoend (c : Console) : Console := c.emit [.move c.input.shift]

def movpostoleft (c : Console) : Console := c.emit [.move (-1)]

def movpostoright (c : Console) : Console := c.emit [.move 1]

def movpostostart (c : Console) : Console :=
  let c := { c with input := { c.input with shift := c.input.e - c.input.w } }
  c.emit [.move (-c.input.shift)]

/-- One round of the loops that load text: a byte into the ring at `e`, and onto the screen. -/
def putEnd (c : Console) (b : Byte) : Console :=
  { c with input := { c.input.put c.input.e b with e := c.input.e + 1 } }.emit [.putc b]

/-- The text of a `char` array of `INPUT_BUF` bytes: up to its first NUL. -/
def cstr (s : Nat → Byte) : List Byte :=
  ((range INPUT_BUF).map s).takeWhile (· ≠ 0)

def consputs (s : Nat → Byte) (c : Console) : Console := (cstr s).foldl putEnd c

/-- At most `n` rounds of the loop of `conseraseline`. -/
def eraseLoop : Nat → Console → Console
  | 0, c => c
  | n + 1, c =>
    if c.input.e ≠ c.input.w ∧ c.input.get (c.input.e - 1) ≠ newline then
      eraseLoop n ({ c with input := { c.input with e := c.input.e - 1 } }.emit [.backspace])
    else
      c

/-- Each round takes `e` one closer to `w`, so `e - w` rounds are enough. -/
def conseraseline (c : Console) : Console :=
  let c := movpostoend c
  let c := { c with input := { c.input with shift := 0 } }
  eraseLoop (c.input.e - c.input.w).toNat c

/-- Erase the line and type another one: the shape of `loadcmd`, `recovercmd`, `predcmd` and
`delnums`. -/
def refill (s : Nat → Byte) (c : Console) : Console := consputs s (conseraseline c)

def consshiftleft (c : Console) : Console :=
  let s := c.input
  c.emit ([.move s.shift] ++ replicate (s.shift.toNat + 1) .backspace ++
    (range s.shift.toNat).map (fun k => .putc (s.get (s.e - (s.shift - BitVec.ofNat 32 k)))) ++
    [.move (-s.shift)])

def consshiftright (c : Console) : Console :=
  let s := c.input
  c.emit ([.move s.shift] ++ replicate s.shift.toNat .backspace ++
    (range (s.shift.toNat + 1)).map
      (fun k => .putc (s.get (s.e - (s.shift - BitVec.ofNat 32 k)))) ++
    [.move (-s.shift)])

def inputputc (b : Byte) (c : Console) : Console :=
  let c :=
    if c.input.shift = 0 then
      { c with input := c.input.put c.input.e b }.emit [.putc b]
    else
      let s := c.input.inputshiftright
      consshiftright { c with input := s.put (s.e - s.shift) b }
  { c with input := { c.input with e := c.input.e + 1 } }

/-! ## Digits and history -/

def isDigit (b : Byte) : Bool := decide (48 ≤ b) && decide (b ≤ 57)

/-- The local array of `delnums`: the line without its digits, and a NUL. -/
def delnumsLine (s : Input) : Nat → Byte := fun j =>
  let kept := ((range (s.e - s.w).toNat).map fun k => s.get (s.w + BitVec.ofNat 32 k)).filter
    fun b => !isDigit b
  kept.getD j 0

def delnums (c : Console) : Console := refill (delnumsLine c.input) c

/-- A `char` array of `INPUT_BUF` bytes filled with `text` and then zeros; what lies past its end
is left alone. -/
def fill (text : List Byte) (old : Nat → Byte) : Nat → Byte := fun j =>
  if j < INPUT_BUF then text.getD j 0 else old j

def storecmd (beyond : Beyond) (c : Console) : Console :=
  -- `i` runs from `w - 1` down to 1
  let rows := (range (c.cmds.w - 1)).reverse.map (· + 1)
  let moved := rows.foldl (fun (buf : Nat → Nat → Byte) i => Function.update buf i fun j =>
    if j < INPUT_BUF then buf (i - 1) j else buf i j) c.cmds.buf
  { c with cmds := { c.cmds with
      buf := Function.update moved 0 (fill (c.input.rawLine beyond) (moved 0)) } }

def loadcmd (c : Console) : Console := refill (c.cmds.buf (c.cmds.r - 1)) c

def copycmd (beyond : Beyond) (c : Console) : Console :=
  { c with cmds := { c.cmds with tmpcmd := fill (c.input.rawLine beyond) c.cmds.tmpcmd } }

def recovercmd (c : Console) : Console := refill c.cmds.tmpcmd c

/-- `ispred(cmd, input.buf + input.w, input.e - input.w)` -/
def ispred (beyond : Beyond) (s : Input) (cmd : Nat → Byte) : Bool :=
  (range (s.e - s.w).toInt.toNat).all fun k =>
    cmd k == s.raw beyond (s.w + BitVec.ofNat 32 k)

/-- The first entry from `start` on that extends the line; `none` is the result -1. -/
def getpred (beyond : Beyond) (c : Console) (start : Nat) : Option Nat :=
  ((range c.cmds.w).drop start).find? fun i => ispred beyond c.input (c.cmds.buf i)

/-- The entry Tab goes to. -/
def predicted (beyond : Beyond) (c : Console) : Option Nat :=
  getpred beyond c (if c.cmds.intab then c.cmds.lastusedidx + 1 else 0)

def predcmd (beyond : Beyond) (c : Console) : Console :=
  let pred := predicted beyond c
  let c :=
    if c.cmds.intab then c
    else copycmd beyond { c with cmds := { c.cmds with lastusedidx := 0 } }
  match pred with
  | none => c
  | some i =>
    refill (c.cmds.buf i) { c with cmds := { c.cmds with intab := true, lastusedidx := i } }

def resetcmds (beyond : Beyond) (c : Console) : Console :=
  let c := { c with cmds := { c.cmds with
    intab := false
    tmpcmd := Function.update c.cmds.tmpcmd 0 0
    lastusedidx := 0
    w := if c.cmds.w + 1 > COMMAND_BUF then COMMAND_BUF else c.cmds.w + 1 } }
  let c := storecmd beyond c
  movpostoend { c with cmds := { c.cmds with r := 0 } }

/-! ## The keys -/

/-- The cases of `consoleintr`'s switch. -/
inductive Key where
  | procdump | killLine | backspace | clear | left | right | delnums | start | stop | up | down | tab
  /-- every other code -/
  | typed (code : Nat)
  deriving DecidableEq, Repr

def Key.ofCode : Nat → Key
  | 16 => .procdump
  | 21 => .killLine
  | 8 | 127 => .backspace
  | 12 => .clear
  | 2 => .left
  | 6 => .right
  | 14 => .delnums
  | 1 => .start
  | 5 => .stop
  | 226 => .up
  | 227 => .down
  | 9 => .tab
  | code => .typed code

/-- Enter on a line with text stores it in the history and takes the cursor to its end. -/
def entered (beyond : Beyond) (code : Nat) (c : Console) : Console :=
  if code = 10 ∧ c.input.e - c.input.w > 0 then
    let c := resetcmds beyond c
    { c with input := { c.input with shift := 0 } }
  else
    c

/-- Enter, Ctrl-D and the last free cell commit the line. -/
def commit (code : Nat) (c : Console) : Console :=
  if code = 10 ∨ code = 4 ∨ c.input.e = c.input.r + BitVec.ofNat 32 INPUT_BUF then
    { c with input := { c.input with w := c.input.e } }
  else
    c

/-- The default case: an ordinary key, Enter (both codes) or Ctrl-D. The parameter of `inputputc`
is a `char`. -/
def typed (beyond : Beyond) (code : Nat) (c : Console) : Console :=
  if code ≠ 0 ∧ c.input.e - c.input.r < BitVec.ofNat 32 INPUT_BUF then
    let code := if code = 13 then 10 else code
    commit code (inputputc (UInt8.ofNat code) (entered beyond code c))
  else
    c

/-- One round of `consoleintr`'s loop: `getc` returned `code`. -/
def consoleintr (beyond : Beyond) (code : Nat) (c : Console) : Console :=
  match Key.ofCode code with
  | .procdump => c.emit [.procdump]
  | .killLine => conseraseline c
  | .backspace =>
    if c.input.e - c.input.shift > c.input.w then
      consshiftleft { c with input := c.input.inputshiftleft }
    else
      c
  | .clear => (conseraseline c).emit [.clear, .prompt]
  | .left =>
    if c.input.shift < c.input.e - c.input.w then
      movpostoleft { c with input := { c.input with shift := c.input.shift + 1 } }
    else
      c
  | .right =>
    if c.input.shift > 0 then
      movpostoright { c with input := { c.input with shift := c.input.shift - 1 } }
    else
      c
  | .delnums => delnums c
  | .start =>
    if c.input.shift < c.input.e - c.input.w then
      let c := movpostostart c
      { c with input := { c.input with shift := c.input.e - c.input.w } }
    else
      c
  | .stop =>
    let c := movpostoend c
    { c with input := { c.input with shift := 0 } }
  | .up =>
    let c := if c.cmds.r = 0 then copycmd beyond c else c
    if c.cmds.r + 1 > c.cmds.w then
      { c with cmds := { c.cmds with r := c.cmds.w } }
    else
      loadcmd { c with cmds := { c.cmds with r := c.cmds.r + 1 } }
  | .down =>
    -- `r--` at zero is undone by the branch it leads to
    if c.cmds.r - 1 > 0 then
      loadcmd { c with cmds := { c.cmds with r := c.cmds.r - 1 } }
    else
      recovercmd { c with cmds := { c.cmds with r := 0 } }
  | .tab => predcmd beyond c
  | .typed code => typed beyond code c

end Xv6.Cons
