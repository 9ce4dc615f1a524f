/-
# Xv6.Console.Delivery -- what is committed is what is read

Keys and readers share the input ring. This module adds `consoleread` to the keys, as calls that
may sleep and be resumed in any order, and two ghost logs: the bytes committed and the bytes taken
by readers.

Keys keep the committed region as long as two things hold of each key. A key that edits at the
cursor finds the cursor inside the line: a commit by Ctrl-D, or by the ring filling up, leaves
`shift` as it was while the line becomes empty. And a key that loads a whole line (history, Tab,
Ctrl-N) finds room for it: only the default case of `consoleintr` checks. Under that condition the
ring is a queue: what readers have taken, followed by what is committed and unread, is what was
committed.
-/
import Xv6.Lib.Transition
import Xv6.Console.Keys

namespace Xv6.Cons
open Lib List
set_option autoImplicit false

/-! ## Readers -/

/-- A `consoleread` under way: the count asked for, the count still missing, the bytes stored. -/
structure Call where
  target : Nat
  n : Nat
  dst : List Byte
  deriving DecidableEq, Repr

/-- How a run of the loop of `consoleread` ends. -/
inductive Stop where
  /-- the call returns `target - n` -/
  | returns
  /-- `input.r == input.w`: the process sleeps on `input.r`, or returns -1 if it was killed -/
  | sleeps
  deriving DecidableEq, Repr

/-- What a run of the loop leaves: the ring, the call, the bytes taken out of the ring. -/
structure Reading where
  input : Input
  call : Call
  took : List Byte
  stop : Stop

/-- The loop of `consoleread`, until the call returns or sleeps. -/
def readLoop (target : Nat) : Nat → Input → List Byte → List Byte → Reading
  | 0, s, dst, took => ⟨s, ⟨target, 0, dst⟩, took, .returns⟩
  | n + 1, s, dst, took =>
    if s.r = s.w then
      ⟨s, ⟨target, n + 1, dst⟩, took, .sleeps⟩
    else
      let b := s.get s.r
      let next := { s with r := s.r + 1 }
      if b = eof then
        if n + 1 < target then
          -- the mark is put back for the next call
          ⟨{ next with r := next.r - 1 }, ⟨target, n + 1, dst⟩, took, .returns⟩
        else
          ⟨next, ⟨target, n + 1, dst⟩, took ++ [b], .returns⟩
      else if b = newline then
        ⟨next, ⟨target, n, dst ++ [b]⟩, took ++ [b], .returns⟩
      else
        readLoop target n next (dst ++ [b]) (took ++ [b])

/-! ## The system -/

structure State where
  con : Console
  /-- the calls that sleep, by process -/
  readers : Nat → Option Call
  /-- what calls returned, in order: the bytes, or nothing for a killed process -/
  returned : List (Nat × Option (List Byte))
  /-- ghost: the bytes committed -/
  committed : List Byte
  /-- ghost: the bytes taken by readers -/
  consumed : List Byte

inductive Event where
  /-- a key, and the memory it may read past the end of the ring -/
  | key (code : Nat) (beyond : Beyond)
  /-- a process calls `consoleread`; a negative count reads like zero -/
  | read (p n : Nat) (killed : Bool)
  /-- a sleeping call goes on -/
  | resume (p : Nat) (killed : Bool)

def runCall (s : State) (p : Nat) (call : Call) (killed : Bool) : State :=
  let run := readLoop call.target call.n s.con.input call.dst []
  let s := { s with
    con := { s.con with input := run.input }
    consumed := s.consumed ++ run.took }
  match run.stop with
  | .returns =>
    { s with
      readers := Function.update s.readers p none
      returned := s.returned ++ [(p, some run.call.dst)] }
  | .sleeps =>
    if killed then
      { s with
        readers := Function.update s.readers p none
        returned := s.returned ++ [(p, none)] }
    else
      { s with readers := Function.update s.readers p (some run.call) }

def pressed (s : State) (code : Nat) (beyond : Beyond) : State :=
  let con := consoleintr beyond code s.con
  -- `w` moves exactly when a line is committed
  { s with
    con := con
    committed := s.committed ++ Ring.window INPUT_BUF con.input.buf s.con.input.w.toNat
      (con.input.w - s.con.input.w).toNat }

def step (s : State) : Event → Option State
  | .key code beyond => some (pressed s code beyond)
  | .read p n killed =>
    if s.readers p = none then some (runCall s p ⟨n, n, []⟩ killed) else none
  | .resume p killed => (s.readers p).map fun call => runCall s p call killed

/-- The input buffer and the history are empty; the indices of the buffer are equal. -/
def Start (s : State) : Prop :=
  s.con.input.r = 0 ∧ s.con.input.w = 0 ∧ s.con.input.e = 0 ∧ s.con.input.shift = 0 ∧
    s.con.cmds.r = 0 ∧ s.con.cmds.w = 0 ∧ s.con.cmds.intab = false ∧
    s.con.cmds.lastusedidx = 0 ∧ (∀ i j, s.con.cmds.buf i j = 0) ∧
    (∀ j, s.con.cmds.tmpcmd j = 0) ∧ (∀ j, s.con.input.buf j = 0) ∧
    (∀ p, s.readers p = none) ∧ s.returned = [] ∧ s.committed = [] ∧ s.consumed = []

def system : System State Event where
  start := Start
  next := step

/-! ## Unbounded counters behind the indices -/

section Words

variable {A B : Nat}

theorem ofNat_sub_ofNat (le : A ≤ B) :
    BitVec.ofNat 32 B - BitVec.ofNat 32 A = BitVec.ofNat 32 (B - A) := by
  apply BitVec.eq_of_toNat_eq
  simp only [BitVec.toNat_sub, BitVec.toNat_ofNat]
  omega

theorem ofNat_add_ofNat : BitVec.ofNat 32 A + BitVec.ofNat 32 B = BitVec.ofNat 32 (A + B) := by
  simp [BitVec.ofNat_add]

theorem ofNat_succ : BitVec.ofNat 32 A + 1 = BitVec.ofNat 32 (A + 1) := ofNat_add_ofNat

theorem ofNat_pred (pos : 0 < A) : BitVec.ofNat 32 A - 1 = BitVec.ofNat 32 (A - 1) :=
  ofNat_sub_ofNat pos

theorem toNat_sub_ofNat (le : A ≤ B) (near : B - A < 2 ^ 32) :
    (BitVec.ofNat 32 B - BitVec.ofNat 32 A).toNat = B - A := by
  rw [ofNat_sub_ofNat le, BitVec.toNat_ofNat, Nat.mod_eq_of_lt near]

theorem slot_ofNat (i : Nat) : (BitVec.ofNat 32 i).toNat % INPUT_BUF = i % INPUT_BUF :=
  Ring.wrapped_mod (by decide) i

end Words

variable {E' R W E : Nat} {s : Input}

namespace Input

variable {s s' s'' : Input} {R W E : Nat}

theorem get_ofNat (s : Input) (i : Nat) :
    s.get (BitVec.ofNat 32 i) = Ring.read INPUT_BUF s.buf i := by
  simp only [get, Ring.read, slot_ofNat]

theorem put_ofNat (s : Input) (i : Nat) (b : Byte) :
    s.put (BitVec.ofNat 32 i) b = { s with buf := Ring.write INPUT_BUF s.buf i b } := by
  simp only [put, Ring.write, slot_ofNat]

/-- The three indices are the counters `R`, `W` and `E`, wrapped, and the counters are in order
and at most a ring apart. -/
structure Counts (s : Input) (R W E : Nat) : Prop where
  r : s.r = BitVec.ofNat 32 R
  w : s.w = BitVec.ofNat 32 W
  e : s.e = BitVec.ofNat 32 E
  rw : R ≤ W
  we : W ≤ E
  room : E ≤ R + INPUT_BUF

namespace Counts

variable (counts : Counts s R W E)
include counts

theorem unread : (s.w - s.r).toNat = W - R := by
  have := counts.we
  have room : E ≤ R + 128 := counts.room
  rw [counts.w, counts.r, toNat_sub_ofNat counts.rw (by omega)]

theorem edited : (s.e - s.w).toNat = E - W := by
  have := counts.rw
  have room : E ≤ R + 128 := counts.room
  rw [counts.e, counts.w, toNat_sub_ofNat counts.we (by omega)]

theorem used : (s.e - s.r).toNat = E - R := by
  have := counts.rw
  have := counts.we
  have room : E ≤ R + 128 := counts.room
  rw [counts.e, counts.r, toNat_sub_ofNat (by omega) (by omega)]

end Counts

/-- `s'` has the committed region of `s`. -/
structure Keeps (R W : Nat) (s s' : Input) : Prop where
  r : s'.r = s.r
  w : s'.w = s.w
  bytes : ∀ k, R ≤ k → k < W → Ring.read INPUT_BUF s'.buf k = Ring.read INPUT_BUF s.buf k

theorem Keeps.rfl : Keeps R W s s := ⟨Eq.refl _, Eq.refl _, fun _ _ _ => Eq.refl _⟩

theorem Keeps.trans (first : Keeps R W s s') (second : Keeps R W s' s'') : Keeps R W s s'' where
  r := second.r.trans first.r
  w := second.w.trans first.w
  bytes k above below := (second.bytes k above below).trans (first.bytes k above below)

/-- An edit of the line: the committed region stays, and the line ends at counter `E`. -/
structure Edit (R W : Nat) (s s' : Input) (E : Nat) : Prop where
  keeps : Keeps R W s s'
  counts : Counts s' R W E

theorem Edit.trans (first : Edit R W s s' E) (second : Edit R W s' s'' E') : Edit R W s s'' E' :=
  ⟨first.keeps.trans second.keeps, second.counts⟩

section

variable (counts : Counts s R W E)
include counts

/-- Only `buf`, and only at counters from `W` on, and `e` have changed. -/
theorem Counts.edit (r : s'.r = s.r) (w : s'.w = s.w) (e : s'.e = BitVec.ofNat 32 E') (we : W ≤ E')
    (room : E' ≤ R + INPUT_BUF)
    (bytes : ∀ k, R ≤ k → k < W → Ring.read INPUT_BUF s'.buf k = Ring.read INPUT_BUF s.buf k) :
    Edit R W s s' E' :=
  ⟨⟨r, w, bytes⟩, r.trans counts.r, w.trans counts.w, e, counts.rw, we, room⟩

/-- A byte stored inside the line, or at its end. -/
theorem Counts.put {i : Nat} (above : W ≤ i) (below : i < R + INPUT_BUF) (b : Byte) :
    Edit R W s (s.put (BitVec.ofNat 32 i) b) E := by
  rw [put_ofNat]
  refine counts.edit (Eq.refl _) (Eq.refl _) counts.e counts.we counts.room fun k _ inside => ?_
  exact Ring.read_write_above _ _ (by omega) (by omega)

/-- The line takes one more cell in. -/
theorem Counts.lengthen (space : E < R + INPUT_BUF) :
    Edit R W s { s with e := s.e + 1 } (E + 1) := by
  have := counts.we
  refine counts.edit (Eq.refl _) (Eq.refl _) ?_ (by omega) space fun _ _ _ => Eq.refl _
  rw [counts.e, ofNat_succ]

theorem Counts.append (space : E < R + INPUT_BUF) (b : Byte) :
    Edit R W s { s.put s.e b with e := s.e + 1 } (E + 1) := by
  have stored := counts.put counts.we space b
  rw [← counts.e] at stored
  exact stored.trans (stored.counts.lengthen space)

/-- The last byte of the line goes. -/
theorem Counts.shorten (nonempty : W < E) : Edit R W s { s with e := s.e - 1 } (E - 1) := by
  have := counts.room
  refine counts.edit (Eq.refl _) (Eq.refl _) ?_ (by omega) (by omega) fun _ _ _ => Eq.refl _
  rw [counts.e, ofNat_pred (by omega)]

/-- The cursor moves. -/
theorem Counts.shifted (shift : Word) : Edit R W s { s with shift := shift } E :=
  counts.edit (Eq.refl _) (Eq.refl _) counts.e counts.we counts.room fun _ _ _ => Eq.refl _

end

/-- A pass that copies cell `S x` to cell `T x` for each step in turn. -/
def copies {σ : Type} (T S : σ → Nat) (steps : List σ) (buf : Nat → Byte) : Nat → Byte :=
  steps.foldl (fun b x => Ring.write INPUT_BUF b (T x) (Ring.read INPUT_BUF b (S x))) buf

/-- A pass at word indices is the pass at the counters behind them. -/
theorem foldl_put {σ : Type} (steps : List σ) (target source : Word → σ → Word) (T S : σ → Nat)
    (s : Input) (behind : ∀ x ∈ steps,
      target s.e x = BitVec.ofNat 32 (T x) ∧ source s.e x = BitVec.ofNat 32 (S x)) :
    steps.foldl (fun s x => s.put (target s.e x) (s.get (source s.e x))) s =
      { s with buf := copies T S steps s.buf } := by
  induction steps generalizing s with
  | nil => rfl
  | cons x rest ih =>
    obtain ⟨targetX, sourceX⟩ := behind x (by simp)
    rw [foldl_cons, targetX, sourceX, put_ofNat, get_ofNat]
    exact ih _ fun y inside => behind y (by simp [inside])

theorem Counts.copies (counts : Counts s R W E) {σ : Type} {T S : σ → Nat} {steps : List σ}
    (inLine : ∀ x ∈ steps, W ≤ T x ∧ T x < R + INPUT_BUF) :
    Edit R W s { s with buf := Input.copies T S steps s.buf } E := by
  refine counts.edit (Eq.refl _) (Eq.refl _) counts.e counts.we counts.room ?_
  intro k above below
  refine Ring.read_foldl_write steps T _ _ fun x inside => ?_
  have := inLine x inside
  omega

/-- Making room at the cursor, at the counters. -/
theorem inputshiftright_eq (e : s.e = BitVec.ofNat 32 E) (cursor : s.shift.toNat ≤ E) :
    s.inputshiftright =
      { s with buf := copies (E - ·) (E - · - 1) (range s.shift.toNat) s.buf } := by
  refine foldl_put _ (fun e k => e - BitVec.ofNat 32 k) (fun e k => e - BitVec.ofNat 32 k - 1)
    _ _ s fun k inside => ?_
  have := mem_range.mp inside
  rw [e, ofNat_sub_ofNat (by omega), ofNat_pred (by omega)]
  exact ⟨Eq.refl _, Eq.refl _⟩

/-- Closing the gap before the cursor, at the counters. -/
theorem inputshiftleft_eq (e : s.e = BitVec.ofNat 32 E) (cursor : s.shift.toNat < E)
    (short : s.shift.toNat < INPUT_BUF) :
    s.inputshiftleft =
      { s with
        buf := copies (E - s.shift.toNat - 1 + ·) (E - s.shift.toNat - 1 + · + 1)
          (range s.shift.toNat) s.buf
        e := s.e - 1 } := by
  have short : s.shift.toNat < 128 := short
  have shift : s.shift = BitVec.ofNat 32 s.shift.toNat := by simp
  have rounds : ((s.shift + 1).toInt - 1).toNat = s.shift.toNat := by
    have next : (s.shift + 1).toNat = s.shift.toNat + 1 := by
      rw [shift, ofNat_succ, BitVec.toNat_ofNat, Nat.mod_eq_of_lt (by omega), ← shift]
    rw [BitVec.toInt_eq_toNat_of_lt (by omega), next]
    omega
  have pass := foldl_put (range s.shift.toNat)
    (fun e k => e - (s.shift + 1 - BitVec.ofNat 32 k))
    (fun e k => e - (s.shift + 1 - BitVec.ofNat 32 k) + 1)
    (E - s.shift.toNat - 1 + ·) (E - s.shift.toNat - 1 + · + 1) s fun k inside => by
      have := mem_range.mp inside
      have index : s.shift + 1 - BitVec.ofNat 32 k = BitVec.ofNat 32 (s.shift.toNat + 1 - k) := by
        rw [shift, ofNat_succ, ofNat_sub_ofNat (by omega), ← shift]
      have place : E - (s.shift.toNat + 1 - k) = E - s.shift.toNat - 1 + k := by omega
      rw [index, e, ofNat_sub_ofNat (by omega), ofNat_succ, place]
      exact ⟨Eq.refl _, Eq.refl _⟩
  simp only [Input.inputshiftleft, rounds, foldl_map, pass]

/-- Making room at the cursor moves only cells of the line. -/
theorem Counts.inputshiftright (counts : Counts s R W E) (space : E < R + INPUT_BUF)
    (cursor : s.shift.toNat ≤ E - W) :
    Edit R W s s.inputshiftright E ∧ s.inputshiftright.shift = s.shift := by
  rw [inputshiftright_eq counts.e (by omega)]
  refine ⟨counts.copies fun k inside => ?_, Eq.refl _⟩
  have := mem_range.mp inside
  omega

/-- Closing the gap before the cursor moves only cells of the line. -/
theorem Counts.inputshiftleft (counts : Counts s R W E) (cursor : s.shift.toNat < E - W) :
    Edit R W s s.inputshiftleft (E - 1) := by
  have le := counts.rw
  have room : E ≤ R + 128 := counts.room
  have short : s.shift.toNat < 128 := by omega
  rw [inputshiftleft_eq counts.e (by omega) short]
  have copied : Edit R W s
      { s with
        buf := Input.copies (E - s.shift.toNat - 1 + ·) (E - s.shift.toNat - 1 + · + 1)
          (range s.shift.toNat) s.buf } E := by
    refine counts.copies fun k inside => ?_
    have := mem_range.mp inside
    simp only [INPUT_BUF]
    omega
  exact copied.trans (copied.counts.shorten (by omega))

end Input

/-! ## Keys that edit the line -/

section Keys

variable {c : Console} {R W E : Nat}

theorem eraseLoop_edit (n : Nat) (counts : c.input.Counts R W E) :
    ∃ E', E' ≤ E ∧ c.input.Edit R W (eraseLoop n c).input E' := by
  induction n generalizing c E with
  | zero => exact ⟨E, le_rfl, .rfl, counts⟩
  | succ n ih =>
    simp only [eraseLoop]
    split
    · rename_i more
      have nonempty : W < E := by
        refine lt_of_le_of_ne counts.we fun empty => more.1 ?_
        rw [counts.e, counts.w, empty]
      have shorter := counts.shorten nonempty
      obtain ⟨E', le, rest⟩ := ih
        (c := { c with input := { c.input with e := c.input.e - 1 } }.emit [.backspace])
        shorter.counts
      exact ⟨E', by omega, shorter.trans rest⟩
    · exact ⟨E, le_rfl, .rfl, counts⟩

theorem conseraseline_edit (counts : c.input.Counts R W E) :
    ∃ E', E' ≤ E ∧ c.input.Edit R W (conseraseline c).input E' := by
  have home := counts.shifted 0
  obtain ⟨E', le, erased⟩ := eraseLoop_edit (c := { movpostoend c with
    input := { c.input with shift := 0 } }) (c.input.e - c.input.w).toNat home.counts
  exact ⟨E', le, home.trans erased⟩

theorem foldl_putEnd_edit (text : List Byte) (counts : c.input.Counts R W E)
    (fits : E + text.length ≤ R + INPUT_BUF) :
    c.input.Edit R W (text.foldl putEnd c).input (E + text.length) := by
  induction text generalizing c E with
  | nil => exact ⟨.rfl, counts⟩
  | cons b rest ih =>
    rw [length_cons] at fits ⊢
    have first : c.input.Edit R W (putEnd c b).input (E + 1) := counts.append (by omega) b
    have tail := ih first.counts (by omega)
    rw [Nat.add_right_comm, Nat.add_assoc] at tail
    exact first.trans tail

/-- The line fits into the ring once the old one is erased. `conseraseline` stops at a newline, so
it may leave a part of the old line. -/
def Fits (c : Console) (s : Nat → Byte) : Prop :=
  ((conseraseline c).input.e - c.input.r).toNat + (cstr s).length ≤ INPUT_BUF
deriving Decidable

theorem refill_edit {s : Nat → Byte} (counts : c.input.Counts R W E) (fits : Fits c s) :
    ∃ E', c.input.Edit R W (refill s c).input E' := by
  obtain ⟨E', -, erased⟩ := conseraseline_edit counts
  have used := erased.counts.used
  rw [erased.keeps.r] at used
  have typed := foldl_putEnd_edit (cstr s) erased.counts (by
    rw [Fits, used] at fits
    omega)
  exact ⟨_, erased.trans typed⟩

theorem inputputc_input (b : Byte) (c : Console) :
    (inputputc b c).input =
      let s := if c.input.shift = 0 then c.input.put c.input.e b else
        c.input.inputshiftright.put (c.input.inputshiftright.e - c.input.inputshiftright.shift) b
      { s with e := s.e + 1 } := by
  by_cases atEnd : c.input.shift = 0
  · simp only [inputputc, if_pos atEnd]
    rfl
  · simp only [inputputc, if_neg atEnd]
    rfl

theorem inputputc_edit (b : Byte) (counts : c.input.Counts R W E) (space : E < R + INPUT_BUF)
    (cursor : c.input.shift.toNat ≤ E - W) :
    c.input.Edit R W (inputputc b c).input (E + 1) := by
  have le := counts.we
  rw [inputputc_input]
  by_cases atEnd : c.input.shift = 0
  · rw [if_pos atEnd]
    exact counts.append space b
  · rw [if_neg atEnd]
    obtain ⟨room, shift⟩ := counts.inputshiftright space cursor
    have index : c.input.inputshiftright.e - c.input.inputshiftright.shift =
        BitVec.ofNat 32 (E - c.input.shift.toNat) := by
      rw [room.counts.e, shift, ← ofNat_sub_ofNat (by omega)]
      simp
    have stored := room.counts.put (i := E - c.input.shift.toNat) (by omega) (by omega) b
    rw [← index] at stored
    exact (room.trans stored).trans (stored.counts.lengthen space)

variable {c' : Console}

theorem eraseLoop_input_congr {c : Console} (same : c'.input = c.input) (n : Nat) :
    (eraseLoop n c').input = (eraseLoop n c).input := by
  induction n generalizing c c' with
  | zero => exact same
  | succ n ih =>
    simp only [eraseLoop, same]
    split
    · exact ih rfl
    · exact same

theorem Fits.congr (same : c'.input = c.input) {s : Nat → Byte} (fits : Fits c s) : Fits c' s := by
  have erased : (conseraseline c').input = (conseraseline c).input := by
    simp only [conseraseline, movpostoend, Console.emit, same]
    refine eraseLoop_input_congr ?_ _
    rfl
  rw [Fits, erased, same]
  exact fits

/-- What a key may rely on, read off the state it finds.

A key that edits at the cursor finds the cursor inside the line; Enter on a line with text moves it
to the end first. A key that loads a line finds room for it. -/
def Key.Ok (beyond : Beyond) (c : Console) : Key → Prop
  | .backspace =>
    c.input.e - c.input.shift > c.input.w → c.input.shift ≤ c.input.e - c.input.w
  | .delnums => Fits c (delnumsLine c.input)
  | .up => c.cmds.r + 1 ≤ c.cmds.w → Fits c (c.cmds.buf c.cmds.r)
  | .down => Fits c (if c.cmds.r - 1 > 0 then c.cmds.buf (c.cmds.r - 1 - 1) else c.cmds.tmpcmd)
  | .tab => ∀ i, predicted beyond c = some i → Fits c (c.cmds.buf i)
  | .typed code =>
    code ≠ 0 ∧ c.input.e - c.input.r < BitVec.ofNat 32 INPUT_BUF →
      ¬ ((code = 10 ∨ code = 13) ∧ c.input.e - c.input.w > 0) →
        c.input.shift ≤ c.input.e - c.input.w
  | .procdump | .killLine | .clear | .left | .right | .start | .stop => True

instance (beyond : Beyond) (c : Console) : ∀ key : Key, Decidable (key.Ok beyond c)
  | .backspace => inferInstanceAs (Decidable (_ → _))
  | .delnums => inferInstanceAs (Decidable (Fits _ _))
  | .up => inferInstanceAs (Decidable (_ → Fits _ _))
  | .down => inferInstanceAs (Decidable (Fits _ _))
  | .tab => inferInstanceAs (Decidable (∀ i, predicted beyond c = some i → Fits c (c.cmds.buf i)))
  | .typed _ => inferInstanceAs (Decidable (_ → ¬ _ → _))
  | .procdump | .killLine | .clear | .left | .right | .start | .stop => .isTrue trivial

/-- The line is edited, and then possibly committed. -/
structure Pressed (R W : Nat) (s s' : Input) (W' E' : Nat) : Prop where
  grows : W ≤ W'
  bytes : ∀ k, R ≤ k → k < W → Ring.read INPUT_BUF s'.buf k = Ring.read INPUT_BUF s.buf k
  counts : s'.Counts R W' E'

theorem Input.Edit.pressed {s' : Input} (edit : s.Edit R W s' E') : Pressed R W s s' W E' :=
  ⟨le_rfl, edit.keeps.bytes, edit.counts⟩

/-- Every key that loads a line, whatever it has done to the history before. -/
theorem refill_pressed {s : Nat → Byte} (same : c'.input = c.input) (counts : c.input.Counts R W E)
    (fits : Fits c s) : ∃ W' E', Pressed R W c.input (refill s c').input W' E' := by
  rw [← same] at counts ⊢
  obtain ⟨E', edit⟩ := refill_edit counts (fits.congr same)
  exact ⟨W, E', edit.pressed⟩

variable (beyond : Beyond)

/-- When the byte goes in, the cursor is inside the line. -/
theorem entered_edit {code : Nat} (counts : c.input.Counts R W E)
    (cursor : ¬ (code = 10 ∧ c.input.e - c.input.w > 0) → c.input.shift.toNat ≤ E - W) :
    c.input.Edit R W (entered beyond code c).input E ∧
      (entered beyond code c).input.shift.toNat ≤ E - W := by
  unfold entered
  split
  · exact ⟨counts.shifted 0, Nat.zero_le _⟩
  · rename_i ordinary
    exact ⟨⟨.rfl, counts⟩, cursor ordinary⟩

/-- Committing moves the end of the region to the end of the line. -/
theorem commit_pressed (code : Nat) (edit : s.Edit R W c.input E) :
    ∃ W', Pressed R W s (commit code c).input W' E := by
  have after := edit.counts
  unfold commit
  split
  · exact ⟨E, after.we, edit.keeps.bytes, after.r, after.e, after.e, after.rw.trans after.we,
      le_rfl, after.room⟩
  · exact ⟨W, edit.pressed⟩

theorem typed_pressed (code : Nat) (counts : c.input.Counts R W E)
    (ok : (Key.typed code).Ok beyond c) :
    ∃ W' E', Pressed R W c.input (typed beyond code c).input W' E' := by
  unfold typed
  split
  · rename_i accepted
    have space : E < R + 128 := by
      have free : (c.input.e - c.input.r).toNat < 128 := accepted.2
      rw [counts.used] at free
      omega
    have cursor : ¬ ((if code = 13 then 10 else code) = 10 ∧ c.input.e - c.input.w > 0) →
        c.input.shift.toNat ≤ E - W := by
      intro ordinary
      rw [← counts.edited]
      refine ok accepted fun enter => ordinary ⟨?_, enter.2⟩
      rcases enter.1 with rfl | rfl <;> rfl
    obtain ⟨homed, inside⟩ := entered_edit beyond counts cursor
    obtain ⟨W', pressed⟩ := commit_pressed (if code = 13 then 10 else code)
      (homed.trans (inputputc_edit _ homed.counts space inside))
    exact ⟨W', _, pressed⟩
  · exact ⟨W, E, le_rfl, fun _ _ _ => rfl, counts⟩

/-- **A key keeps what is committed and unread.** -/
theorem consoleintr_pressed (code : Nat) (counts : c.input.Counts R W E)
    (ok : (Key.ofCode code).Ok beyond c) :
    ∃ W' E', Pressed R W c.input (consoleintr beyond code c).input W' E' := by
  have idle : Pressed R W c.input c.input W E := ⟨le_rfl, fun _ _ _ => rfl, counts⟩
  unfold consoleintr
  cases key : Key.ofCode code <;> simp only [key] at ok ⊢
  case procdump => exact ⟨W, E, idle⟩
  case killLine | clear =>
      obtain ⟨E', -, erased⟩ := conseraseline_edit counts
      exact ⟨W, E', erased.pressed⟩
  case backspace =>
      split
      · rename_i deletes
        have inside : c.input.shift.toNat ≤ E - W := by
          rw [← counts.edited]
          exact ok deletes
        have strict : c.input.shift.toNat < E - W := by
          refine lt_of_le_of_ne inside fun start => ?_
          have same : c.input.e - c.input.shift = c.input.w := by
            have le := counts.we
            have shift : c.input.shift = BitVec.ofNat 32 (E - W) := by rw [← start]; simp
            rw [counts.e, counts.w, shift, ofNat_sub_ofNat (by omega)]
            congr 1
            omega
          rw [same] at deletes
          exact BitVec.lt_irrefl _ deletes
        exact ⟨W, E - 1, (counts.inputshiftleft strict).pressed⟩
      · exact ⟨W, E, idle⟩
  case left | right | start =>
      split
      · exact ⟨W, E, (counts.shifted _).pressed⟩
      · exact ⟨W, E, idle⟩
  case stop => exact ⟨W, E, (counts.shifted _).pressed⟩
  case delnums => exact refill_pressed rfl counts ok
  case up =>
      -- the text typed so far is saved first, which touches neither the ring nor the history
      have saved : ∃ tmp, (if c.cmds.r = 0 then copycmd beyond c else c) =
          { c with cmds := { c.cmds with tmpcmd := tmp } } := by
        split
        · exact ⟨_, rfl⟩
        · exact ⟨_, rfl⟩
      obtain ⟨tmp, saved⟩ := saved
      rw [saved]
      split
      · exact ⟨W, E, idle⟩
      · rename_i more
        exact refill_pressed rfl counts (ok (not_lt.mp more))
  case down =>
      simp only [Key.Ok] at ok
      split
      · rename_i above
        rw [if_pos above] at ok
        exact refill_pressed rfl counts ok
      · rename_i bottom
        rw [if_neg bottom] at ok
        exact refill_pressed rfl counts ok
  case tab =>
      have saved : ∃ cmds, cmds.buf = c.cmds.buf ∧
          (if c.cmds.intab then c
            else copycmd beyond { c with cmds := { c.cmds with lastusedidx := 0 } }) =
              { c with cmds := cmds } := by
        split
        · exact ⟨c.cmds, rfl, rfl⟩
        · exact ⟨(copycmd beyond { c with cmds := { c.cmds with lastusedidx := 0 } }).cmds, rfl, rfl⟩
      obtain ⟨cmds, history, saved⟩ := saved
      simp only [predcmd, saved]
      cases found : predicted beyond c with
      | none => exact ⟨W, E, idle⟩
      | some i =>
        have fits := ok i found
        rw [← history] at fits
        exact refill_pressed rfl counts fits
  case typed code => exact typed_pressed beyond code counts ok

end Keys

/-! ## Readers -/

/-- A reader takes the oldest committed bytes, in order, and nothing else. -/
theorem readLoop_takes (target n : Nat) (counts : s.Counts R W E) (dst took : List Byte) :
    ∃ R', R ≤ R' ∧ (readLoop target n s dst took).input.Counts R' W E ∧
      (readLoop target n s dst took).input.buf = s.buf ∧
      (readLoop target n s dst took).took = took ++ Ring.window INPUT_BUF s.buf R (R' - R) := by
  have nothing : took = took ++ Ring.window INPUT_BUF s.buf R (R - R) := by simp
  induction n generalizing s R dst took with
  | zero => exact ⟨R, le_rfl, counts, rfl, nothing⟩
  | succ n ih =>
    simp only [readLoop]
    split
    · exact ⟨R, le_rfl, counts, rfl, nothing⟩
    · rename_i unread
      have le := counts.rw
      have room := counts.room
      have below : R < W := by
        refine lt_of_le_of_ne counts.rw fun empty => unread ?_
        rw [counts.r, counts.w, empty]
      have byte : s.get s.r = Ring.read INPUT_BUF s.buf R := by
        rw [counts.r, Input.get_ofNat]
      have next : { s with r := s.r + 1 }.Counts (R + 1) W E :=
        ⟨by rw [counts.r, ofNat_succ], counts.w, counts.e, below, counts.we, by omega⟩
      have one : took ++ [s.get s.r] =
          took ++ Ring.window INPUT_BUF s.buf R (R + 1 - R) := by
        rw [byte, Nat.add_sub_cancel_left]
        rfl
      split
      · split
        · -- the mark goes back
          refine ⟨R, le_rfl, ⟨?_, counts.w, counts.e, le, counts.we, room⟩, rfl, nothing⟩
          rw [BitVec.add_sub_cancel, counts.r]
        · exact ⟨R + 1, Nat.le_succ R, next, rfl, one⟩
      · split
        · exact ⟨R + 1, Nat.le_succ R, next, rfl, one⟩
        · obtain ⟨R', later, after, buf, more⟩ := ih next (dst ++ [s.get s.r]) (took ++ [s.get s.r])
            (by simp)
          refine ⟨R', by omega, after, buf, ?_⟩
          have split' : R' - R = (R' - (R + 1)) + 1 := by omega
          rw [more, split', Ring.window_cons, byte, append_assoc]
          rfl

/-! ## Runs -/

/-- The committed bytes that nobody has read. -/
def unread (s : Input) : List Byte := Ring.window INPUT_BUF s.buf s.r.toNat (s.w - s.r).toNat

theorem window_ofNat (buf : Nat → Byte) (i n : Nat) :
    Ring.window INPUT_BUF buf (BitVec.ofNat 32 i).toNat n = Ring.window INPUT_BUF buf i n := by
  refine map_congr_left fun k _ => ?_
  have slot : ((BitVec.ofNat 32 i).toNat + k) % INPUT_BUF = (i + k) % INPUT_BUF := by
    rw [Nat.add_mod, slot_ofNat, ← Nat.add_mod]
  simp only [Ring.read, slot]

theorem Input.Counts.unread_eq (counts : s.Counts R W E) :
    Cons.unread s = Ring.window INPUT_BUF s.buf R (W - R) := by
  rw [Cons.unread, counts.unread, counts.r, window_ofNat]

/-- The condition on a step. -/
def Admitted (s : State) : Event → Prop
  | .key code beyond => (Key.ofCode code).Ok beyond s.con
  | .read _ _ _ | .resume _ _ => True

instance (s : State) : ∀ e, Decidable (Admitted s e)
  | .key _ _ => inferInstanceAs (Decidable (Key.Ok _ _ _))
  | .read _ _ _ | .resume _ _ => .isTrue trivial

structure Inv (s : State) : Prop where
  counts : ∃ R W E, s.con.input.Counts R W E
  delivered : s.committed = s.consumed ++ unread s.con.input

/-- Of the console, a reader changes the ring only. -/
theorem runCall_con (s : State) (p : Nat) (call : Call) (killed : Bool) :
    (runCall s p call killed).con =
      { s.con with input := (readLoop call.target call.n s.con.input call.dst []).input } := by
  unfold runCall
  simp only
  split
  · rfl
  · split <;> rfl

theorem runCall_inv {s : State} (inv : Inv s) (p : Nat) (call : Call) (killed : Bool) :
    Inv (runCall s p call killed) := by
  obtain ⟨⟨R, W, E, counts⟩, delivered⟩ := inv
  obtain ⟨R', later, after, buf, took⟩ := readLoop_takes call.target call.n counts call.dst []
  have input := congrArg Console.input (runCall_con s p call killed)
  have logs : (runCall s p call killed).committed = s.committed ∧
      (runCall s p call killed).consumed = s.consumed ++
        (readLoop call.target call.n s.con.input call.dst []).took := by
    unfold runCall
    simp only
    split
    · exact ⟨rfl, rfl⟩
    · split <;> exact ⟨rfl, rfl⟩
  refine ⟨⟨R', W, E, input ▸ after⟩, ?_⟩
  have bound := after.rw
  have parts : W - R = (R' - R) + (W - R') := by omega
  rw [logs.1, logs.2, input, after.unread_eq, buf, took, delivered, counts.unread_eq, parts,
    Ring.window_append, Nat.add_sub_cancel' later, nil_append, append_assoc]

theorem pressed_inv {s : State} (inv : Inv s) {code : Nat} {beyond : Beyond}
    (ok : (Key.ofCode code).Ok beyond s.con) : Inv (pressed s code beyond) := by
  obtain ⟨⟨R, W, E, counts⟩, delivered⟩ := inv
  obtain ⟨W', E', grows, bytes, after⟩ := consoleintr_pressed beyond code counts ok
  refine ⟨⟨R, W', E', after⟩, ?_⟩
  have le := counts.rw
  have end' := after.we
  have room : E' ≤ R + 128 := after.room
  have kept : Ring.window INPUT_BUF (consoleintr beyond code s.con).input.buf R (W - R) =
      Ring.window INPUT_BUF s.con.input.buf R (W - R) :=
    Ring.window_congr fun k above below => bytes k above (by omega)
  have grown : ((consoleintr beyond code s.con).input.w - s.con.input.w).toNat = W' - W := by
    rw [after.w, counts.w, toNat_sub_ofNat grows (by omega)]
  have parts : W' - R = (W - R) + (W' - W) := by omega
  change s.committed ++ Ring.window INPUT_BUF (consoleintr beyond code s.con).input.buf
    s.con.input.w.toNat _ = s.consumed ++ unread (consoleintr beyond code s.con).input
  rw [grown, after.unread_eq, delivered, counts.unread_eq, counts.w, window_ofNat, parts,
    Ring.window_append, kept, Nat.add_sub_cancel' le, append_assoc]

theorem step_inv {s s' : State} {e : Event} (inv : Inv s) (ok : Admitted s e)
    (stepped : step s e = some s') : Inv s' := by
  cases e with
  | key code beyond =>
    cases stepped
    exact pressed_inv inv ok
  | read p n killed =>
    obtain ⟨-, ⟨⟩⟩ := Option.ite_none_right_eq_some.mp stepped
    exact runCall_inv inv p _ killed
  | resume p killed =>
    obtain ⟨call, -, rfl⟩ := Option.map_eq_some_iff.mp stepped
    exact runCall_inv inv p call killed

theorem reach_inv {s : State} (reached : system.Reach Admitted s) : Inv s := by
  refine System.Reach.invariant ?_ ?_ reached
  · rintro s ⟨r, w, e, -, -, -, -, -, -, -, -, -, -, committed, consumed⟩
    refine ⟨⟨0, 0, 0, r, w, e, le_rfl, le_rfl, by decide⟩, ?_⟩
    simp [committed, consumed, unread, r, w]
  · intro s e s' inv ok stepped
    exact step_inv inv ok stepped

/-- `r <= w <= e` and `e - r <= INPUT_BUF`, as unsigned differences. -/
def InOrder (s : Input) : Prop :=
  (s.w - s.r).toNat ≤ (s.e - s.r).toNat ∧ (s.e - s.r).toNat ≤ INPUT_BUF
deriving Decidable

theorem Input.Counts.inOrder (counts : s.Counts R W E) : InOrder s := by
  have := counts.we
  have := counts.room
  rw [InOrder, counts.unread, counts.used]
  omega

theorem cstr_length (s : Nat → Byte) : (cstr s).length ≤ INPUT_BUF := by
  refine (takeWhile_sublist _).length_le.trans ?_
  simp

/-- **The console delivers what was committed.** In every state of a run whose keys find what they
rely on, the indices are in order, such a key leaves the committed bytes alone, and what readers
took so far, followed by what is left for them, is what was committed. -/
theorem console_delivers {s : State} (reached : system.Reach Admitted s) :
    InOrder s.con.input ∧
      (∀ code beyond, Admitted s (.key code beyond) → ∀ k < (s.con.input.w - s.con.input.r).toNat,
        (pressed s code beyond).con.input.get (s.con.input.r + BitVec.ofNat 32 k) =
          s.con.input.get (s.con.input.r + BitVec.ofNat 32 k)) ∧
      s.committed = s.consumed ++ unread s.con.input := by
  obtain ⟨⟨R, W, E, counts⟩, delivered⟩ := reach_inv reached
  refine ⟨counts.inOrder, ?_, delivered⟩
  intro code beyond ok k inside
  obtain ⟨W', E', -, bytes, -⟩ := consoleintr_pressed beyond code counts ok
  rw [counts.unread] at inside
  rw [counts.r, ofNat_add_ofNat, Input.get_ofNat, Input.get_ofNat]
  exact bytes (R + k) (Nat.le_add_right R k) (by omega)

/-! ## Two runs from boot -/

def boot : State where
  con :=
    { input := ⟨fun _ => 0, 0, 0, 0, 0⟩
      cmds := ⟨fun _ _ => 0, 0, 0, false, fun _ => 0, 0⟩
      screen := [] }
  readers := fun _ => none
  returned := []
  committed := []
  consumed := []

theorem boot_start : system.start boot :=
  ⟨rfl, rfl, rfl, rfl, rfl, rfl, rfl, rfl, fun _ _ => rfl, fun _ => rfl, fun _ => rfl, fun _ => rfl,
    rfl, rfl, rfl⟩

def key (code : Nat) : Event := .key code fun _ => 0

/-- `c`, `a`, left, `b`, Enter; process 7 asks for two bytes. -/
def typedLine : List Event := [key 99, key 97, key 2, key 98, key 13, .read 7 2 false]

def afterLine : State := (system.run boot typedLine).getD boot

theorem console_delivers_typedLine :
    afterLine.returned = [(7, some [99, 98])] ∧ unread afterLine.con.input = [97, 10] ∧
      InOrder afterLine.con.input ∧
      afterLine.committed = afterLine.consumed ++ unread afterLine.con.input := by
  have admitted : system.Admits Admitted boot typedLine := by decide
  have reached : system.Reach Admitted afterLine := .run (.start boot_start) admitted rfl
  obtain ⟨ordered, -, delivered⟩ := console_delivers reached
  exact ⟨by decide, by decide, ordered, delivered⟩

/-- `a`, left, Ctrl-D: the line is committed with the cursor still one place back. Then `x`. -/
def ctrlDAtCursor : List Event := [key 97, key 2, key 4, key 120]

def afterCtrlD : State := (system.run boot ctrlDAtCursor).getD boot

/-- The last key lands in the committed region: what will be read is not what was committed. -/
theorem ctrlD_at_cursor_breaks_delivery :
    system.Reachable afterCtrlD ∧ afterCtrlD.committed = [4, 97] ∧ afterCtrlD.consumed = [] ∧
      unread afterCtrlD.con.input = [4, 120] :=
  ⟨System.reachable_of_run ctrlDAtCursor boot_start rfl, by decide, by decide, by decide⟩

end Xv6.Cons
