/-
# Xv6.Console.History -- the lines the arrow keys bring back

`cmds.buf` should hold the last ten lines submitted with Enter, newest first. The lines are shifted
down and the new one is copied in front by `storecmd`, which reads the input ring without wrapping
the index: a line that ends past the first pass over the ring is not what it stores.

A ghost list keeps the submitted texts, as they stand in the ring. `history_runs`: as long as Enter
finds the line inside the first pass, the table is the front of that list. Outside of it, what is
stored depends on memory that is none of the console's (`storecmd_exact`).
-/
import Xv6.Console.Cursor

namespace Xv6.Cons
open Lib List Function
set_option autoImplicit false

/-- The text of the line being edited. -/
def lineText (s : Input) : List Byte :=
  (range (s.e - s.w).toNat).map fun k => s.get (s.w + BitVec.ofNat 32 k)

/-- Enter on a line with text, while the ring has room for the newline. -/
def Submits (s : Input) (code : Nat) : Prop :=
  Enters code s ∧ s.e - s.r < BitVec.ofNat 32 INPUT_BUF
deriving Decidable

/-- The console with the texts submitted so far, newest first. -/
structure Session where
  state : State
  lines : List (List Byte)

def Session.record (s : Session) : Event → List (List Byte)
  | .key code _ =>
    if Submits s.state.con.input code then lineText s.state.con.input :: s.lines else s.lines
  | .read _ _ _ | .resume _ _ => s.lines

def session : System Session Event where
  start := fun s => Start s.state ∧ s.lines = []
  next := fun s e => (step s.state e).map fun state => ⟨state, s.record e⟩

/-- The table holds the front of the list: each text, and zero bytes after it. -/
structure History (cmds : Cmds) (lines : List (List Byte)) : Prop where
  count : cmds.w = min lines.length COMMAND_BUF
  short : ∀ i < cmds.w, (lines.getD i []).length < INPUT_BUF
  texts : ∀ i < cmds.w, ∀ j < INPUT_BUF, cmds.buf i j = (lines.getD i []).getD j 0

/-! ## storecmd -/

/-- The loop that moves the rows down. It starts at the bottom, so every row is read before it is
overwritten. -/
theorem moveRows (n : Nat) (buf : Nat → Nat → Byte) (i j : Nat) (inRow : j < INPUT_BUF) :
    ((range n).reverse.map (· + 1)).foldl
      (fun (buf : Nat → Nat → Byte) i => update buf i fun j =>
        if j < INPUT_BUF then buf (i - 1) j else buf i j) buf i j =
      if 1 ≤ i ∧ i ≤ n then buf (i - 1) j else buf i j := by
  induction n generalizing buf with
  | zero =>
    have none : ¬ (1 ≤ i ∧ i ≤ 0) := by omega
    rw [if_neg none]
    rfl
  | succ n ih =>
    rw [range_succ, reverse_append, reverse_singleton, singleton_append,
      map_cons, foldl_cons, ih]
    by_cases moved : 1 ≤ i ∧ i ≤ n
    · have later : i - 1 ≠ n + 1 := by omega
      rw [if_pos moved, if_pos ⟨moved.1, by omega⟩, update_of_ne later]
    · rw [if_neg moved]
      by_cases first : i = n + 1
      · subst first
        rw [update_self, if_pos inRow, if_pos ⟨by omega, le_refl _⟩]
      · rw [update_of_ne first, if_neg (by omega)]

variable (beyond : Beyond)

theorem storecmd_buf (c : Console) (i j : Nat) (inRow : j < INPUT_BUF) (inTable : i < c.cmds.w) :
    (storecmd beyond c).cmds.buf i j =
      if i = 0 then (c.input.rawLine beyond).getD j 0 else c.cmds.buf (i - 1) j := by
  unfold storecmd
  by_cases top : i = 0
  · subst top
    simp only [update_self, fill, if_pos inRow, if_true]
  · simp only [update_of_ne top, if_neg top]
    rw [moveRows _ _ _ _ inRow, if_pos (by omega)]

/-! ## What the stored text is -/

/-- The line ends within the first pass over the ring. -/
def FirstPass (s : Input) : Prop := s.w ≤ s.e ∧ s.e ≤ BitVec.ofNat 32 INPUT_BUF
deriving Decidable

variable {s : Input} {c : Console}

theorem rawLine_firstPass (first : FirstPass s) : s.rawLine beyond = lineText s := by
  obtain ⟨ordered, last⟩ := first
  rw [Input.rawLine, if_pos ordered, lineText]
  refine map_congr_left ?_
  intro k inRange
  have below := mem_range.mp inRange
  rw [BitVec.toNat_sub_of_le ordered] at below
  have slot : (s.w + BitVec.ofNat 32 k).toNat < INPUT_BUF := by
    have bound : s.e.toNat ≤ INPUT_BUF := last
    rw [BitVec.toNat_add, BitVec.toNat_ofNat]
    omega
  rw [Input.raw, if_pos slot, Input.get, Ring.read, Nat.mod_eq_of_lt slot]

theorem rawLine_length (ordered : s.w ≤ s.e) (beyond : Beyond) :
    (s.rawLine beyond).length = (lineText s).length := by
  simp [Input.rawLine, lineText, ordered]

/-- Past the first pass, what is stored is not the line for some contents of the memory behind the
ring. -/
theorem firstPass_of_rawLine (text : s.e - s.w > 0) (ordered : s.w ≤ s.e)
    (stored : ∀ beyond, s.rawLine beyond = lineText s) : FirstPass s := by
  refine ⟨ordered, ?_⟩
  by_contra past
  have length := BitVec.toNat_sub_of_le ordered
  have some : 0 < (s.e - s.w).toNat := text
  have bound : INPUT_BUF < s.e.toNat := not_le.mp past
  -- the last byte is read behind the ring
  obtain ⟨last, next⟩ : ∃ last, last + 1 = (s.e - s.w).toNat := ⟨_, Nat.succ_pred_eq_of_pos some⟩
  have inLine : last < (s.e - s.w).toNat := by omega
  have same := congrArg (·[last]?) (stored fun _ => s.get (s.w + BitVec.ofNat 32 last) + 1)
  rw [Input.rawLine, if_pos ordered, lineText] at same
  simp only [getElem?_map, getElem?_range inLine, Option.map_some, Option.some.injEq] at same
  have outside : ¬ (s.w + BitVec.ofNat 32 last).toNat < INPUT_BUF := by
    rw [BitVec.toNat_add, BitVec.toNat_ofNat]
    omega
  rw [Input.raw, if_neg outside] at same
  simp at same

/-! ## The other keys leave the table alone -/

theorem eraseLoop_cmds (n : Nat) (c : Console) : (eraseLoop n c).cmds = c.cmds := by
  induction n generalizing c with
  | zero => rfl
  | succ n ih =>
    simp only [eraseLoop]
    split
    · exact ih _
    · rfl

theorem conseraseline_cmds (c : Console) : (conseraseline c).cmds = c.cmds := eraseLoop_cmds _ _

theorem foldl_putEnd_cmds (text : List Byte) (c : Console) :
    (text.foldl putEnd c).cmds = c.cmds := by
  induction text generalizing c with
  | nil => rfl
  | cons b rest ih => exact ih (putEnd c b)

theorem refill_cmds (s : Nat → Byte) (c : Console) : (refill s c).cmds = c.cmds :=
  (foldl_putEnd_cmds _ _).trans (conseraseline_cmds c)

theorem inputputc_cmds (b : Byte) (c : Console) : (inputputc b c).cmds = c.cmds := by
  unfold inputputc
  split
  · rfl
  · rfl

theorem commit_cmds (code : Nat) (c : Console) : (commit code c).cmds = c.cmds := by
  unfold commit
  split
  · rfl
  · rfl

/-- Both codes of Enter. -/
theorem enters_iff (code : Nat) (s : Input) :
    Enters code s ↔ (if code = 13 then 10 else code) = 10 ∧ s.e - s.w > 0 := by
  by_cases isReturn : code = 13
  · simp [Enters, isReturn]
  · simp [Enters, isReturn]

theorem entered_cmds (code : Nat) (c : Console) :
    (entered beyond code c).cmds =
      if code = 10 ∧ c.input.e - c.input.w > 0 then (resetcmds beyond c).cmds else c.cmds := by
  unfold entered
  split
  · rfl
  · rfl

theorem typed_cmds {code : Nat} (nonzero : code ≠ 0) :
    (typed beyond code c).cmds =
      if Submits c.input code then (resetcmds beyond c).cmds else c.cmds := by
  unfold typed
  by_cases room : c.input.e - c.input.r < BitVec.ofNat 32 INPUT_BUF
  · simp only [nonzero, room, ne_eq, not_false_eq_true, and_self, if_true, Submits, and_true]
    rw [commit_cmds, inputputc_cmds, entered_cmds, if_congr (enters_iff code c.input) rfl rfl]
  · simp only [room, and_false, if_false, Submits]

theorem Loads.table {c' : Console} (loads : Loads c c') :
    c'.cmds.buf = c.cmds.buf ∧ c'.cmds.w = c.cmds.w := by
  cases loads with
  | keep cmds buf w => exact ⟨buf, w⟩
  | refill s cmds buf w =>
    rw [refill_cmds]
    exact ⟨buf, w⟩

theorem Key.ofCode_typed {code code' : Nat} (key : Key.ofCode code = .typed code') : code' = code := by
  unfold Key.ofCode at key
  split at key
  all_goals cases key
  rfl

theorem typed_zero (c : Console) : typed beyond 0 c = c := by
  simp [typed]

theorem consoleintr_table {code : Nat} (other : ¬ Submits c.input code) :
    (consoleintr beyond code c).cmds.buf = c.cmds.buf ∧
      (consoleintr beyond code c).cmds.w = c.cmds.w := by
  by_cases loading : (Key.ofCode code).loads = true
  · exact (consoleintr_loads beyond c loading).table
  unfold consoleintr
  cases key : Key.ofCode code <;> rw [key] at loading
  case delnums | up | down | tab => exact absurd rfl loading
  case procdump | stop => exact ⟨rfl, rfl⟩
  case killLine | clear =>
      have kept := conseraseline_cmds c
      exact ⟨congrArg Cmds.buf kept, congrArg Cmds.w kept⟩
  case backspace | left | right | start =>
      simp only
      split
      · exact ⟨rfl, rfl⟩
      · exact ⟨rfl, rfl⟩
  case typed code' =>
      cases Key.ofCode_typed key
      by_cases zero : code = 0
      · subst zero
        simp only [typed_zero, and_self]
      · simp only [typed_cmds beyond zero, if_neg other, and_self]

/-! ## Submitting a line -/

section Submit

variable {c : Console} {lines : List (List Byte)}

theorem consoleintr_submit {code : Nat} (submits : Submits c.input code) :
    (consoleintr beyond code c).cmds = (resetcmds beyond c).cmds := by
  have both : Key.ofCode code = .typed code ∧ code ≠ 0 := by
    rcases submits.1.1 with rfl | rfl
    · exact ⟨rfl, by decide⟩
    · exact ⟨rfl, by decide⟩
  unfold consoleintr
  rw [both.1]
  simp only [typed_cmds beyond both.2, if_pos submits]

theorem resetcmds_w (c : Console) :
    (resetcmds beyond c).cmds.w = min (c.cmds.w + 1) COMMAND_BUF := by
  show (if c.cmds.w + 1 > COMMAND_BUF then COMMAND_BUF else c.cmds.w + 1) = _
  split
  · omega
  · omega

theorem resetcmds_buf (c : Console) (i j : Nat) (inRow : j < INPUT_BUF)
    (inTable : i < (resetcmds beyond c).cmds.w) :
    (resetcmds beyond c).cmds.buf i j =
      if i = 0 then (c.input.rawLine beyond).getD j 0 else c.cmds.buf (i - 1) j :=
  storecmd_buf beyond _ i j inRow inTable

theorem lineText_length (s : Input) : (lineText s).length = (s.e - s.w).toNat := by
  simp [lineText]

/-- Storing the text of the line keeps the history. -/
theorem History.submit (history : History c.cmds lines)
    (short : (lineText c.input).length < INPUT_BUF)
    (stored : c.input.rawLine beyond = lineText c.input) :
    History (resetcmds beyond c).cmds (lineText c.input :: lines) := by
  have count := history.count
  have grown := resetcmds_w beyond c
  -- a row below the first holds what the row above it held
  have above : ∀ i < (resetcmds beyond c).cmds.w, i ≠ 0 → i - 1 < c.cmds.w := by omega
  refine ⟨?_, ?_, ?_⟩
  · rw [grown, count, length_cons]
    omega
  · intro i inTable
    cases i with
    | zero => exact short
    | succ i => exact history.short i (above (i + 1) inTable (by simp))
  · intro i inTable j inRow
    rw [resetcmds_buf beyond c i j inRow inTable]
    cases i with
    | zero => rw [if_pos rfl, stored, getD_cons_zero]
    | succ i =>
      exact history.texts i (above (i + 1) inTable (by simp)) j inRow

/-- The first row holds the text only if `storecmd` read the text. -/
theorem History.stored {beyond : Beyond} (ordered : c.input.w ≤ c.input.e)
    (after : History (resetcmds beyond c).cmds (lineText c.input :: lines)) :
    c.input.rawLine beyond = lineText c.input := by
  have top : 0 < (resetcmds beyond c).cmds.w := by
    rw [resetcmds_w]
    exact lt_min (Nat.succ_pos _) (by decide)
  have short : (lineText c.input).length < INPUT_BUF := after.short 0 top
  refine ext_getElem (rawLine_length ordered beyond) ?_
  intro j inRaw inText
  have cell := after.texts 0 top j (by omega)
  rw [resetcmds_buf beyond c 0 j (by omega) top, if_pos rfl, getD_cons_zero] at cell
  simpa [inRaw, inText] using cell

end Submit

variable {lines : List (List Byte)} {e : Event}

/-- **When Enter stores the line.** A line that has not wrapped around the range of a `uint` is
stored right, whatever lies behind the ring, exactly if it ends within the first pass. -/
theorem storecmd_exact (history : History c.cmds lines) (text : c.input.e - c.input.w > 0)
    (short : (c.input.e - c.input.w).toNat < INPUT_BUF) (ordered : c.input.w ≤ c.input.e) :
    (∀ beyond, History (resetcmds beyond c).cmds (lineText c.input :: lines)) ↔
      c.input.e ≤ BitVec.ofNat 32 INPUT_BUF := by
  constructor
  · intro after
    have first := firstPass_of_rawLine text ordered fun beyond => (after beyond).stored ordered
    exact first.2
  · intro last beyond
    apply history.submit beyond
    · rw [lineText_length]
      exact short
    · exact rawLine_firstPass beyond ⟨ordered, last⟩

/-! ## Runs -/

/-- The condition on a step: a key finds what the delivery of lines relies on (so that no line
outgrows the arrays it is copied to), and Enter finds the line within the first pass over the
ring. -/
def Unwrapped (s : Session) : Event → Prop
  | .key code beyond =>
    Admitted s.state (.key code beyond) ∧ (Submits s.state.con.input code → FirstPass s.state.con.input)
  | .read _ _ _ | .resume _ _ => True

instance (s : Session) : ∀ e, Decidable (Unwrapped s e)
  | .key code _ => inferInstanceAs (Decidable (Admitted _ _ ∧ (Submits s.state.con.input code → _)))
  | .read _ _ _ | .resume _ _ => .isTrue trivial

theorem Unwrapped.admitted {s : Session} (unwrapped : Unwrapped s e) : Admitted s.state e := by
  cases e with
  | key code beyond => exact unwrapped.1
  | read p n killed => trivial
  | resume p killed => trivial

/-- The line is shorter than the ring whenever Enter is accepted. -/
theorem submits_short {s : State} {code : Nat} (inv : Inv s) (submits : Submits s.con.input code) :
    (s.con.input.e - s.con.input.w).toNat < INPUT_BUF := by
  obtain ⟨R, W, E, counts⟩ := inv.counts
  have room : (s.con.input.e - s.con.input.r).toNat < INPUT_BUF := submits.2
  have ordered := counts.rw
  rw [counts.used] at room
  rw [counts.edited]
  omega

theorem History.congr {cmds cmds' : Cmds} (history : History cmds lines)
    (buf : cmds'.buf = cmds.buf) (w : cmds'.w = cmds.w) : History cmds' lines := by
  obtain ⟨count, short, texts⟩ := history
  exact ⟨w ▸ count, w ▸ short, by rw [w, buf]; exact texts⟩

/-- What holds along a run: the ring delivers, and the table is the front of the list. -/
structure Session.Inv (s : Session) : Prop where
  ring : Cons.Inv s.state
  history : History s.state.con.cmds s.lines

theorem session_step {s s' : Session} (inv : s.Inv) (unwrapped : Unwrapped s e)
    (stepped : session.next s e = some s') : s'.Inv := by
  obtain ⟨state, moved, rfl⟩ := Option.map_eq_some_iff.mp stepped
  refine ⟨step_inv inv.ring unwrapped.admitted moved, ?_⟩
  cases e with
  | key code beyond =>
    cases moved
    show History (consoleintr beyond code s.state.con).cmds (s.record (.key code beyond))
    by_cases submits : Submits s.state.con.input code
    · rw [Session.record, if_pos submits, consoleintr_submit beyond submits]
      apply inv.history.submit beyond
      · rw [lineText_length]
        exact submits_short inv.ring submits
      · exact rawLine_firstPass beyond (unwrapped.2 submits)
    · rw [Session.record, if_neg submits]
      obtain ⟨buf, w⟩ := consoleintr_table beyond submits
      exact inv.history.congr buf w
  | read p n killed =>
    obtain ⟨-, ⟨⟩⟩ := Option.ite_none_right_eq_some.mp moved
    rw [runCall_con]
    exact inv.history
  | resume p killed =>
    obtain ⟨call, -, rfl⟩ := Option.map_eq_some_iff.mp moved
    rw [runCall_con]
    exact inv.history

theorem session_inv {s : Session} (reached : session.Reach Unwrapped s) : s.Inv := by
  refine System.Reach.invariant ?_ ?_ reached
  · rintro s ⟨start, none⟩
    obtain ⟨r, w, e, -, -, written, -, -, -, -, -, -, -, committed, consumed⟩ := start
    refine ⟨⟨⟨0, 0, 0, r, w, e, le_rfl, le_rfl, by decide⟩, ?_⟩, ?_, ?_, ?_⟩
    · simp [committed, consumed, unread, r, w]
    · simp [written, none]
    · simp [written]
    · simp [written]
  · intro s e s' inv unwrapped stepped
    exact session_step inv unwrapped stepped

/-- **The history is the front of the submitted lines.** In every state of a run in which Enter
always finds the line within the first pass over the ring, the table holds the last ten submitted
texts, newest first. A step that breaks the condition breaks the table, for some contents of the
memory behind the ring. -/
theorem history_runs {s : Session} (reached : session.Reach Unwrapped s) :
    s.state.con.cmds.w = min s.lines.length COMMAND_BUF ∧
      (∀ i < s.state.con.cmds.w, (s.lines.getD i []).length < INPUT_BUF ∧
        ∀ j < INPUT_BUF, s.state.con.cmds.buf i j = (s.lines.getD i []).getD j 0) ∧
      ∀ code, Submits s.state.con.input code → s.state.con.input.w ≤ s.state.con.input.e →
        ((∀ beyond, History (pressed s.state code beyond).con.cmds
            (lineText s.state.con.input :: s.lines)) ↔
          s.state.con.input.e ≤ BitVec.ofNat 32 INPUT_BUF) := by
  obtain ⟨ring, history⟩ := session_inv reached
  refine ⟨history.count, fun i inTable => ⟨history.short i inTable, history.texts i inTable⟩, ?_⟩
  intro code submits ordered
  have exact' := storecmd_exact history submits.1.2 (submits_short ring submits) ordered
  simpa only [pressed, consoleintr_submit _ submits] using exact'

/-! ## Two sessions from boot -/

def bootSession : Session := ⟨boot, []⟩

theorem bootSession_start : session.start bootSession := ⟨boot_start, rfl⟩

/-- `hi`, Enter, `a`, Enter. -/
def twoLines : List Event := [key 104, key 105, key 13, key 97, key 13]

def afterTwoLines : Session := (session.run bootSession twoLines).getD bootSession

theorem history_twoLines :
    afterTwoLines.lines = [[97], [104, 105]] ∧ afterTwoLines.state.con.cmds.w = 2 ∧
      afterTwoLines.state.con.cmds.buf 1 0 = 104 := by
  have admitted : session.Admits Unwrapped bootSession twoLines := by decide
  have reached : session.Reach Unwrapped afterTwoLines := .run (.start bootSession_start) admitted rfl
  obtain ⟨count, texts, -⟩ := history_runs reached
  have lines : afterTwoLines.lines = [[97], [104, 105]] := by decide
  have written : afterTwoLines.state.con.cmds.w = 2 := by
    rfl
  refine ⟨lines, written, ?_⟩
  rfl

/-- A line of 126 bytes fills the ring but for one cell, and is read. Then `bb` and Enter: the second
`b` goes to cell 0. `input.r` lies right behind the ring, and its low byte is 127 by then. -/
def wrappedLine : List Event :=
  replicate 126 (key 97) ++
    [key 13, .read 7 127 false, key 98, key 98, .key 13 fun i => if i = 128 then 127 else 0]

def afterWrappedLine : Session := (session.run bootSession wrappedLine).getD bootSession

theorem history_wrapped_line :
    session.Reachable afterWrappedLine ∧ afterWrappedLine.state.con.input.r = 127 ∧
      afterWrappedLine.lines.head? = some [98, 98] ∧
      (range 3).map (afterWrappedLine.state.con.cmds.buf 0) = [98, 127, 0] := by
  have ran : (session.run bootSession wrappedLine).isSome = true := by decide +kernel
  refine ⟨System.reachable_of_run wrappedLine bootSession_start ?_, ?_, ?_, ?_⟩
  · exact Option.eq_some_of_isSome ran ▸ rfl
  · decide +kernel
  · decide +kernel
  · decide +kernel

end Xv6.Cons
