/-
# Xv6.Console.Texts -- the line, the saved line and the stored lines are texts

The keys that bring a line back (arrows, Tab) copy texts between the ring, `cmds.tmpcmd` and
`cmds.buf`. A newline or a NUL in one of them would spoil that: erasing the line stops at a newline,
and copying stops at a NUL. Neither is ever typed into a line, but `storecmd` and `copycmd` read the
ring without wrapping the index, and a line that ends past the first pass is copied with whatever lies
behind the ring.

`reach_tidy`: along runs in which every key finds what the delivery of lines relies on, and the keys
that copy the line find it within the first pass (`Careful`), all three are texts.
-/
import Xv6.Console.Editor

namespace Xv6.Cons
open Lib List
set_option autoImplicit false

/-- No newline and no NUL. -/
def Text (line : List Byte) : Prop := ∀ b ∈ line, b ≠ newline ∧ b ≠ 0
deriving Decidable

namespace Text

variable {line line' : List Byte}

theorem subset (text : Text line) (sub : ∀ b ∈ line', b ∈ line) : Text line' :=
  fun b inside => text b (sub b inside)

theorem newline (text : Text line) : newline ∉ line := fun inside => (text _ inside).1 rfl

theorem nul (text : Text line) : 0 ∉ line := fun inside => (text _ inside).2 rfl

theorem nil : Text [] := fun _ inside => absurd inside (not_mem_nil)

end Text

/-- The line is empty, or ends within the first pass over the ring: read without wrapping the index,
it is the line. -/
def Flat (s : Input) : Prop := s.e = s.w ∨ FirstPass s
deriving Decidable

theorem lineText_empty {s : Input} (empty : s.e = s.w) : lineText s = [] := by
  rw [lineText, empty, BitVec.sub_self]
  rfl

theorem rawLine_flat {s : Input} (beyond : Beyond) (flat : Flat s) :
    s.rawLine beyond = lineText s := by
  rcases flat with empty | first
  · rw [lineText_empty empty, Input.rawLine, empty, BitVec.sub_self]
    simp
  · exact rawLine_firstPass beyond first

theorem cstr_fill {text : List Byte} (old : Nat → Byte) (short : text.length ≤ INPUT_BUF) :
    cstr (fill text old) = text.takeWhile (· ≠ 0) := by
  rw [← cstr_getD short]
  apply cstr_congr
  intro j inside
  rw [fill, if_pos inside]

/-! ## What a key keeps -/

structure Tidy (c : Console) : Prop where
  line : Text (lineText c.input)
  entries : ∀ i < c.cmds.w, Text (cstr (c.cmds.buf i))
  saved : Text (cstr c.cmds.tmpcmd)
  place : c.cmds.r ≤ c.cmds.w

/-- The keys that copy the line: Enter to the history, the first Arrow Up and the first Tab to
`tmpcmd`. -/
def Key.Copies (c : Console) : Key → Prop
  | .typed code => Submits c.input code
  | .up => c.cmds.r = 0
  | .tab => c.cmds.intab = false
  | _ => False

instance (c : Console) : ∀ key : Key, Decidable (key.Copies c)
  | .typed code => inferInstanceAs (Decidable (Submits c.input code))
  | .up => inferInstanceAs (Decidable (c.cmds.r = 0))
  | .tab => inferInstanceAs (Decidable (c.cmds.intab = false))
  | .procdump | .killLine | .backspace | .clear | .left | .right | .delnums | .start | .stop | .down =>
    .isFalse not_false

/-! ## The keys that bring a line back -/

section Recall

variable (beyond : Beyond) (c : Console) {code : Nat}

/-- What Arrow Up leaves in `tmpcmd`: the first one saves the line. -/
def savedcmd : Nat → Byte :=
  if c.cmds.r = 0 then fill (c.input.rawLine beyond) c.cmds.tmpcmd else c.cmds.tmpcmd

theorem consoleintr_up (key : Key.ofCode code = .up) :
    consoleintr beyond code c =
      if c.cmds.r + 1 > c.cmds.w then
        { c with cmds := { c.cmds with r := c.cmds.w, tmpcmd := savedcmd beyond c } }
      else
        refill (c.cmds.buf c.cmds.r)
          { c with cmds := { c.cmds with r := c.cmds.r + 1, tmpcmd := savedcmd beyond c } } := by
  rw [consoleintr, key]
  by_cases bottom : c.cmds.r = 0
  · simp only [if_pos bottom, savedcmd]
    rfl
  · simp only [if_neg bottom, savedcmd]
    rfl

/-- What Arrow Down loads: the entry below, or what was saved. -/
def lowercmd : Nat → Byte := if 1 < c.cmds.r then c.cmds.buf (c.cmds.r - 2) else c.cmds.tmpcmd

theorem consoleintr_down (key : Key.ofCode code = .down) :
    consoleintr beyond code c =
      refill (lowercmd c) { c with cmds := { c.cmds with r := c.cmds.r - 1 } } := by
  rw [consoleintr, key]
  by_cases above : c.cmds.r - 1 > 0
  · simp only [if_pos above, lowercmd, if_pos (show 1 < c.cmds.r by omega)]
    rfl
  · have zero : c.cmds.r - 1 = 0 := by omega
    simp only [lowercmd, if_neg (show ¬ 1 < c.cmds.r by omega), zero]
    rfl

/-- The history as Tab leaves it where it finds no entry: the first one saves the line. -/
def tabcmds : Cmds :=
  if c.cmds.intab then c.cmds
  else { c.cmds with lastusedidx := 0, tmpcmd := fill (c.input.rawLine beyond) c.cmds.tmpcmd }

theorem consoleintr_tab (key : Key.ofCode code = .tab) :
    consoleintr beyond code c =
      match predicted beyond c with
      | none => { c with cmds := tabcmds beyond c }
      | some i => refill (c.cmds.buf i)
          { c with cmds := { tabcmds beyond c with intab := true, lastusedidx := i } } := by
  rw [consoleintr, key]
  by_cases inTab : c.cmds.intab = true
  · cases found : predicted beyond c <;> simp [predcmd, tabcmds, inTab, found]
  · cases found : predicted beyond c <;> simp [predcmd, copycmd, tabcmds, inTab, found]

end Recall

section Keys

variable {c : Console} {R W E : Nat}

/-- Only the line has changed. -/
theorem Tidy.edited {c' : Console} (tidy : Tidy c) (cmds : c'.cmds = c.cmds)
    (text : Text (lineText c'.input)) : Tidy c' := by
  refine ⟨text, ?_, ?_, ?_⟩
  · rw [cmds]
    exact tidy.entries
  · rw [cmds]
    exact tidy.saved
  · rw [cmds]
    exact tidy.place

/-- Another text in place of the line. -/
theorem refill_tidy {s : Nat → Byte} (tidy : Tidy c) (spans : c.input.Spans W E)
    (text : Text (cstr s)) : Tidy (refill s c) := by
  obtain ⟨-, line, -⟩ := refill_text s spans tidy.line.newline
  apply tidy.edited (refill_cmds s c)
  rw [line]
  exact text

theorem Input.Spans.short {s : Input} (spans : s.Spans W E) :
    (lineText s).length ≤ INPUT_BUF := by
  have room := spans.room
  rw [lineText_length, spans.length]
  omega

variable (beyond : Beyond)

/-- The text of the line, copied. -/
theorem cstr_copied (old : Nat → Byte) (spans : c.input.Spans W E) (nul : 0 ∉ lineText c.input)
    (flat : Flat c.input) : cstr (fill (c.input.rawLine beyond) old) = lineText c.input := by
  rw [rawLine_flat beyond flat, cstr_fill _ spans.short, takeWhile_of_nul nul]

/-- A row of the table is the text of the row above, and the first one that of the line. -/
theorem resetcmds_tidy (tidy : Tidy c) (spans : c.input.Spans W E) (flat : Flat c.input) :
    Tidy (resetcmds beyond c) := by
  have grown := resetcmds_w beyond c
  refine ⟨tidy.line, ?_, ?_, Nat.zero_le _⟩
  · intro i inTable
    cases i with
    | zero =>
      have row : cstr ((resetcmds beyond c).cmds.buf 0) = lineText c.input := by
        rw [← takeWhile_of_nul tidy.line.nul, ← cstr_getD spans.short]
        apply cstr_congr
        intro j inRow
        rw [resetcmds_buf beyond c 0 j inRow inTable, if_pos rfl, rawLine_flat beyond flat]
      rw [row]
      exact tidy.line
    | succ i =>
      have row : cstr ((resetcmds beyond c).cmds.buf (i + 1)) = cstr (c.cmds.buf i) := by
        apply cstr_congr
        intro j inRow
        rw [resetcmds_buf beyond c (i + 1) j inRow inTable, if_neg (by simp)]
        rfl
      rw [row]
      exact tidy.entries i (by omega)
  · exact .nil

theorem entered_tidy (code : Nat) (tidy : Tidy c) (spans : c.input.Spans W E)
    (flat : code = 10 ∧ c.input.e - c.input.w > 0 → Flat c.input) :
    Tidy (entered beyond code c) := by
  unfold entered
  split
  · rename_i enters
    have reset := resetcmds_tidy beyond tidy spans (flat enters)
    exact reset.edited rfl reset.line
  · exact tidy

/-- A byte that is neither a newline nor NUL is typed. -/
theorem inputputc_tidy (b : Byte) (tidy : Tidy c) (spans : c.input.Spans W E)
    (space : E < W + INPUT_BUF) (cursor : c.input.shift.toNat ≤ E - W) (plain : b ≠ newline)
    (some : b ≠ 0) : Tidy (inputputc b c) := by
  obtain ⟨-, text⟩ := inputputc_text b spans space cursor
  apply tidy.edited (inputputc_cmds b c)
  rw [text]
  intro b' inside
  rcases mem_append.mp inside with before | behind
  · exact tidy.line b' (mem_of_mem_take before)
  · rcases mem_cons.mp behind with rfl | behind
    · exact ⟨plain, some⟩
    · exact tidy.line b' (mem_of_mem_drop behind)

/-- A committed line leaves an empty one; a newline is always committed. -/
theorem commit_tidy (code : Nat) {c' : Console} (tidy : Tidy c) (cmds : c'.cmds = c.cmds)
    (stays : code ≠ 10 → Text (lineText c'.input)) : Tidy (commit code c') := by
  unfold commit
  split
  · refine tidy.edited ?_ ?_
    · exact cmds
    · rw [lineText_empty rfl]
      exact .nil
  · rename_i kept
    exact tidy.edited cmds (stays fun enter => kept (.inl enter))

theorem typed_tidy {code : Nat} (small : code < 256) (tidy : Tidy c) (counts : c.input.Counts R W E)
    (ok : (Key.typed code).Ok beyond c) (flat : Submits c.input code → Flat c.input) :
    Tidy (typed beyond code c) := by
  by_cases accepted : code ≠ 0 ∧ c.input.e - c.input.r < BitVec.ofNat 32 INPUT_BUF
  swap
  · rw [typed, if_neg accepted]
    exact tidy
  rw [typed, if_pos accepted]
  simp only
  have enter := enters_iff code c.input
  have plain : (if code = 13 then 10 else code) ≠ 10 → (if code = 13 then 10 else code) = code := by
    intro other
    split at other
    · exact absurd rfl other
    · rename_i notReturn
      rw [if_neg notReturn]
  generalize (if code = 13 then 10 else code) = code' at enter plain ⊢
  have homed : Tidy (entered beyond code' c) := by
    apply entered_tidy beyond _ tidy counts.spans
    intro enters
    exact flat ⟨enter.mpr enters, accepted.2⟩
  obtain ⟨-, w, e, -⟩ := entered_indices beyond code' c
  have spans : (entered beyond code' c).input.Spans W E := counts.spans.congr w e
  have cursor : (entered beyond code' c).input.shift.toNat ≤ E - W := by
    rw [← spans.length]
    apply entered_cursorInside beyond
    intro ordinary
    apply ok accepted
    intro enters
    exact ordinary (enter.mp enters)
  have space : E < W + 128 := by
    have free : (c.input.e - c.input.r).toNat < 128 := accepted.2
    have ordered := counts.rw
    rw [counts.used] at free
    omega
  apply commit_tidy code' homed (inputputc_cmds _ _)
  intro other
  have value : (UInt8.ofNat code').toNat = code' := by
    rw [UInt8.toNat_ofNat', plain other, Nat.mod_eq_of_lt small]
  refine (inputputc_tidy _ homed spans space cursor ?_ ?_).line
  · intro same
    rw [same] at value
    exact other value.symm
  · intro same
    rw [same] at value
    exact accepted.1 ((plain other).symm.trans value.symm)

/-- The history and its counters may change as long as the texts in it stay texts. -/
theorem Tidy.recalled {cmds : Cmds} (tidy : Tidy c) (buf : cmds.buf = c.cmds.buf)
    (w : cmds.w = c.cmds.w) (place : cmds.r ≤ cmds.w) (saved : Text (cstr cmds.tmpcmd)) :
    Tidy { c with cmds := cmds } := by
  refine ⟨tidy.line, ?_, saved, place⟩
  rw [buf, w]
  exact tidy.entries

theorem up_tidy {code : Nat} (key : Key.ofCode code = .up) (tidy : Tidy c)
    (spans : c.input.Spans W E) (flat : c.cmds.r = 0 → Flat c.input) :
    Tidy (consoleintr beyond code c) := by
  have saved : Text (cstr (savedcmd beyond c)) := by
    unfold savedcmd
    split
    · rename_i bottom
      rw [cstr_copied beyond _ spans tidy.line.nul (flat bottom)]
      exact tidy.line
    · exact tidy.saved
  rw [consoleintr_up beyond c key]
  split
  · exact tidy.recalled rfl rfl le_rfl saved
  · rename_i more
    refine refill_tidy (tidy.recalled rfl rfl (not_lt.mp more) saved) spans ?_
    exact tidy.entries _ (not_lt.mp more)

theorem text_lowercmd (tidy : Tidy c) : Text (cstr (lowercmd c)) := by
  have place := tidy.place
  unfold lowercmd
  split
  · exact tidy.entries _ (by omega)
  · exact tidy.saved

theorem down_tidy {code : Nat} (key : Key.ofCode code = .down) (tidy : Tidy c)
    (spans : c.input.Spans W E) : Tidy (consoleintr beyond code c) := by
  rw [consoleintr_down beyond c key]
  exact refill_tidy (tidy.recalled rfl rfl ((Nat.sub_le _ _).trans tidy.place) tidy.saved) spans
    (text_lowercmd tidy)

theorem tab_tidy {code : Nat} (key : Key.ofCode code = .tab) (tidy : Tidy c)
    (spans : c.input.Spans W E) (flat : c.cmds.intab = false → Flat c.input) :
    Tidy (consoleintr beyond code c) := by
  have kept : (tabcmds beyond c).buf = c.cmds.buf ∧ (tabcmds beyond c).w = c.cmds.w ∧
      (tabcmds beyond c).r = c.cmds.r := by
    unfold tabcmds
    split <;> exact ⟨rfl, rfl, rfl⟩
  obtain ⟨buf, w, r⟩ := kept
  have place : (tabcmds beyond c).r ≤ (tabcmds beyond c).w := by
    rw [r, w]
    exact tidy.place
  have saved : Text (cstr (tabcmds beyond c).tmpcmd) := by
    unfold tabcmds
    split
    · exact tidy.saved
    · rename_i first
      rw [cstr_copied beyond _ spans tidy.line.nul (flat (by simpa using first))]
      exact tidy.line
  rw [consoleintr_tab beyond c key]
  cases found : predicted beyond c with
  | none => exact tidy.recalled buf w place saved
  | some i =>
    have inTable : i < c.cmds.w := by
      have inside := mem_of_find?_eq_some found
      exact mem_range.mp (mem_of_mem_drop inside)
    have recalled : Tidy { c with
        cmds := { tabcmds beyond c with intab := true, lastusedidx := i } } :=
      tidy.recalled buf w place saved
    exact refill_tidy recalled spans (tidy.entries i inTable)

/-- **A key that finds what it relies on keeps the texts.** -/
theorem consoleintr_tidy {code : Nat} (small : code < 256) (tidy : Tidy c)
    (counts : c.input.Counts R W E) (ok : (Key.ofCode code).Ok beyond c)
    (flat : (Key.ofCode code).Copies c → Flat c.input) : Tidy (consoleintr beyond code c) := by
  have spans := counts.spans
  -- the line erased
  have erased : Tidy (conseraseline c) := by
    apply tidy.edited (conseraseline_cmds c)
    rw [conseraseline_plain spans tidy.line.newline, lineText_empty rfl]
    exact .nil
  cases key : Key.ofCode code <;> rw [key] at ok flat
  case up => exact up_tidy beyond key tidy spans flat
  case down => exact down_tidy beyond key tidy spans
  case tab => exact tab_tidy beyond key tidy spans flat
  all_goals
    unfold consoleintr
    rw [key]
    simp only
  case procdump | stop => exact tidy.edited rfl tidy.line
  case killLine => exact erased
  case clear => exact erased.edited rfl erased.line
  case backspace =>
      split
      · rename_i deletes
        have cursor : c.input.shift ≤ c.input.e - c.input.w := ok deletes
        have below : c.input.shift.toNat < E - W := by
          rw [← spans.length]
          bv_omega
        obtain ⟨-, text⟩ := inputshiftleft_text spans below
        refine tidy.edited ?_ ?_
        · rfl
        change Text (lineText c.input.inputshiftleft)
        rw [text]
        apply tidy.line.subset
        intro b inside
        rcases mem_append.mp inside with before | behind
        · exact mem_of_mem_take before
        · exact mem_of_mem_drop behind
      · exact tidy
  case left | right | start =>
      split
      · exact tidy.edited rfl tidy.line
      · exact tidy
  case delnums =>
      apply refill_tidy tidy spans
      rw [cstr_delnumsLine spans]
      apply tidy.line.subset
      intro b inside
      exact mem_of_mem_filter ((takeWhile_sublist _).mem inside)
  case typed code' =>
      cases Key.ofCode_typed key
      exact typed_tidy beyond small tidy counts ok flat

end Keys

/-! ## Runs -/

/-- The condition on a step: a key is a byte, finds what the delivery of lines relies on, and, if it
copies the line, finds it within the first pass over the ring. -/
def Careful (s : State) : Event → Prop
  | .key code beyond =>
    Admitted s (.key code beyond) ∧ code < 256 ∧
      ((Key.ofCode code).Copies s.con → Flat s.con.input)
  | .read _ _ _ | .resume _ _ => True

instance (s : State) : ∀ e, Decidable (Careful s e)
  | .key code _ =>
    inferInstanceAs (Decidable (Admitted _ _ ∧ _ ∧ ((Key.ofCode code).Copies s.con → _)))
  | .read _ _ _ | .resume _ _ => .isTrue trivial

variable {s : State}

theorem Careful.admitted {e : Event} (careful : Careful s e) : Admitted s e := by
  cases e with
  | key code beyond => exact careful.1
  | read p n killed => trivial
  | resume p killed => trivial

/-- A reader changes nothing of the line. -/
theorem runCall_tidy (inv : Inv s) (tidy : Tidy s.con) (p : Nat) (call : Call) (killed : Bool) :
    Tidy (runCall s p call killed).con := by
  obtain ⟨R, W, E, counts⟩ := inv.counts
  obtain ⟨w, e, -⟩ := readLoop_indices call.target call.n s.con.input call.dst []
  obtain ⟨-, -, -, buf, -⟩ := readLoop_takes call.target call.n counts call.dst []
  rw [runCall_con]
  refine tidy.edited ?_ ?_
  · rfl
  · have same : lineText (readLoop call.target call.n s.con.input call.dst []).input =
        lineText s.con.input := by
      simp only [lineText, Input.get, w, e, buf]
    rw [same]
    exact tidy.line

theorem step_tidy {s' : State} {e : Event} (inv : Inv s) (tidy : Tidy s.con) (careful : Careful s e)
    (stepped : step s e = some s') : Tidy s'.con := by
  cases e with
  | key code beyond =>
    cases stepped
    obtain ⟨R, W, E, counts⟩ := inv.counts
    obtain ⟨ok, small, flat⟩ := careful
    exact consoleintr_tidy beyond small tidy counts ok flat
  | read p n killed =>
    obtain ⟨-, ⟨⟩⟩ := Option.ite_none_right_eq_some.mp stepped
    exact runCall_tidy inv tidy p _ killed
  | resume p killed =>
    obtain ⟨call, -, rfl⟩ := Option.map_eq_some_iff.mp stepped
    exact runCall_tidy inv tidy p call killed

/-- What holds along a careful run. -/
structure TextInv (s : State) : Prop where
  ring : Inv s
  tidy : Tidy s.con

/-- **The texts stay texts** along careful runs. -/
theorem reach_tidy (reached : system.Reach Careful s) : TextInv s := by
  refine System.Reach.invariant ?_ ?_ reached
  · intro s start
    have ring : Inv s := reach_inv (.start start)
    refine ⟨ring, ?_⟩
    obtain ⟨-, w, e, -, r, written, -, -, -, tmp, -⟩ := start
    refine ⟨?_, ?_, ?_, ?_⟩
    · rw [lineText_empty (e.trans w.symm)]
      exact .nil
    · rw [written]
      intro i inTable
      exact absurd inTable (Nat.not_lt_zero i)
    · rw [cstr_nul (tmp 0)]
      exact .nil
    · rw [r]
      exact Nat.zero_le _
  · rintro s e s' ⟨inv, tidy⟩ careful stepped
    exact ⟨step_inv inv careful.admitted stepped, step_tidy inv tidy careful stepped⟩

end Xv6.Cons
