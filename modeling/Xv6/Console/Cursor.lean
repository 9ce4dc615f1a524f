/-
# Xv6.Console.Cursor -- the edit cursor and the line it edits

`input.shift` counts how far the cursor stands before the end of the line, so it should never exceed
the length `e - w` of the line. Every key but one keeps that relation by itself: the keys that move
the cursor test it, Backspace shortens the line only when the cursor is past its start, and the keys
that replace the line put the cursor at its end. A key that commits the line empties it; Enter on a
line with text resets `shift` first, and the two other ways to commit (Ctrl-D, and the byte that
fills the ring) do not.

* `consoleintr_cursorInside`: the condition under which a key keeps the cursor inside, as an `iff`;
* `edit_inside_line`: with the cursor inside, insertion and deletion touch only cells of the line;
* `cursor_inside_runs`: both along every run whose lines fit the arrays that keys copy them to.
-/
import Xv6.Console.Delivery

namespace Xv6.Cons
open Lib
set_option autoImplicit false

/-- `input.shift <= input.e - input.w`; the subtraction and the comparison are unsigned. -/
def CursorInside (s : Input) : Prop := s.shift ≤ s.e - s.w
deriving Decidable

/-- What a key relies on: the line it empties has the cursor at its end.

Only the default case of `consoleintr` can empty the line without moving the cursor. It does when it
commits (by Ctrl-D, or with the byte that fills the ring), and when the length of the line leaves the
range of a `uint`. -/
def Key.Homed (s : Input) : Key → Prop
  | .typed code =>
    code ≠ 0 ∧ s.e - s.r < BitVec.ofNat 32 INPUT_BUF →
      ¬ ((code = 10 ∨ code = 13) ∧ s.e - s.w > 0) →
        (code = 4 ∨ s.e + 1 = s.r + BitVec.ofNat 32 INPUT_BUF ∨ s.e + 1 = s.w) → s.shift = 0
  | _ => True

instance (s : Input) : ∀ key : Key, Decidable (key.Homed s)
  | .typed _ => inferInstanceAs (Decidable (_ → ¬ _ → _ → _))
  | .procdump | .killLine | .backspace | .clear | .left | .right | .delnums | .start | .stop | .up
  | .down | .tab => .isTrue trivial

/-- The arrays of `INPUT_BUF` bytes that a key copies the line to have room for it: a row of the
history (Enter), `tmpcmd` (Arrow Up, Tab), and the array of `delnums`, which holds a NUL too. Tab also
compares the line with the rows. -/
def Key.Room (c : Console) : Key → Prop
  | .typed code =>
    (code = 10 ∨ code = 13) ∧ c.input.e - c.input.r < BitVec.ofNat 32 INPUT_BUF →
      (c.input.e - c.input.w).toNat ≤ INPUT_BUF
  | .up => c.cmds.r = 0 → (c.input.e - c.input.w).toNat ≤ INPUT_BUF
  | .tab => (c.input.e - c.input.w).toNat ≤ INPUT_BUF
  | .delnums => (List.range (c.input.e - c.input.w).toNat).countP
      (fun k => !isDigit (c.input.get (c.input.w + BitVec.ofNat 32 k))) < INPUT_BUF
  | _ => True

instance (c : Console) : ∀ key : Key, Decidable (key.Room c)
  | .typed _ => inferInstanceAs (Decidable (_ ∧ _ → (_ : Nat) ≤ _))
  | .up => inferInstanceAs (Decidable (_ → (_ : Nat) ≤ _))
  | .tab => Nat.decLe ..
  | .delnums => Nat.decLt ..
  | .procdump | .killLine | .backspace | .clear | .left | .right | .start | .stop | .down =>
    .isTrue trivial

/-! ## Passes over the line -/

/-- A pass of stores, as the loops of the editing functions make them: it keeps the indices, and the
cells it does not aim at. -/
structure Passed (away : Nat → Prop) (s s' : Input) : Prop where
  r : s'.r = s.r
  w : s'.w = s.w
  e : s'.e = s.e
  shift : s'.shift = s.shift
  cells : ∀ j, away j → s'.buf j = s.buf j

namespace Passed

variable {away : Nat → Prop} {s s' s'' : Input}

theorem refl : Passed away s s := ⟨rfl, rfl, rfl, rfl, fun _ _ => rfl⟩

theorem trans (first : Passed away s s') (second : Passed away s' s'') : Passed away s s'' where
  r := second.r.trans first.r
  w := second.w.trans first.w
  e := second.e.trans first.e
  shift := second.shift.trans first.shift
  cells j outside := (second.cells j outside).trans (first.cells j outside)

theorem put {i : Word} (b : Byte) (aim : ¬ away (i.toNat % INPUT_BUF)) :
    Passed away s (s.put i b) := by
  refine ⟨rfl, rfl, rfl, rfl, ?_⟩
  intro j outside
  have other : j ≠ i.toNat % INPUT_BUF := by
    rintro rfl
    exact aim outside
  show Function.update s.buf (i.toNat % INPUT_BUF) b j = s.buf j
  rw [Function.update_of_ne other]

/-- A loop of stores at indices that depend on `e` only. -/
theorem foldl {σ : Type} (steps : List σ) (target : Word → σ → Word)
    (value : Input → σ → Byte)
    (aim : ∀ x ∈ steps, ¬ away ((target s.e x).toNat % INPUT_BUF)) :
    Passed away s (steps.foldl (fun s x => s.put (target s.e x) (value s x)) s) := by
  induction steps generalizing s with
  | nil => exact refl
  | cons x rest ih =>
    have first : Passed away s (s.put (target s.e x) (value s x)) := put _ (aim x (by simp))
    refine first.trans (ih ?_)
    intro y inside
    exact aim y (by simp [inside])

end Passed

theorem inputshiftright_passed (s : Input) : Passed (fun _ => False) s s.inputshiftright :=
  Passed.foldl _ (fun e k => e - BitVec.ofNat 32 k)
    (fun s k => s.get (s.e - BitVec.ofNat 32 k - 1)) (by simp)

theorem inputshiftleft_indices (s : Input) :
    s.inputshiftleft.r = s.r ∧ s.inputshiftleft.w = s.w ∧ s.inputshiftleft.e = s.e - 1 ∧
      s.inputshiftleft.shift = s.shift := by
  have pass : Passed (fun _ => False) s _ := Passed.foldl
    ((List.range ((s.shift + 1).toInt - 1).toNat).map fun k => s.shift + 1 - BitVec.ofNat 32 k)
    (fun e i => e - i) (fun s i => s.get (s.e - i + 1)) (by simp)
  exact ⟨pass.r, pass.w, congrArg (· - 1) pass.e, pass.shift⟩

theorem inputputc_indices (b : Byte) (c : Console) :
    (inputputc b c).input.r = c.input.r ∧ (inputputc b c).input.w = c.input.w ∧
      (inputputc b c).input.e = c.input.e + 1 ∧ (inputputc b c).input.shift = c.input.shift := by
  have pass := inputshiftright_passed c.input
  rw [inputputc_input]
  split
  · exact ⟨rfl, rfl, rfl, rfl⟩
  · exact ⟨pass.r, pass.w, congrArg (· + 1) pass.e, pass.shift⟩

/-! ## The keys that replace the line leave the cursor at its end -/

theorem eraseLoop_shift (n : Nat) (c : Console) :
    (eraseLoop n c).input.shift = c.input.shift := by
  induction n generalizing c with
  | zero => rfl
  | succ n ih =>
    simp only [eraseLoop]
    split
    · exact ih _
    · rfl

theorem conseraseline_shift (c : Console) : (conseraseline c).input.shift = 0 :=
  eraseLoop_shift _ _

theorem foldl_putEnd_shift (text : List Byte) (c : Console) :
    (text.foldl putEnd c).input.shift = c.input.shift := by
  induction text generalizing c with
  | nil => rfl
  | cons b rest ih => exact ih (putEnd c b)

theorem refill_shift (s : Nat → Byte) (c : Console) : (refill s c).input.shift = 0 :=
  (foldl_putEnd_shift _ _).trans (conseraseline_shift c)

variable {s : Input} {c : Console} {j : Nat}

theorem CursorInside.of_zero (home : s.shift = 0) : CursorInside s := by
  show s.shift.toNat ≤ (s.e - s.w).toNat
  rw [home]
  exact Nat.zero_le _

/-! ## The keys that load a line -/

/-- What an arrow key, Tab and Ctrl-N may do: bookkeeping that keeps the stored lines, and then
possibly another text in place of the line. -/
inductive Loads (c : Console) : Console → Prop where
  | keep (cmds : Cmds) (buf : cmds.buf = c.cmds.buf) (w : cmds.w = c.cmds.w) :
      Loads c { c with cmds := cmds }
  | refill (s : Nat → Byte) (cmds : Cmds) (buf : cmds.buf = c.cmds.buf) (w : cmds.w = c.cmds.w) :
      Loads c (refill s { c with cmds := cmds })

/-- The keys that load a line. -/
def Key.loads : Key → Bool
  | .delnums | .up | .down | .tab => true
  | _ => false

variable (beyond : Beyond)

theorem consoleintr_loads {code : Nat} (c : Console) (loading : (Key.ofCode code).loads = true) :
    Loads c (consoleintr beyond code c) := by
  unfold consoleintr
  cases key : Key.ofCode code <;> rw [key] at loading
  case delnums => exact .refill _ c.cmds rfl rfl
  case up =>
      by_cases first : c.cmds.r = 0
      · simp only [if_pos first]
        split
        · exact .keep _ rfl rfl
        · exact .refill _ _ rfl rfl
      · simp only [if_neg first]
        split
        · exact .keep _ rfl rfl
        · exact .refill _ _ rfl rfl
  case down =>
      simp only
      split
      · exact .refill _ _ rfl rfl
      · exact .refill _ _ rfl rfl
  case tab =>
      simp only [predcmd]
      by_cases inTab : c.cmds.intab = true
      · simp only [if_pos inTab]
        cases predicted beyond c with
        | none => exact .keep c.cmds rfl rfl
        | some i => exact .refill _ _ rfl rfl
      · simp only [if_neg inTab]
        cases predicted beyond c with
        | none => exact .keep _ rfl rfl
        | some i => exact .refill _ _ rfl rfl
  all_goals cases loading

theorem Loads.cursorInside {c' : Console} (loads : Loads c c') (inside : CursorInside c.input) :
    CursorInside c'.input := by
  cases loads with
  | keep cmds => exact inside
  | refill s cmds => exact .of_zero (refill_shift s _)

/-! ## One key -/

/-- Enter on a line with text. -/
def Enters (code : Nat) (s : Input) : Prop := (code = 10 ∨ code = 13) ∧ s.e - s.w > 0
deriving Decidable

theorem entered_indices (code : Nat) (c : Console) :
    (entered beyond code c).input.r = c.input.r ∧ (entered beyond code c).input.w = c.input.w ∧
      (entered beyond code c).input.e = c.input.e ∧
      (entered beyond code c).input.shift =
        if code = 10 ∧ c.input.e - c.input.w > 0 then 0 else c.input.shift := by
  unfold entered
  split
  · exact ⟨rfl, rfl, rfl, rfl⟩
  · exact ⟨rfl, rfl, rfl, rfl⟩

/-- When the byte goes in, the cursor is inside the line: Enter on a line with text has moved it to
the end. -/
theorem entered_cursorInside (code : Nat)
    (inside : ¬ (code = 10 ∧ c.input.e - c.input.w > 0) → CursorInside c.input) :
    CursorInside (entered beyond code c).input := by
  obtain ⟨-, w, e, shift⟩ := entered_indices beyond code c
  by_cases enter : code = 10 ∧ c.input.e - c.input.w > 0
  · rw [if_pos enter] at shift
    exact .of_zero shift
  · rw [if_neg enter] at shift
    show (entered beyond code c).input.shift ≤ _
    rw [w, e, shift]
    exact inside enter

/-- The indices once the byte is in and before the line is committed. -/
theorem typed_indices (code : Nat) (c : Console) :
    let code' := if code = 13 then 10 else code
    let t := inputputc (UInt8.ofNat code') (entered beyond code' c)
    t.input.r = c.input.r ∧ t.input.w = c.input.w ∧ t.input.e = c.input.e + 1 ∧
      t.input.shift = if Enters code c.input then 0 else c.input.shift := by
  intro code' t
  obtain ⟨r, w, e, shift⟩ := inputputc_indices (UInt8.ofNat code') (entered beyond code' c)
  obtain ⟨r', w', e', shift'⟩ := entered_indices beyond code' c
  have enter : (code' = 10 ∧ c.input.e - c.input.w > 0) ↔ Enters code c.input := by
    show ((if code = 13 then 10 else code) = 10 ∧ _) ↔ (code = 10 ∨ code = 13) ∧ _
    by_cases isReturn : code = 13
    · simp [isReturn]
    · simp [isReturn]
  refine ⟨r.trans r', w.trans w', e.trans (congrArg (· + 1) e'), shift.trans ?_⟩
  rw [shift', if_congr enter rfl rfl]

/-- Whether the cursor is inside once the line is committed, or grown by one byte. -/
theorem commit_cursorInside {code code' : Nat} {t : Console} (inside : CursorInside s)
    (enter : code' = 10 ↔ code = 10 ∨ code = 13) (eot : code' = 4 ↔ code = 4) (r : t.input.r = s.r)
    (w : t.input.w = s.w) (e : t.input.e = s.e + 1)
    (shift : t.input.shift = if Enters code s then 0 else s.shift) :
    CursorInside (commit code' t).input ↔
      (¬ Enters code s →
        (code = 4 ∨ s.e + 1 = s.r + BitVec.ofNat 32 INPUT_BUF ∨ s.e + 1 = s.w) → s.shift = 0) := by
  have fits : s.shift ≤ s.e - s.w := inside
  by_cases enters : Enters code s
  · rw [if_pos enters] at shift
    refine iff_of_true (.of_zero ?_) fun ordinary => absurd enters ordinary
    unfold commit
    split
    · exact shift
    · exact shift
  · rw [if_neg enters] at shift
    simp only [enters, not_false_eq_true, forall_const]
    unfold commit
    split
    · -- the line is empty now
      rename_i commits
      show t.input.shift ≤ t.input.e - t.input.e ↔ _
      rw [shift, BitVec.sub_self, BitVec.le_zero_iff]
      refine ⟨fun home _ => home, fun home => ?_⟩
      rw [e, r] at commits
      rcases commits with entered | ended | full
      · -- Enter on an empty line
        have empty : ¬ s.e - s.w > 0 := fun text => enters ⟨enter.mp entered, text⟩
        bv_omega
      · exact home (.inl (eot.mp ended))
      · exact home (.inr (.inl full))
    · rename_i open'
      rw [not_or, not_or, e, r] at open'
      show t.input.shift ≤ t.input.e - t.input.w ↔ _
      rw [shift, e, w]
      constructor
      · rintro grown (ended | full | wraps)
        · exact absurd (eot.mpr ended) open'.2.1
        · exact absurd full open'.2.2
        · rw [wraps, BitVec.sub_self, BitVec.le_zero_iff] at grown
          exact grown
      · intro home
        by_cases wraps : s.e + 1 = s.w
        · bv_omega
        · bv_omega

/-- The default case. -/
theorem typed_cursorInside (code : Nat) (inside : CursorInside c.input) :
    CursorInside (typed beyond code c).input ↔ (Key.typed code).Homed c.input := by
  simp only [typed, Key.Homed]
  by_cases accepted : code ≠ 0 ∧ c.input.e - c.input.r < BitVec.ofNat 32 INPUT_BUF
  · rw [if_pos accepted]
    obtain ⟨r, w, e, shift⟩ := typed_indices beyond code c
    have enter : (if code = 13 then 10 else code) = 10 ↔ code = 10 ∨ code = 13 := by
      by_cases isReturn : code = 13
      · simp [isReturn]
      · simp [isReturn]
    have eot : (if code = 13 then 10 else code) = 4 ↔ code = 4 := by
      by_cases isReturn : code = 13
      · simp [isReturn]
      · simp [isReturn]
    have kept := commit_cursorInside inside enter eot r w e shift
    exact ⟨fun after _ => kept.mp after, fun homed => kept.mpr (homed accepted)⟩
  · rw [if_neg accepted]
    exact ⟨fun _ entered => absurd entered accepted, fun _ => inside⟩

theorem consoleintr_cursorInside (code : Nat) (inside : CursorInside c.input) :
    CursorInside (consoleintr beyond code c).input ↔ (Key.ofCode code).Homed c.input := by
  by_cases loading : (Key.ofCode code).loads = true
  · have kept := (consoleintr_loads beyond c loading).cursorInside inside
    cases key : Key.ofCode code <;> rw [key] at loading
    case delnums | up | down | tab => exact iff_of_true kept trivial
    all_goals cases loading
  unfold consoleintr
  cases key : Key.ofCode code with
  | typed code => exact typed_cursorInside beyond code inside
  | procdump => exact iff_of_true inside trivial
  | killLine | clear => exact iff_of_true (.of_zero (conseraseline_shift c)) trivial
  | delnums | up | down | tab => exact absurd (by rw [key]; rfl) loading
  | stop => exact iff_of_true (.of_zero rfl) trivial
  | backspace =>
    refine iff_of_true ?_ trivial
    simp only
    split
    · obtain ⟨-, w, e, shift⟩ := inputshiftleft_indices c.input
      show c.input.inputshiftleft.shift ≤ c.input.inputshiftleft.e - c.input.inputshiftleft.w
      have fits : c.input.shift ≤ c.input.e - c.input.w := inside
      bv_omega
    · exact inside
  | left =>
    refine iff_of_true ?_ trivial
    simp only
    split
    · show c.input.shift + 1 ≤ c.input.e - c.input.w
      bv_omega
    · exact inside
  | right =>
    refine iff_of_true ?_ trivial
    simp only
    split
    · show c.input.shift - 1 ≤ c.input.e - c.input.w
      have fits : c.input.shift ≤ c.input.e - c.input.w := inside
      bv_omega
    · exact inside
  | start =>
    refine iff_of_true ?_ trivial
    simp only
    split
    · exact BitVec.le_refl _
    · exact inside

/-! ## What an edit touches -/

/-- A cell of the line: a position from `w` up to and including `e`. -/
def LineCell (s : Input) (j : Nat) : Prop :=
  ∃ k ≤ (s.e - s.w).toNat, j = (s.w + BitVec.ofNat 32 k).toNat % INPUT_BUF

/-- Counting back from the end of the line at most to its start. -/
theorem lineCell_back {i : Word} (inside : i ≤ s.e - s.w) :
    LineCell s ((s.e - i).toNat % INPUT_BUF) := by
  refine ⟨(s.e - s.w - i).toNat, ?_, ?_⟩
  · bv_omega
  · have index : s.w + BitVec.ofNat 32 (s.e - s.w - i).toNat = s.e - i := by
      bv_omega
    rw [index]

/-- Insertion at the cursor. -/
theorem inputputc_touches (b : Byte) (inside : CursorInside c.input)
    (outside : ¬ LineCell c.input j) : (inputputc b c).input.buf j = c.input.buf j := by
  have fits : c.input.shift ≤ c.input.e - c.input.w := inside
  rw [inputputc_input]
  split
  · have pass : Passed (fun j => ¬ LineCell c.input j) c.input (c.input.put c.input.e b) := by
      refine Passed.put b (not_not_intro ?_)
      have last := lineCell_back (s := c.input) (i := 0) (by bv_omega)
      simpa using last
    exact pass.cells j outside
  · have moved : Passed (fun j => ¬ LineCell c.input j) c.input c.input.inputshiftright := by
      refine Passed.foldl _ (fun e k => e - BitVec.ofNat 32 k)
        (fun s k => s.get (s.e - BitVec.ofNat 32 k - 1)) fun k inRange => not_not_intro ?_
      apply lineCell_back
      have := List.mem_range.mp inRange
      bv_omega
    have stored := moved.trans (Passed.put
      (i := c.input.inputshiftright.e - c.input.inputshiftright.shift) b (not_not_intro (by
        rw [moved.e, moved.shift]
        exact lineCell_back fits)))
    exact stored.cells j outside

/-- Deletion before the cursor. -/
theorem inputshiftleft_touches (room : s.shift < s.e - s.w) (outside : ¬ LineCell s j) :
    s.inputshiftleft.buf j = s.buf j := by
  have pass : Passed (fun j => ¬ LineCell s j) s
      (((List.range ((s.shift + 1).toInt - 1).toNat).map fun k =>
        s.shift + 1 - BitVec.ofNat 32 k).foldl (fun s i => s.put (s.e - i) (s.get (s.e - i + 1))) s) := by
    refine Passed.foldl _ (fun e i => e - i) (fun s i => s.get (s.e - i + 1)) fun i inSteps => ?_
    obtain ⟨k, inRange, rfl⟩ := List.mem_map.mp inSteps
    refine not_not_intro (lineCell_back ?_)
    have below := List.mem_range.mp inRange
    have rounds : ((s.shift + 1).toInt - 1).toNat ≤ (s.shift + 1).toNat := by
      rw [BitVec.toInt_eq_toNat_cond]
      split <;> omega
    bv_omega
  exact pass.cells j outside

/-- The keys that insert or delete at the cursor. -/
def Key.edits : Key → Bool
  | .backspace | .typed _ => true
  | _ => false

/-- With the cursor inside the line, insertion and deletion leave alone every cell outside it. -/
theorem edit_inside_line {code : Nat} (inside : CursorInside c.input)
    (edits : (Key.ofCode code).edits = true) (outside : ¬ LineCell c.input j) :
    (consoleintr beyond code c).input.buf j = c.input.buf j := by
  unfold consoleintr
  cases key : Key.ofCode code <;> rw [key] at edits
  case backspace =>
      simp only
      split
      · have fits : c.input.shift ≤ c.input.e - c.input.w := inside
        exact inputshiftleft_touches (by bv_omega) outside
      · rfl
  case typed code =>
      simp only [typed]
      split
      · -- Enter moves the cursor to the end first, which keeps it inside
        have buf (code : Nat) : (entered beyond code c).input.buf = c.input.buf := by
          unfold entered
          split <;> rfl
        have homed (code : Nat) := entered_cursorInside beyond code fun _ => inside
        have same (code : Nat) (t : Console) : (commit code t).input.buf = t.input.buf := by
          unfold commit
          split <;> rfl
        rw [same, inputputc_touches _ (homed _), buf]
        obtain ⟨-, w, e, -⟩ := entered_indices beyond (if code = 13 then 10 else code) c
        rw [LineCell, w, e]
        exact outside
      · rfl
  all_goals cases edits

/-! ## Runs -/

theorem readLoop_indices (target n : Nat) (s : Input) (dst took : List Byte) :
    (readLoop target n s dst took).input.w = s.w ∧ (readLoop target n s dst took).input.e = s.e ∧
      (readLoop target n s dst took).input.shift = s.shift := by
  induction n generalizing s dst took with
  | zero => exact ⟨rfl, rfl, rfl⟩
  | succ n ih =>
    simp only [readLoop]
    split
    · exact ⟨rfl, rfl, rfl⟩
    · split
      · split
        · exact ⟨rfl, rfl, rfl⟩
        · exact ⟨rfl, rfl, rfl⟩
      · split
        · exact ⟨rfl, rfl, rfl⟩
        · exact ih _ _ _

/-- A reader moves `r` only. -/
theorem runCall_cursorInside {s : State} (inside : CursorInside s.con.input) (p : Nat) (call : Call)
    (killed : Bool) : CursorInside (runCall s p call killed).con.input := by
  obtain ⟨w, e, shift⟩ := readLoop_indices call.target call.n s.con.input call.dst []
  rw [runCall_con, CursorInside, w, e, shift]
  exact inside

/-- The condition on a step: keys that copy the line have room for it, and keys that empty it find the
cursor at its end. -/
def HomedStep (s : State) : Event → Prop
  | .key code _ => (Key.ofCode code).Room s.con ∧ (Key.ofCode code).Homed s.con.input
  | .read _ _ _ | .resume _ _ => True

instance (s : State) : ∀ e, Decidable (HomedStep s e)
  | .key _ _ => inferInstanceAs (Decidable (Key.Room _ _ ∧ Key.Homed _ _))
  | .read _ _ _ | .resume _ _ => .isTrue trivial

theorem step_cursorInside {s s' : State} {e : Event} (inside : CursorInside s.con.input)
    (homed : HomedStep s e) (stepped : step s e = some s') : CursorInside s'.con.input := by
  cases e with
  | key code beyond =>
    cases stepped
    exact (consoleintr_cursorInside beyond code inside).mpr homed.2
  | read p n killed =>
    obtain ⟨-, ⟨⟩⟩ := Option.ite_none_right_eq_some.mp stepped
    exact runCall_cursorInside inside p _ killed
  | resume p killed =>
    obtain ⟨call, -, rfl⟩ := Option.map_eq_some_iff.mp stepped
    exact runCall_cursorInside inside p call killed

theorem reach_cursorInside {s : State} (reached : system.Reach HomedStep s) :
    CursorInside s.con.input := by
  induction reached with
  | start initial =>
    obtain ⟨-, -, -, shift, -⟩ := initial
    exact .of_zero shift
  | step _ homed stepped inside => exact step_cursorInside inside homed stepped

/-- **The edit cursor stays inside the line.** In every state of a run in which every key that copies
the line has room for it, and every key that empties it finds the cursor at its end, the cursor is
inside the line, and insertion and deletion touch cells of the line only. The condition on the cursor
is exact: a key with room that does not meet it takes the cursor out. -/
theorem cursor_inside_runs {s : State} (reached : system.Reach HomedStep s) :
    CursorInside s.con.input ∧
      ∀ code beyond, (Key.ofCode code).Room s.con →
        (∀ j, (Key.ofCode code).edits = true → ¬ LineCell s.con.input j →
          (pressed s code beyond).con.input.buf j = s.con.input.buf j) ∧
        (CursorInside (pressed s code beyond).con.input ↔ HomedStep s (.key code beyond)) := by
  have inside := reach_cursorInside reached
  refine ⟨inside, fun code beyond room => ⟨fun j edits outside => ?_, ?_⟩⟩
  · exact edit_inside_line beyond inside edits outside
  · exact (consoleintr_cursorInside beyond code inside).trans (and_iff_right room).symm

theorem cursor_inside_typedLine :
    CursorInside afterLine.con.input ∧ afterLine.con.input.w = 4 := by
  have homed : system.Admits HomedStep boot typedLine := by decide
  have reached : system.Reach HomedStep afterLine := .run (.start boot_start) homed rfl
  exact ⟨(cursor_inside_runs reached).1, by decide⟩

/-- `a`, left, Ctrl-D. -/
def ctrlDBack : List Event := [key 97, key 2, key 4]

def afterCtrlDBack : State := (system.run boot ctrlDBack).getD boot

/-- The line is empty and the cursor one place before it; the next byte goes to a committed cell. -/
theorem ctrlD_leaves_cursor_outside :
    system.Reachable afterCtrlDBack ∧ ¬ CursorInside afterCtrlDBack.con.input ∧
      afterCtrlDBack.con.input.shift = 1 ∧
      afterCtrlDBack.con.input.e - afterCtrlDBack.con.input.w = 0 ∧
      (pressed afterCtrlDBack 120 fun _ => 0).con.input.buf 1 ≠ afterCtrlDBack.con.input.buf 1 ∧
      (unread afterCtrlDBack.con.input)[1]? = some (afterCtrlDBack.con.input.buf 1) :=
  ⟨System.reachable_of_run ctrlDBack boot_start rfl, by decide, by decide, by decide, by decide,
    by decide⟩

end Xv6.Cons
