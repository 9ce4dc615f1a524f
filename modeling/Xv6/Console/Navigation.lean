/-
# Xv6.Console.Navigation -- the arrow keys and the history

From the line being typed, Arrow Up goes to the last submitted line, the one before it, and so on, and
Arrow Down goes back, to the line being typed in the end. The place is `cmds.r`, counted from the line
being typed; that line is parked in `cmds.tmpcmd` meanwhile.

Two things go wrong. Arrow Down at the line being typed loads `tmpcmd` although nothing was parked
there, and the line is lost. And the line is parked by `copycmd`, which reads the ring without wrapping
the index. `history_navigation`: a sequence of arrow keys goes where it should as long as neither
happens, and these are exactly the states from which every sequence does.
-/
import Xv6.Console.Texts

namespace Xv6.Cons
open Lib
set_option autoImplicit false

inductive Arrow where
  | up | down
  deriving DecidableEq, Repr

namespace Arrow

def code : Arrow → Nat
  | up => 226
  | down => 227

/-- Where the key should go, in a history of `w` lines. -/
def move (w p : Nat) : Arrow → Nat
  | up => min (p + 1) w
  | down => p - 1

/-- What the key relies on. -/
def Ok (c : Console) : Arrow → Prop
  | up => c.cmds.r = 0 → Flat c.input
  | down => c.cmds.r = 0 → cstr c.cmds.tmpcmd = lineText c.input

end Arrow

def pressArrow (c : Console) (key : Arrow × Beyond) : Console := consoleintr key.2 key.1.code c

def pressArrows (c : Console) (keys : List (Arrow × Beyond)) : Console := keys.foldl pressArrow c

/-- The place a sequence should end at, from the line being typed. -/
def place (w : Nat) (keys : List (Arrow × Beyond)) : Nat :=
  keys.foldl (fun p key => key.1.move w p) 0

/-- The text at a place: the line itself, or the `p`-th last submitted line. -/
def recalled (c : Console) (p : Nat) : List Byte :=
  if p = 0 then lineText c.input else cstr (c.cmds.buf (p - 1))

/-- The sequence brings back the line it should. -/
def Navigates (c : Console) (keys : List (Arrow × Beyond)) : Prop :=
  lineText (pressArrows c keys).input = recalled c (place c.cmds.w keys)

/-- Every key of the sequence finds what it relies on. -/
def ArrowsOk : Console → List (Arrow × Beyond) → Prop
  | _, [] => True
  | c, key :: rest => key.1.Ok c ∧ ArrowsOk (pressArrow c key) rest

variable (beyond : Beyond)

section Steps

variable {origin c : Console} {W p : Nat}

/-- The console stands at place `p` of the history of `origin`. Away from the line being typed, that
line is parked. -/
structure Stands (origin : Console) (W : Nat) (c : Console) (p : Nat) : Prop where
  tidy : Tidy c
  spans : c.input.Spans W (W + (recalled origin p).length)
  text : lineText c.input = recalled origin p
  r : c.cmds.r = p
  w : c.cmds.w = origin.cmds.w
  buf : c.cmds.buf = origin.cmds.buf
  parked : p ≠ 0 → cstr c.cmds.tmpcmd = lineText origin.input

section

variable (stands : Stands origin W c p)
include stands

/-- Another line is loaded. -/
theorem Stands.load {s : Nat → Byte} {cmds : Cmds} {q : Nat} (text : cstr s = recalled origin q)
    (r : cmds.r = q) (w : cmds.w = c.cmds.w) (buf : cmds.buf = c.cmds.buf)
    (tidy : Tidy (refill s { c with cmds := cmds }))
    (parked : q ≠ 0 → cstr cmds.tmpcmd = lineText origin.input) :
    Stands origin W (refill s { c with cmds := cmds }) q := by
  obtain ⟨spans, line, -⟩ := @refill_text { c with cmds := cmds } _ _ s stands.spans
    stands.tidy.line.newline
  have kept := refill_cmds s { c with cmds := cmds }
  refine ⟨tidy, ?_, ?_, ?_, ?_, ?_, ?_⟩
  · rw [← text]
    exact spans
  · rw [line, text]
  · rw [kept]
    exact r
  · rw [kept]
    exact w.trans stands.w
  · rw [kept]
    exact buf.trans stands.buf
  · rw [kept]
    exact parked

/-- What Arrow Up parks. -/
theorem Stands.saves (ok : Arrow.up.Ok c) : cstr (savedcmd beyond c) = lineText origin.input := by
  have r := stands.r
  unfold savedcmd
  split
  · rename_i bottom
    rw [bottom] at r
    subst r
    rw [cstr_copied beyond _ stands.spans stands.tidy.line.nul (ok bottom), stands.text]
    rfl
  · rename_i above
    apply stands.parked
    rw [← r]
    exact above

theorem Stands.up (ok : Arrow.up.Ok c) :
    Stands origin W (pressArrow c (.up, beyond)) (min (p + 1) origin.cmds.w) ∧
      cstr (pressArrow c (.up, beyond)).cmds.tmpcmd = lineText origin.input := by
  have saved := stands.saves beyond ok
  have tidy : Tidy (pressArrow c (.up, beyond)) :=
    up_tidy beyond rfl stands.tidy stands.spans ok
  have within := stands.tidy.place
  have r := stands.r
  have w := stands.w
  unfold pressArrow at tidy ⊢
  rw [consoleintr_up beyond c rfl] at tidy ⊢
  by_cases top : c.cmds.r + 1 > c.cmds.w
  · -- the history ends here: only the place is set, to where it was
    have same : min (p + 1) origin.cmds.w = p := by omega
    rw [if_pos top] at tidy ⊢
    rw [same]
    refine ⟨⟨tidy, stands.spans, stands.text, ?_, w, stands.buf, fun _ => saved⟩, saved⟩
    change c.cmds.w = p
    omega
  · have next : min (p + 1) origin.cmds.w = p + 1 := by omega
    rw [if_neg top] at tidy ⊢
    rw [next]
    refine ⟨stands.load ?_ ?_ rfl rfl tidy fun _ => saved, ?_⟩
    · rw [stands.buf, r]
      rfl
    · rw [r]
    · rw [refill_cmds]
      exact saved

theorem Stands.down (ok : Arrow.down.Ok c) :
    Stands origin W (pressArrow c (.down, beyond)) (p - 1) ∧
      (pressArrow c (.down, beyond)).cmds.tmpcmd = c.cmds.tmpcmd := by
  have tidy : Tidy (pressArrow c (.down, beyond)) :=
    down_tidy beyond rfl stands.tidy stands.spans
  have r := stands.r
  unfold pressArrow at tidy ⊢
  rw [consoleintr_down beyond c rfl] at tidy ⊢
  refine ⟨stands.load ?_ ?_ rfl rfl tidy ?_, ?_⟩
  · unfold lowercmd
    rw [r]
    split
    · have some : p - 1 ≠ 0 := by omega
      rw [recalled, if_neg some, stands.buf, Nat.sub_sub]
    · have zero : p - 1 = 0 := by omega
      rw [zero]
      by_cases bottom : p = 0
      · subst bottom
        rw [ok r, stands.text]
      · exact stands.parked bottom
  · rw [r]
  · intro above
    exact stands.parked (by omega)
  · rw [refill_cmds]

end

/-- One key that finds what it relies on. -/
theorem Stands.press (key : Arrow × Beyond) (stands : Stands origin W c p) (ok : key.1.Ok c) :
    Stands origin W (pressArrow c key) (key.1.move origin.cmds.w p) := by
  obtain ⟨arrow, beyond⟩ := key
  cases arrow with
  | up => exact (stands.up beyond ok).1
  | down => exact (stands.down beyond ok).1

/-- Whole sequences. -/
theorem Stands.presses (keys : List (Arrow × Beyond)) (stands : Stands origin W c p)
    (ok : ArrowsOk c keys) :
    Stands origin W (pressArrows c keys)
      (keys.foldl (fun p key => key.1.move origin.cmds.w p) p) := by
  induction keys generalizing c p with
  | nil => exact stands
  | cons key rest ih => exact ih (stands.press key ok.1) ok.2

/-- Once the line is parked and can be copied, every sequence finds what it relies on. -/
theorem Stands.all_ok (keys : List (Arrow × Beyond)) (stands : Stands origin W c p)
    (parked : cstr c.cmds.tmpcmd = lineText origin.input)
    (flat : ∀ s : Input, s.w = BitVec.ofNat 32 W → lineText s = lineText origin.input → Flat s) :
    ArrowsOk c keys := by
  induction keys generalizing c p with
  | nil => trivial
  | cons key rest ih =>
    have bottom : c.cmds.r = 0 → lineText c.input = lineText origin.input := by
      intro zero
      rw [stands.text, ← stands.r, zero]
      rfl
    obtain ⟨arrow, beyond⟩ := key
    cases arrow with
    | up =>
      have ok : Arrow.up.Ok c := fun zero => flat _ stands.spans.w (bottom zero)
      obtain ⟨next, saved⟩ := stands.up beyond ok
      exact ⟨ok, ih next saved⟩
    | down =>
      have ok : Arrow.down.Ok c := fun zero => parked.trans (bottom zero).symm
      obtain ⟨next, same⟩ := stands.down beyond ok
      refine ⟨ok, ih next ?_⟩
      rw [same]
      exact parked

end Steps

/-! ## Exactly the states from which the keys go right -/

section Exact

variable {c : Console} {W E : Nat}

/-- A line is where it starts, and its length. -/
theorem Flat.of_same {s s' : Input} (flat : Flat s) (w : s'.w = s.w)
    (text : lineText s' = lineText s) : Flat s' := by
  have length : (s'.e - s'.w).toNat = (s.e - s.w).toNat := by
    rw [← lineText_length, ← lineText_length, text]
  have e : s'.e = s.e := by
    bv_omega
  rw [Flat, FirstPass, w, e]
  exact flat

theorem Stands.origin (tidy : Tidy c) (spans : c.input.Spans W E) (bottom : c.cmds.r = 0) :
    Stands c W c 0 := by
  refine ⟨tidy, ?_, rfl, bottom, rfl, rfl, fun above => absurd rfl above⟩
  have length : (recalled c 0).length = E - W := by
    change (lineText c.input).length = _
    rw [lineText_length, spans.length]
  rw [length, Nat.add_sub_cancel' spans.we]
  exact spans

/-- What is read without wrapping the index is the line only where the line is flat. -/
theorem flat_of_copied (spans : c.input.Spans W E)
    (copied : ∀ beyond, cstr (fill (c.input.rawLine beyond) c.cmds.tmpcmd) = lineText c.input) :
    Flat c.input := by
  by_cases empty : c.input.e = c.input.w
  · exact .inl empty
  · have some : c.input.e - c.input.w > 0 := by
      bv_omega
    by_cases ordered : c.input.w ≤ c.input.e
    · refine .inr (firstPass_of_rawLine some ordered ?_)
      intro beyond
      have length := rawLine_length ordered beyond
      have text := copied beyond
      rw [cstr_fill _ (length ▸ spans.short)] at text
      have whole : (c.input.rawLine beyond).takeWhile (· ≠ 0) = c.input.rawLine beyond := by
        apply (List.takeWhile_prefix _).eq_of_length
        rw [text, length]
      rw [← whole, text]
    · -- the loop of `copycmd` does not run at all
      exfalso
      have text := copied fun _ => 0
      rw [Input.rawLine, if_neg ordered, cstr_fill _ (by simp)] at text
      have zero := congrArg List.length text
      rw [lineText_length] at zero
      simp at zero
      bv_omega

section

variable (tidy : Tidy c) (spans : c.input.Spans W E) (bottom : c.cmds.r = 0)
include tidy spans bottom

/-- Arrow Up from the line being typed: what is parked is what `copycmd` reads, and the next Arrow Down
can erase the line. -/
theorem up_from_origin :
    (pressArrow c (.up, beyond)).cmds.tmpcmd = fill (c.input.rawLine beyond) c.cmds.tmpcmd ∧
      (pressArrow c (.up, beyond)).cmds.r ≤ 1 ∧
      newline ∉ lineText (pressArrow c (.up, beyond)).input ∧
      ∃ E', (pressArrow c (.up, beyond)).input.Spans W E' := by
  have saved : savedcmd beyond c = fill (c.input.rawLine beyond) c.cmds.tmpcmd := if_pos bottom
  unfold pressArrow
  rw [consoleintr_up beyond c rfl, saved]
  by_cases top : c.cmds.r + 1 > c.cmds.w
  · rw [if_pos top]
    refine ⟨rfl, ?_, tidy.line.newline, E, spans⟩
    change c.cmds.w ≤ 1
    omega
  · rw [if_neg top]
    let parked : Console := { c with cmds :=
      { c.cmds with r := c.cmds.r + 1, tmpcmd := fill (c.input.rawLine beyond) c.cmds.tmpcmd } }
    obtain ⟨spans', text, -⟩ := @refill_text parked W E (c.cmds.buf c.cmds.r) spans tidy.line.newline
    refine ⟨?_, ?_, ?_, _, spans'⟩
    · rw [refill_cmds]
    · rw [refill_cmds]
      change c.cmds.r + 1 ≤ 1
      omega
    · rw [text]
      exact (tidy.entries _ (by omega)).newline

/-- Up and down again brings the line back only if it was copied. -/
theorem copied_of_navigates (back : Navigates c [(.up, beyond), (.down, beyond)]) :
    cstr (fill (c.input.rawLine beyond) c.cmds.tmpcmd) = lineText c.input := by
  obtain ⟨saved, low, plain, E', spans'⟩ := up_from_origin beyond tidy spans bottom
  have zero : place c.cmds.w [(.up, beyond), (.down, beyond)] = 0 := by
    change min (0 + 1) c.cmds.w - 1 = 0
    omega
  rw [Navigates, zero] at back
  change lineText (consoleintr beyond Arrow.down.code (pressArrow c (.up, beyond))).input =
    lineText c.input at back
  generalize pressArrow c (.up, beyond) = next at back saved low plain spans'
  have loads : lowercmd next = next.cmds.tmpcmd := if_neg (by omega)
  obtain ⟨-, text, -⟩ := @refill_text { next with cmds := { next.cmds with r := next.cmds.r - 1 } }
    W E' next.cmds.tmpcmd spans' plain
  rw [consoleintr_down beyond next rfl, loads, text, saved] at back
  exact back

/-- Arrow Down from the line being typed loads what is parked, whatever it is. -/
theorem down_from_origin : lineText (pressArrow c (.down, beyond)).input = cstr c.cmds.tmpcmd := by
  have loads : lowercmd c = c.cmds.tmpcmd := if_neg (by omega)
  obtain ⟨-, text, -⟩ := @refill_text { c with cmds := { c.cmds with r := c.cmds.r - 1 } }
    W E c.cmds.tmpcmd spans tidy.line.newline
  unfold pressArrow
  rw [consoleintr_down beyond c rfl, loads, text]

end

end Exact

/-- **The arrow keys bring the right line back.** In every state of a careful run, with the line being
typed on screen: a sequence of arrow keys leaves the line of the place it ends at, if every first
Arrow Up can copy the line and every Arrow Down at the line being typed finds that line parked. Every
sequence that starts with Arrow Up does so exactly if the line is empty or ends within the first pass
over the ring; every sequence at all, exactly if moreover the line is parked already. -/
theorem history_navigation {s : State} (reached : system.Reach Careful s)
    (bottom : s.con.cmds.r = 0) :
    (∀ keys, ArrowsOk s.con keys → Navigates s.con keys) ∧
      ((∀ beyond keys, Navigates s.con ((.up, beyond) :: keys)) ↔ Flat s.con.input) ∧
      ((∀ keys, Navigates s.con keys) ↔
        Flat s.con.input ∧ cstr s.con.cmds.tmpcmd = lineText s.con.input) := by
  obtain ⟨⟨⟨R, W, E, counts⟩, -⟩, tidy⟩ := reach_tidy reached
  have spans := counts.spans
  have stands := Stands.origin tidy spans bottom
  have right : ∀ keys, ArrowsOk s.con keys → Navigates s.con keys := by
    intro keys ok
    exact (stands.presses keys ok).text
  have flatten : Flat s.con.input → ∀ input : Input, input.w = BitVec.ofNat 32 W →
      lineText input = lineText s.con.input → Flat input := by
    intro flat input w text
    exact flat.of_same (w.trans spans.w.symm) text
  have needed : (∀ beyond keys, Navigates s.con ((.up, beyond) :: keys)) → Flat s.con.input := by
    intro all
    apply flat_of_copied spans
    intro beyond
    exact copied_of_navigates beyond tidy spans bottom (all beyond [(.down, beyond)])
  refine ⟨right, ⟨needed, ?_⟩, ?_, ?_⟩
  · intro flat beyond keys
    have ok : Arrow.up.Ok s.con := fun _ => flat
    obtain ⟨next, saved⟩ := stands.up beyond ok
    exact right _ ⟨ok, next.all_ok keys saved (flatten flat)⟩
  · intro all
    refine ⟨needed fun beyond keys => all _, ?_⟩
    have down : lineText (pressArrow s.con (.down, fun _ => 0)).input = lineText s.con.input :=
      all [(.down, fun _ => 0)]
    rw [← down]
    exact (down_from_origin _ tidy spans bottom).symm
  · rintro ⟨flat, parked⟩ keys
    exact right keys (stands.all_ok keys parked (flatten flat))

/-- `hi`, Enter, then `a`. -/
def oneEntry : List Event := [key 104, key 105, key 13, key 97]

def afterEntry : State := (system.run boot oneEntry).getD boot

theorem history_navigation_oneEntry :
    afterEntry.con.cmds.r = 0 ∧ lineText afterEntry.con.input = [97] ∧
      recalled afterEntry.con 1 = [104, 105] ∧
      ∀ beyond keys, Navigates afterEntry.con ((.up, beyond) :: keys) := by
  have admitted : system.Admits Careful boot oneEntry := by decide +kernel
  have ran : (system.run boot oneEntry).isSome = true := by decide +kernel
  have reached : system.Reach Careful afterEntry :=
    .run (.start boot_start) admitted (Option.eq_some_of_isSome ran ▸ rfl)
  have bottom : afterEntry.con.cmds.r = 0 := by decide +kernel
  obtain ⟨-, up, -⟩ := history_navigation reached bottom
  exact ⟨bottom, by decide +kernel, by decide +kernel, up.mpr (by decide +kernel)⟩

/-- `a` and Arrow Down: nothing was parked, and the line is gone. -/
theorem arrow_down_loses_line :
    system.Reach Careful (pressed boot 97 fun _ => 0) ∧
      (pressed boot 97 fun _ => 0).con.cmds.r = 0 ∧
      lineText (pressed boot 97 fun _ => 0).con.input = [97] ∧
      place 0 [(.down, fun _ => 0)] = 0 ∧
      lineText (pressArrows (pressed boot 97 fun _ => 0).con [(.down, fun _ => 0)]).input = [] := by
  have admitted : system.Admits Careful boot [key 97] := by decide +kernel
  refine ⟨.run (.start boot_start) admitted rfl, ?_, ?_, rfl, ?_⟩
  · decide +kernel
  · decide +kernel
  · decide +kernel

end Xv6.Cons
