/-
# Xv6.Console.Completion -- Tab

Tab replaces the line by the most recent submitted line that extends it. Pressed again, it goes on to
the next one: `cmds.intab` is set, and the search starts behind `cmds.lastusedidx`. Two things go wrong.
Only Enter clears `intab`, so a Tab after other keys goes on as well, and passes over entries that
extend the line as it is now. And the line is compared where `input.buf + input.w` points, without
wrapping the index.

`tab_completion` says when a Tab does what it should, whatever lies behind the ring, and when it at
least leaves the line or extends it.
-/
import Xv6.Console.Texts

namespace Xv6.Cons
open Lib List
set_option autoImplicit false

/-! ## What Tab is for -/

/-- The submitted lines the console remembers, newest first. -/
def entries (c : Console) : List (List Byte) := (range c.cmds.w).map fun i => cstr (c.cmds.buf i)

/-- The first of some lines that extends the line, or the line itself. -/
def extension (line : List Byte) (lines : List (List Byte)) : List Byte :=
  (lines.find? fun t => decide (line <+: t)).getD line

/-- The line a Tab should leave. -/
def completion (c : Console) : List Byte := extension (lineText c.input) (entries c)

/-- Tab leaves the most recent entry that extends the line, or the line if there is none. -/
def Completes (c : Console) (beyond : Beyond) : Prop :=
  lineText (consoleintr beyond 9 c).input = completion c

/-- Tab leaves the line, or an entry that extends it. -/
def Extends (c : Console) (beyond : Beyond) : Prop :=
  lineText (consoleintr beyond 9 c).input = lineText c.input ∨
    ∃ t ∈ entries c, lineText c.input <+: t ∧ lineText (consoleintr beyond 9 c).input = t

/-! ## What it goes by -/

/-- The entry the search starts at. -/
def tabStart (c : Console) : Nat := if c.cmds.intab then c.cmds.lastusedidx + 1 else 0

/-- The line Tab leaves if it reads the line right. -/
def nextCompletion (c : Console) : List Byte :=
  extension (lineText c.input) ((entries c).drop (tabStart c))

/-- An entry that is passed over and extends the line is the line Tab leaves anyway. -/
def Fresh (c : Console) : Prop :=
  ∀ t, ((entries c).take (tabStart c)).find? (fun t => decide (lineText c.input <+: t)) = some t →
    nextCompletion c = t

/-- The entry agrees with the part of the line that lies within the first pass. -/
def Close (s : Input) (cmd : Nat → Byte) : Prop :=
  ∀ k < (s.e - s.w).toNat, (s.w + BitVec.ofNat 32 k).toNat < INPUT_BUF →
    cmd k = s.get (s.w + BitVec.ofNat 32 k)

/-- No entry still to be searched agrees with that part but does not extend the line. -/
def Sure (c : Console) : Prop :=
  ∀ i < c.cmds.w, tabStart c ≤ i → Close c.input (c.cmds.buf i) →
    lineText c.input <+: cstr (c.cmds.buf i)

/-! ## Comparing -/

section Compare

variable {s : Input} {W E : Nat} {cmd : Nat → Byte} {line : List Byte}

/-- A line without NUL is a front of the text in an array exactly if it agrees byte by byte. -/
theorem prefix_cstr_iff (nul : 0 ∉ line) (short : line.length ≤ INPUT_BUF) :
    line <+: cstr cmd ↔ line = (range line.length).map cmd := by
  have array : (range INPUT_BUF).map cmd =
      (range line.length).map cmd ++
        (range (INPUT_BUF - line.length)).map fun k => cmd (line.length + k) := by
    have split : INPUT_BUF = line.length + (INPUT_BUF - line.length) := by omega
    nth_rewrite 1 [split]
    rw [range_add, map_append, map_map]
    rfl
  constructor
  · intro front
    have whole : line <+: (range INPUT_BUF).map cmd := front.trans (List.takeWhile_prefix _)
    rw [array] at whole
    exact (prefix_of_prefix_length_le whole (prefix_append _ _) (by simp)).eq_of_length
      (by simp)
  · intro same
    rw [cstr, array, ← same]
    have plain : ∀ b ∈ line, decide (b ≠ 0) = true := by
      intro b inside
      have differ : b ≠ 0 := by
        rintro rfl
        exact nul inside
      simpa using differ
    rw [takeWhile_append_of_pos plain]
    exact prefix_append _ _

/-- The line, read where `ispred` reads it. -/
def readLine (beyond : Beyond) (s : Input) : List Byte :=
  (range (s.e - s.w).toNat).map fun k => s.raw beyond (s.w + BitVec.ofNat 32 k)

variable (beyond : Beyond)

theorem ispred_iff (spans : s.Spans W E) :
    ispred beyond s cmd = true ↔ readLine beyond s = (range (s.e - s.w).toNat).map cmd := by
  have room : E ≤ W + 128 := spans.room
  have length := spans.length
  have positive : (s.e - s.w).toInt.toNat = (s.e - s.w).toNat := by
    rw [BitVec.toInt_eq_toNat_of_lt (by omega), Int.toNat_natCast]
  rw [ispred, positive, all_eq_true, readLine, map_inj_left]
  constructor
  · intro all k inside
    exact (beq_iff_eq.mp (all k inside)).symm
  · intro all k inside
    exact beq_iff_eq.mpr (all k inside).symm

/-- Where the line is read right, an entry is found exactly if it extends the line. -/
theorem ispred_right {beyond : Beyond} (spans : s.Spans W E) (nul : 0 ∉ lineText s)
    (right : readLine beyond s = lineText s) :
    ispred beyond s cmd = decide (lineText s <+: cstr cmd) := by
  apply Bool.eq_iff_iff.mpr
  rw [ispred_iff beyond spans, right, decide_eq_true_iff, prefix_cstr_iff nul spans.short,
    lineText_length]

theorem readLine_flat (flat : Flat s) : readLine beyond s = lineText s := by
  rcases flat with empty | first
  · rw [lineText_empty empty, readLine, empty, BitVec.sub_self]
    rfl
  · rw [← rawLine_firstPass beyond first, Input.rawLine, if_pos first.1]
    rfl

theorem readLine_eq_iff (f : Nat → Byte) :
    readLine beyond s = (range (s.e - s.w).toNat).map f ↔
      ∀ k < (s.e - s.w).toNat, s.raw beyond (s.w + BitVec.ofNat 32 k) = f k := by
  rw [readLine, map_inj_left]
  exact forall_congr' fun k => by rw [mem_range]

theorem raw_inside {i : Word} (inside : i.toNat < INPUT_BUF) : s.raw beyond i = s.get i := by
  rw [Input.raw, if_pos inside, Input.get, Ring.read, Nat.mod_eq_of_lt inside]

/-- A line that is not flat has a byte behind the ring. -/
theorem exists_behind (spans : s.Spans W E) (wrapped : ¬ Flat s) :
    ∃ k < (s.e - s.w).toNat, ¬ (s.w + BitVec.ofNat 32 k).toNat < INPUT_BUF := by
  rw [Flat, not_or, FirstPass, not_and] at wrapped
  obtain ⟨some, past⟩ := wrapped
  have room : E ≤ W + 128 := spans.room
  have length := spans.length
  change ∃ k < (s.e - s.w).toNat, ¬ (s.w + BitVec.ofNat 32 k).toNat < 128
  by_cases ordered : s.w ≤ s.e
  · -- the last one
    have past : ¬ s.e.toNat ≤ 128 := past ordered
    refine ⟨(s.e - s.w).toNat - 1, by bv_omega, ?_⟩
    bv_omega
  · -- the first one: the line wraps around the range of a `uint`
    refine ⟨0, by bv_omega, ?_⟩
    bv_omega

/-- Some memory behind the ring makes an entry that is close to the line be found. -/
theorem ispred_close (spans : s.Spans W E) (close : Close s cmd) :
    ispred (fun i => cmd (i - s.w).toNat) s cmd = true := by
  rw [ispred_iff _ spans, readLine_eq_iff]
  intro k inside
  by_cases inRing : (s.w + BitVec.ofNat 32 k).toNat < INPUT_BUF
  · rw [raw_inside _ inRing]
    exact (close k inside inRing).symm
  · rw [Input.raw, if_neg inRing]
    congr 1
    bv_omega

theorem close_of_ispred {beyond : Beyond} (spans : s.Spans W E)
    (found : ispred beyond s cmd = true) : Close s cmd := by
  rw [ispred_iff _ spans, readLine_eq_iff] at found
  intro k inside inRing
  rw [← found k inside, raw_inside _ inRing]

end Compare

/-! ## One Tab -/

section OneTab

variable {c : Console} {W E : Nat} {beyond : Beyond}

/-- Tab, by the entry it goes to. -/
theorem tab_text (beyond : Beyond) (tidy : Tidy c) (spans : c.input.Spans W E) :
    lineText (consoleintr beyond 9 c).input =
      match predicted beyond c with
      | none => lineText c.input
      | some i => cstr (c.cmds.buf i) := by
  rw [consoleintr_tab beyond c rfl]
  cases predicted beyond c with
  | none => rfl
  | some i =>
    have found := @refill_text
      { c with cmds := { tabcmds beyond c with intab := true, lastusedidx := i } } W E
      (c.cmds.buf i) spans tidy.line.newline
    exact found.2.1

/-- Where the line is read right, Tab goes to the next entry that extends it. -/
theorem tab_right (tidy : Tidy c) (spans : c.input.Spans W E)
    (right : readLine beyond c.input = lineText c.input) :
    lineText (consoleintr beyond 9 c).input = nextCompletion c := by
  have search : predicted beyond c = ((range c.cmds.w).drop (tabStart c)).find? fun i =>
      decide (lineText c.input <+: cstr (c.cmds.buf i)) := by
    have same : (fun i => ispred beyond c.input (c.cmds.buf i)) =
        fun i => decide (lineText c.input <+: cstr (c.cmds.buf i)) :=
      funext fun i => ispred_right spans tidy.line.nul right
    rw [predicted, getpred, same]
    rfl
  rw [tab_text beyond tidy spans, nextCompletion, extension, entries, ← map_drop,
    find?_map, search]
  simp only [Function.comp_def]
  cases find? _ _ with
  | none => rfl
  | some i => rfl

/-- What Tab should leave is what it leaves where it reads the line right, exactly if it is fresh. -/
theorem fresh_iff (c : Console) : nextCompletion c = completion c ↔ Fresh c := by
  have split : (entries c).find? (fun t => decide (lineText c.input <+: t)) =
      (((entries c).take (tabStart c)).find? fun t => decide (lineText c.input <+: t)).or
        (((entries c).drop (tabStart c)).find? fun t => decide (lineText c.input <+: t)) := by
    rw [← find?_append, take_append_drop]
  rw [completion, extension, split, Fresh]
  cases ((entries c).take (tabStart c)).find? fun t => decide (lineText c.input <+: t) with
  | none =>
    refine iff_of_true rfl ?_
    rintro _ ⟨⟩
  | some first =>
    refine ⟨?_, fun fresh => fresh first rfl⟩
    intro same t found
    cases found
    exact same

theorem prefix_extension (line : List Byte) (lines : List (List Byte)) :
    line <+: extension line lines := by
  unfold extension
  cases found : lines.find? fun t => decide (line <+: t) with
  | none => exact prefix_rfl
  | some t =>
    have hit := find?_some found
    exact of_decide_eq_true hit

/-- An entry that is found lies in the table, behind the start of the search. -/
theorem predicted_spec {i : Nat} (found : predicted beyond c = some i) :
    i < c.cmds.w ∧ tabStart c ≤ i ∧ ispred beyond c.input (c.cmds.buf i) = true := by
  have inside := mem_of_find?_eq_some found
  have hit := find?_some found
  refine ⟨mem_range.mp (mem_of_mem_drop inside), ?_, hit⟩
  obtain ⟨k, bound, place⟩ := mem_iff_getElem.mp inside
  rw [getElem_drop, getElem_range] at place
  rw [← place]
  exact Nat.le_add_right _ _

/-- A Tab that always leaves something that extends the line is sure of what it finds. -/
theorem sure_of_extends (tidy : Tidy c) (spans : c.input.Spans W E)
    (all : ∀ beyond, lineText c.input <+: lineText (consoleintr beyond 9 c).input) : Sure c := by
  intro i inTable behind close
  -- the memory that makes this entry be found, or another that agrees with it
  let beyond : Beyond := fun j => c.cmds.buf i (j - c.input.w).toNat
  have hit : ispred beyond c.input (c.cmds.buf i) = true := ispred_close spans close
  have extended := all beyond
  rw [tab_text beyond tidy spans] at extended
  cases found : predicted beyond c with
  | none =>
    exfalso
    have misses := find?_eq_none.mp found i (by
      apply mem_iff_getElem.mpr
      refine ⟨i - tabStart c, ?_, ?_⟩
      · rw [length_drop, length_range]
        change i - tabStart c < c.cmds.w - tabStart c
        omega
      · rw [getElem_drop, getElem_range]
        change tabStart c + (i - tabStart c) = i
        omega)
    exact misses hit
  | some j =>
    rw [found] at extended
    obtain ⟨-, -, other⟩ := predicted_spec found
    rw [prefix_cstr_iff tidy.line.nul spans.short, lineText_length] at extended ⊢
    rw [ispred_iff _ spans] at hit other
    rw [← hit, other]
    exact extended

/-- A Tab that is sure goes to the next entry that extends the line, or leaves the line. -/
theorem tab_sure (beyond : Beyond) (tidy : Tidy c) (spans : c.input.Spans W E) (sure : Sure c) :
    lineText (consoleintr beyond 9 c).input = nextCompletion c ∨
      lineText (consoleintr beyond 9 c).input = lineText c.input := by
  cases found : predicted beyond c with
  | none =>
    right
    rw [tab_text beyond tidy spans, found]
  | some i =>
    left
    obtain ⟨inTable, behind, hit⟩ := predicted_spec found
    have front := sure i inTable behind (close_of_ispred spans hit)
    apply tab_right tidy spans
    rw [prefix_cstr_iff tidy.line.nul spans.short, lineText_length] at front
    rw [ispred_iff _ spans] at hit
    rw [hit, ← front]

/-- Behind the ring there may be a byte that keeps Tab from finding anything. -/
theorem tab_blind (tidy : Tidy c) (spans : c.input.Spans W E) (sure : Sure c)
    (wrapped : ¬ Flat c.input) :
    lineText (consoleintr (fun i => c.input.get i + 1) 9 c).input = lineText c.input := by
  rw [tab_text _ tidy spans]
  cases found : predicted (fun i => c.input.get i + 1) c with
  | none => rfl
  | some i =>
    exfalso
    obtain ⟨inTable, behind, hit⟩ := predicted_spec found
    have front := sure i inTable behind (close_of_ispred spans hit)
    obtain ⟨k, inside, outside⟩ := exists_behind spans wrapped
    rw [prefix_cstr_iff tidy.line.nul spans.short, lineText_length, lineText,
      map_inj_left] at front
    rw [ispred_iff _ spans, readLine_eq_iff] at hit
    have same := (hit k inside).trans (front k (mem_range.mpr inside)).symm
    rw [Input.raw, if_neg outside] at same
    simp at same

/-- The line is read right if what lies behind the ring is what the index wraps around to. -/
theorem readLine_wrapped (s : Input) : readLine (fun i => s.get i) s = lineText s := by
  apply (readLine_eq_iff _ _).mpr
  intro k inside
  by_cases inRing : (s.w + BitVec.ofNat 32 k).toNat < INPUT_BUF
  · exact raw_inside _ inRing
  · rw [Input.raw, if_neg inRing]

theorem extension_mem (line : List Byte) (lines : List (List Byte)) :
    extension line lines = line ∨ ∃ t ∈ lines, line <+: t ∧ extension line lines = t := by
  unfold extension
  cases found : lines.find? fun t => decide (line <+: t) with
  | none => exact .inl rfl
  | some t =>
    have hit := find?_some found
    exact .inr ⟨t, mem_of_find?_eq_some found, of_decide_eq_true hit, rfl⟩

end OneTab

/-- **When Tab completes.** In every state of a careful run, and whatever lies behind the ring: Tab
leaves the most recent entry that extends the line exactly if no other such entry is passed over, and
the line is flat, or else Tab is sure of what it finds and finds nothing but the line itself. It leaves
the line or an entry that extends it exactly if the line is flat or Tab is sure. -/
theorem tab_completion {s : State} (reached : system.Reach Careful s) :
    ((∀ beyond, Completes s.con beyond) ↔
        Fresh s.con ∧ (Flat s.con.input ∨ Sure s.con ∧ nextCompletion s.con = lineText s.con.input)) ∧
      ((∀ beyond, Extends s.con beyond) ↔ Flat s.con.input ∨ Sure s.con) := by
  obtain ⟨⟨⟨R, W, E, counts⟩, -⟩, tidy⟩ := reach_tidy reached
  have spans := counts.spans
  have own := tab_right tidy spans (readLine_wrapped s.con.input)
  have right : Flat s.con.input → ∀ beyond,
      lineText (consoleintr beyond 9 s.con).input = nextCompletion s.con := by
    intro flat beyond
    exact tab_right tidy spans (readLine_flat beyond flat)
  refine ⟨⟨?_, ?_⟩, ?_, ?_⟩
  · intro all
    have fresh : nextCompletion s.con = completion s.con := own.symm.trans (all _)
    refine ⟨(fresh_iff s.con).mp fresh, ?_⟩
    by_cases flat : Flat s.con.input
    · exact .inl flat
    · have sure : Sure s.con := by
        apply sure_of_extends tidy spans
        intro beyond
        rw [all beyond]
        exact prefix_extension _ _
      refine .inr ⟨sure, ?_⟩
      rw [fresh, ← all, tab_blind tidy spans sure flat]
  · rintro ⟨fresh, how⟩ beyond
    rw [Completes, ← (fresh_iff s.con).mpr fresh]
    rcases how with flat | ⟨sure, stays⟩
    · exact right flat beyond
    · rcases tab_sure beyond tidy spans sure with next | line
      · exact next
      · rw [line, stays]
  · intro all
    by_cases flat : Flat s.con.input
    · exact .inl flat
    · right
      apply sure_of_extends tidy spans
      intro beyond
      rcases all beyond with line | ⟨t, -, front, entry⟩
      · rw [line]
      · rw [entry]
        exact front
  · intro how beyond
    have next : lineText (consoleintr beyond 9 s.con).input = nextCompletion s.con ∨
        lineText (consoleintr beyond 9 s.con).input = lineText s.con.input := by
      rcases how with flat | sure
      · exact .inl (right flat beyond)
      · exact tab_sure beyond tidy spans sure
    rcases next with next | line
    · rw [Extends, next]
      rcases extension_mem (lineText s.con.input) ((entries s.con).drop (tabStart s.con)) with
        none | ⟨t, inside, front, same⟩
      · exact .inl none
      · exact .inr ⟨t, mem_of_mem_drop inside, front, same⟩
    · exact .inl line

/-- `ab`, Enter, `a`. -/
def oneCandidate : List Event := [key 97, key 98, key 13, key 97]

def afterCandidate : State := (system.run boot oneCandidate).getD boot

theorem tab_completion_oneCandidate :
    lineText afterCandidate.con.input = [97] ∧ completion afterCandidate.con = [97, 98] ∧
      ∀ beyond, Completes afterCandidate.con beyond := by
  have admitted : system.Admits Careful boot oneCandidate := by decide +kernel
  have ran : (system.run boot oneCandidate).isSome = true := by decide +kernel
  have reached : system.Reach Careful afterCandidate :=
    .run (.start boot_start) admitted (Option.eq_some_of_isSome ran ▸ rfl)
  have fresh : Fresh afterCandidate.con := by
    have none : tabStart afterCandidate.con = 0 := by decide +kernel
    rintro _ ⟨⟩
  have flat : Flat afterCandidate.con.input := by decide +kernel
  exact ⟨by decide +kernel, by decide +kernel, (tab_completion reached).1.mpr ⟨fresh, .inl flat⟩⟩

/-- The same, then Tab, which leaves `ab`, and Backspace. -/
def editedTab : List Event := oneCandidate ++ [key 9, key 8]

def afterEditedTab : State := (system.run boot editedTab).getD boot

/-- The next Tab finds the line `a` again, and passes over the entry that extends it. -/
theorem tab_after_edit_passes_over :
    system.Reach Careful afterEditedTab ∧ lineText afterEditedTab.con.input = [97] ∧
      entries afterEditedTab.con = [[97, 98]] ∧ afterEditedTab.con.cmds.intab = true ∧
      lineText (consoleintr (fun _ => 0) 9 afterEditedTab.con).input = [97] := by
  have admitted : system.Admits Careful boot editedTab := by decide +kernel
  have ran : (system.run boot editedTab).isSome = true := by decide +kernel
  refine ⟨.run (.start boot_start) admitted (Option.eq_some_of_isSome ran ▸ rfl), ?_, ?_, ?_, ?_⟩
  · decide +kernel
  · decide +kernel
  · decide +kernel
  · decide +kernel

end Xv6.Cons
