/-
# Xv6.Console.Framing -- how consoleread cuts the committed stream

Calls of `consoleread` follow each other; each stops after `n` bytes, behind a newline, or before a
Ctrl-D, and waits while nothing is unread. What is committed meanwhile is the keyboard's business: here
the ring may change in any way that keeps the unread bytes and adds to them (`Grows`), which is what a
key does that finds what it relies on (`consoleintr_pressed` in `Xv6.Console.Delivery`).

A Ctrl-D is the end of a file for one call. A call that has copied nothing takes it and returns no
bytes; a call that has copied something puts it back, so that the next one returns nothing.
`reads_frame`: written one after the other, with a mark for every empty return, what the calls return
is the front of the stream with a mark for every Ctrl-D.
-/
import Xv6.Console.Delivery

namespace Xv6.Cons.Framing
open Lib List
set_option autoImplicit false

/-! ## Calls, one after the other -/

structure Reads where
  input : Input
  /-- the call that waits -/
  waiting : Option Call
  /-- the calls that have returned, in order: the count asked for and the bytes -/
  done : List (Nat × List Byte)
  /-- ghost: what has been committed -/
  stream : List Byte

/-- The unread bytes stay, and there may be more. -/
def Grows (s s' : Input) : Prop := s'.r = s.r ∧ unread s <+: unread s'
deriving Decidable

inductive Event where
  /-- the ring as the keyboard leaves it -/
  | grow (input : Input)
  | read (n : Nat)
  /-- the call that waits goes on -/
  | resume

def runCall (s : Reads) (call : Call) : Reads :=
  let run := readLoop call.target call.n s.input call.dst []
  match run.stop with
  | .returns =>
    { s with input := run.input, waiting := none, done := s.done ++ [(call.target, run.call.dst)] }
  | .sleeps => { s with input := run.input, waiting := some run.call }

def next (s : Reads) : Event → Option Reads
  | .grow input =>
    if Grows s.input input then
      some { s with
        input := input
        stream := s.stream ++ (unread input).drop (unread s.input).length }
    else none
  | .read n => if s.waiting = none then some (runCall s ⟨n, n, []⟩) else none
  | .resume => s.waiting.map (runCall s)

/-- Nothing is read yet. -/
def Start (s : Reads) : Prop := s.waiting = none ∧ s.done = [] ∧ s.stream = unread s.input

def reads : System Reads Event where
  start := Start
  next := next

/-- Every call asks for something. -/
def Asks (_ : Reads) : Event → Prop
  | .read n => 0 < n
  | .grow _ | .resume => True

instance (s : Reads) : ∀ e, Decidable (Asks s e)
  | .read _ => inferInstanceAs (Decidable (0 < _))
  | .grow _ | .resume => .isTrue trivial

/-! ## What is written down -/

inductive Mark where
  | byte (b : Byte)
  | endOfFile
  deriving DecidableEq, Repr

def mark (b : Byte) : Mark := if b = eof then .endOfFile else .byte b

/-- The stream, with every Ctrl-D replaced by a mark. -/
def marks (stream : List Byte) : List Mark := stream.map mark

/-- A returned string, or a mark if it is empty. -/
def written (bytes : List Byte) : List Mark := if bytes = [] then [.endOfFile] else bytes.map .byte

theorem mark_of_ne {b : Byte} (differ : b ≠ eof) : mark b = .byte b := if_neg differ

/-- A part of the marked stream that has no marks is that part of the stream. -/
theorem eq_of_marks {part bytes : List Byte} (same : marks part = bytes.map .byte) : part = bytes := by
  induction part generalizing bytes with
  | nil => exact (map_eq_nil_iff.mp same.symm).symm
  | cons b rest ih =>
    obtain ⟨b', rest', bytes', first, others⟩ := map_eq_cons_iff.mp same.symm
    subst bytes'
    rw [ih others.symm]
    by_cases isMark : b = eof
    · rw [isMark] at first
      cases first
    · rw [mark_of_ne isMark] at first
      cases first
      rfl

theorem written_of_some {bytes : List Byte} (some : bytes ≠ []) : written bytes = bytes.map .byte :=
  if_neg some

theorem marks_append (first second : List Byte) :
    marks (first ++ second) = marks first ++ marks second := map_append

/-! ## The unread bytes, one by one -/

/-- The next byte, and the rest behind it. -/
theorem unread_cons {s : Input} (more : s.r ≠ s.w) :
    unread s = s.get s.r :: unread { s with r := s.r + 1 } := by
  have count : (s.w - s.r).toNat = (s.w - (s.r + 1)).toNat + 1 := by bv_omega
  have start : Ring.window INPUT_BUF s.buf (s.r + 1).toNat (s.w - (s.r + 1)).toNat =
      Ring.window INPUT_BUF s.buf (s.r.toNat + 1) (s.w - (s.r + 1)).toNat := by
    have here : s.r + 1 = BitVec.ofNat 32 (s.r.toNat + 1) := by simp [BitVec.ofNat_add]
    rw [here, window_ofNat]
  change Ring.window INPUT_BUF s.buf s.r.toNat _ = _ :: Ring.window INPUT_BUF s.buf _ _
  rw [count, Ring.window_cons, start]
  rfl

/-! ## One call -/

/-- A call under way: it has copied `target - n` bytes, none of them a newline or a Ctrl-D, and misses
at least one. -/
structure Underway (call : Call) : Prop where
  count : call.dst.length + call.n = call.target
  missing : 0 < call.n
  line : newline ∉ call.dst
  file : eof ∉ call.dst

/-- What a call returns: no more than was asked for, nothing behind a newline, no Ctrl-D. -/
structure Fair (n : Nat) (bytes : List Byte) : Prop where
  count : bytes.length ≤ n
  line : newline ∉ bytes.dropLast
  file : eof ∉ bytes

/-- What a run of the loop leaves, and what it has taken from the unread bytes. -/
structure Cuts (before : List Mark) (target : Nat) (run : Reading) : Prop where
  returns : run.stop = .returns →
    Fair target run.call.dst ∧ before = written run.call.dst ++ marks (unread run.input)
  sleeps : run.stop = .sleeps →
    Underway run.call ∧ run.call.target = target ∧
      before = run.call.dst.map .byte ++ marks (unread run.input)

/-- A run that has returned `bytes`. -/
theorem Cuts.of_returns {before : List Mark} {target n : Nat} {s : Input} {bytes took : List Byte}
    (fair : Fair target bytes) (taken : before = written bytes ++ marks (unread s)) :
    Cuts before target ⟨s, ⟨target, n, bytes⟩, took, .returns⟩ :=
  ⟨fun _ => ⟨fair, taken⟩, by intro sleeps; cases sleeps⟩

/-- The loop, round by round. -/
theorem readLoop_cuts (target n : Nat) (s : Input) (dst took : List Byte)
    (count : dst.length + n = target) (asked : 0 < target) (line : newline ∉ dst)
    (file : eof ∉ dst) :
    Cuts (dst.map .byte ++ marks (unread s)) target (readLoop target n s dst took) := by
  induction n generalizing s dst took with
  | zero =>
    have some : dst ≠ [] := by
      rintro rfl
      exact absurd count (Nat.ne_of_lt asked)
    apply Cuts.of_returns
    · exact ⟨count.le, fun inside => line (mem_of_mem_dropLast inside), file⟩
    · rw [written_of_some some]
  | succ n ih =>
    by_cases none : s.r = s.w
    · simp only [readLoop, if_pos none]
      refine ⟨?_, fun _ => ⟨⟨count, Nat.succ_pos n, line, file⟩, rfl, rfl⟩⟩
      rintro ⟨⟩
    have rest := unread_cons none
    simp only [readLoop, if_neg none]
    generalize s.get s.r = b at rest ⊢
    by_cases isMark : b = eof
    · rw [if_pos isMark]
      by_cases copied : n + 1 < target
      · -- the mark goes back, for the next call
        have some : dst ≠ [] := by
          rintro rfl
          simp only [length_nil] at count
          omega
        have back : { s with r := s.r + 1 - 1 } = s := by
          rw [BitVec.add_sub_cancel]
        rw [if_pos copied, back]
        apply Cuts.of_returns
        · exact ⟨by omega, fun inside => line (mem_of_mem_dropLast inside), file⟩
        · rw [written_of_some some]
      · -- the mark is all there is
        have empty : dst = [] := length_eq_zero_iff.mp (by omega)
        subst empty
        rw [if_neg copied]
        apply Cuts.of_returns
        · exact ⟨Nat.zero_le _, line, file⟩
        · rw [rest, isMark]
          rfl
    · have one : marks (unread s) = .byte b :: marks (unread { s with r := s.r + 1 }) := by
        rw [rest, marks, map_cons, mark_of_ne isMark]
        rfl
      have file' : eof ∉ dst ++ [b] := by
        intro inside
        rcases mem_append.mp inside with old | new
        · exact file old
        · exact isMark (mem_singleton.mp new).symm
      have shifted : dst.map Mark.byte ++ marks (unread s) =
          (dst ++ [b]).map Mark.byte ++ marks (unread { s with r := s.r + 1 }) := by
        rw [one, map_append, append_assoc]
        rfl
      have length : (dst ++ [b]).length + n = target := by
        rw [length_append, length_singleton]
        omega
      rw [if_neg isMark, shifted]
      by_cases ends : b = newline
      · rw [if_pos ends]
        apply Cuts.of_returns
        · refine ⟨by omega, ?_, file'⟩
          rw [dropLast_concat]
          exact line
        · rw [written_of_some (by simp)]
      · rw [if_neg ends]
        apply ih _ _ _ length
        · intro inside
          rcases mem_append.mp inside with old | new
          · exact line old
          · exact ends (mem_singleton.mp new).symm
        · exact file'

/-! ## Whole sequences of calls -/

/-- What the calls have returned, what the waiting call holds and what is unread make up the stream. -/
structure Inv (s : Reads) : Prop where
  fair : ∀ call ∈ s.done, Fair call.1 call.2
  waiting : ∀ call, s.waiting = some call → Underway call
  stream : marks s.stream = s.done.flatMap (fun call => written call.2) ++
    (s.waiting.elim [] Call.dst).map .byte ++ marks (unread s.input)

variable {s : Reads}

theorem runCall_inv {call : Call} (fair : ∀ call ∈ s.done, Fair call.1 call.2)
    (underway : Underway call)
    (stream : marks s.stream = s.done.flatMap (fun call => written call.2) ++
      call.dst.map .byte ++ marks (unread s.input)) : Inv (runCall s call) := by
  have missing := underway.missing
  have count := underway.count
  have cuts := readLoop_cuts call.target call.n s.input call.dst [] count (by omega) underway.line
    underway.file
  rw [append_assoc] at stream
  cases stop : (readLoop call.target call.n s.input call.dst []).stop with
  | returns =>
    obtain ⟨fairRun, taken⟩ := cuts.returns stop
    simp only [runCall, stop]
    refine ⟨?_, ?_, ?_⟩
    · intro other inside
      rcases mem_append.mp inside with old | new
      · exact fair other old
      · cases mem_singleton.mp new
        exact fairRun
    · rintro _ ⟨⟩
    · rw [stream, taken]
      simp
  | sleeps =>
    obtain ⟨underway', -, taken⟩ := cuts.sleeps stop
    simp only [runCall, stop]
    refine ⟨fair, ?_, ?_⟩
    · intro other waits
      cases waits
      exact underway'
    · rw [stream, taken, ← append_assoc]
      rfl

theorem step_inv {s' : Reads} {e : Event} (inv : Inv s) (ok : Asks s e)
    (stepped : next s e = some s') : Inv s' := by
  cases e with
  | grow input =>
    obtain ⟨grows, ⟨⟩⟩ := Option.ite_none_right_eq_some.mp stepped
    obtain ⟨more, unreadMore⟩ := grows.2
    refine ⟨inv.fair, inv.waiting, ?_⟩
    rw [marks_append, inv.stream, ← unreadMore, drop_left, marks_append,
      append_assoc _ _ (marks more)]
  | read n =>
    obtain ⟨free, ⟨⟩⟩ := Option.ite_none_right_eq_some.mp stepped
    have asked : 0 < n := ok
    have stream := inv.stream
    rw [free] at stream
    exact runCall_inv inv.fair ⟨by simp, asked, by simp, by simp⟩ stream
  | resume =>
    obtain ⟨call, waits, rfl⟩ := Option.map_eq_some_iff.mp stepped
    have stream := inv.stream
    rw [waits] at stream
    exact runCall_inv inv.fair (inv.waiting call waits) stream

theorem reach_inv (reached : reads.Reach Asks s) : Inv s := by
  refine System.Reach.invariant ?_ ?_ reached
  · rintro s ⟨waiting, done, stream⟩
    refine ⟨?_, ?_, ?_⟩
    · rw [done]
      rintro _ ⟨⟩
    · rw [waiting]
      rintro _ ⟨⟩
    · rw [waiting, done, stream]
      rfl
  · intro s e s' inv ok stepped
    exact step_inv inv ok stepped

/-- **The calls cut the stream into frames.** After any sequence of calls, on a stream that grows
meanwhile: what they returned, written one after the other with a mark for every empty return, is a
front of the stream with a mark for every Ctrl-D. No call returns more than it asked for, or bytes
behind a newline; the bytes of a call stand together in the stream, and no Ctrl-D is among them. -/
theorem reads_frame {s : Reads} (reached : reads.Reach Asks s) :
    s.done.flatMap (fun call => written call.2) <+: marks s.stream ∧
      ∀ n bytes, (n, bytes) ∈ s.done →
        bytes.length ≤ n ∧ newline ∉ bytes.dropLast ∧ eof ∉ bytes ∧ bytes <:+: s.stream := by
  have inv := reach_inv reached
  refine ⟨⟨_, by rw [inv.stream, append_assoc]⟩, ?_⟩
  intro n bytes inside
  obtain ⟨count, line, file⟩ := inv.fair _ inside
  refine ⟨count, line, file, ?_⟩
  by_cases some : bytes = []
  · subst some
    exact nil_infix
  · obtain ⟨before, after, done⟩ := append_of_mem inside
    have stream := inv.stream
    rw [done, flatMap_append, flatMap_cons, written_of_some some, append_assoc,
      append_assoc, append_assoc] at stream
    obtain ⟨front, part, split, -, rest⟩ := map_eq_append_iff.mp stream
    obtain ⟨middle, back, split', here, -⟩ := map_eq_append_iff.mp rest
    rw [split, split', eq_of_marks here]
    exact ⟨front, back, append_assoc _ _ _⟩

/-- A ring that holds `text` from its first cell on. -/
def ring (text : List Byte) (r w : Word) : Input := ⟨(text.getD · 0), r, w, w, 0⟩

def empty : Reads := ⟨ring [] 0 0, none, [], []⟩

/-- `a`, Ctrl-D, `b`, Enter come in two parts: the first call puts the Ctrl-D back, the second takes
it, and the third, for one byte, waits for the second part. -/
def threeCalls : List Event :=
  [.grow (ring [97, 4] 0 2), .read 5, .read 5, .read 1, .grow (ring [97, 4, 98, 10] 2 4), .resume]

def afterCalls : Reads := (reads.run empty threeCalls).getD empty

theorem reads_frame_threeCalls :
    afterCalls.done = [(5, [97]), (5, []), (1, [98])] ∧ afterCalls.stream = [97, 4, 98, 10] ∧
      afterCalls.done.flatMap (fun call => written call.2) <+: marks afterCalls.stream := by
  have admitted : reads.Admits Asks empty threeCalls := by decide
  have reached : reads.Reach Asks afterCalls := .run (.start ⟨rfl, rfl, rfl⟩) admitted rfl
  exact ⟨by decide, by decide, (reads_frame reached).1⟩

end Xv6.Cons.Framing
