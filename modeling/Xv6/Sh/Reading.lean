/-
# Xv6.Sh.Reading -- the cursor of the parser over the tokens of the line

The parser moves a cursor over bytes; `Cursor line s tokens` says that `tokens` are what is left of
the line at `s`. `peek` keeps them and looks at the first (`peek_spec`), `gettoken` takes it away
(`gettoken_spec`). A word it returns is a span that ends before a byte which is in no word
(`Span.Marks`), so terminating words in place does not run into another word
(`cstring_terminated` in `Xv6.Sh.Parsing`).
-/
import Mathlib.Data.List.GetD
import Xv6.Lib.Ensures
import Xv6.Sh.Grammar

namespace Xv6.Sh
set_option autoImplicit false

open Lib CString List

variable {line : CString} {s : Nat} {tokens : List Token}

/-! ## The line at a place -/

namespace CString

theorem drop_eq_cons (inside : s < line.es) :
    line.bytes.drop s = line.char s :: line.bytes.drop (s + 1) := by
  rw [drop_eq_getElem_cons inside, char, getD_eq_getElem _ _ inside]

theorem drop_es : line.bytes.drop line.es = [] := drop_length

theorem char_es : line.char line.es = 0 := by simp [char, es]

theorem char_ne_zero (inside : s < line.es) : line.char s ≠ 0 := by
  rw [char, getD_eq_getElem _ _ inside]
  intro zero
  exact line.terminated (zero ▸ getElem_mem inside)

/-- The bytes at a place tell the byte there. -/
theorem char_eq {c : Byte} {rest : List Byte} (at_s : line.bytes.drop s = c :: rest) :
    line.char s = c ∧ s < line.es ∧ line.bytes.drop (s + 1) = rest := by
  have inside : s < line.es := by
    by_contra outside
    rw [drop_eq_nil_of_le (by simpa [es] using outside)] at at_s
    simp at at_s
  rw [drop_eq_cons inside] at at_s
  obtain ⟨first, others⟩ := cons.inj at_s
  exact ⟨first, inside, others⟩

/-- A scan passes the bytes of the kind, up to the first that is of another. -/
theorem scan_eq {p : Byte → Bool} {text rest : List Byte} (at_s : line.bytes.drop s = text ++ rest)
    (inside : ∀ c ∈ text, p c = true) (ends : ∀ c ∈ rest.head?, p c = false) :
    line.scan p s = s + text.length := by
  induction text generalizing s with
  | nil =>
    rw [scan, if_neg]
    · rfl
    · rintro ⟨within, passes⟩
      rw [nil_append, drop_eq_cons within] at at_s
      rw [ends _ (by simp [← at_s])] at passes
      simp at passes
  | cons c text ih =>
    obtain ⟨here, within, others⟩ := char_eq at_s
    rw [scan, if_pos ⟨within, here ▸ inside c (by simp)⟩,
      ih others fun b there => inside b (by simp [there])]
    simp
    omega

end CString

/-! ## Tokens at a place -/

/-- The token stands at `q`. -/
structure Token.At (line : CString) (t : Token) (q : Nat) : Prop where
  text : line.bytes.drop q = t.text ++ line.bytes.drop (q + t.text.length)
  ends : t.Ends (line.bytes.drop (q + t.text.length))

structure Cursor (line : CString) (s : Nat) (tokens : List Token) : Prop where
  within : s ≤ line.es
  spells : Spells (line.bytes.drop s) tokens

theorem Spells.tail_of_white {c : Byte} {bytes : List Byte} (spelled : Spells (c :: bytes) tokens)
    (white : c ∈ whitespace) : Spells bytes tokens := by
  obtain ⟨tokens', more⟩ := Spells.exists bytes
  rw [spelled.unique (.blank white more)]
  exact more

/-- Behind the whitespace there is the first token, or the end of the line. -/
theorem Cursor.skip (cursor : Cursor line s tokens) :
    Cursor line (line.scan (· ∈ whitespace) s) tokens ∧
      line.char (line.scan (· ∈ whitespace) s) ∉ whitespace := by
  induction s using scan.induct line (· ∈ whitespace) with
  | case1 s more ih =>
    rw [scan, if_pos more]
    refine ih ⟨more.1, ?_⟩
    have spelled := cursor.spells
    rw [drop_eq_cons more.1] at spelled
    exact spelled.tail_of_white (by simpa using more.2)
  | case2 s done =>
    rw [scan, if_neg done]
    refine ⟨cursor, fun white => done ⟨?_, by simpa using white⟩⟩
    refine lt_of_le_of_ne cursor.within fun ended => ?_
    rw [ended, char_es] at white
    exact absurd white (by decide)

theorem Cursor.none (cursor : Cursor line s []) (dark : line.char s ∉ whitespace) : s = line.es := by
  by_contra differs
  have spelled := cursor.spells
  generalize bytes : line.bytes.drop s = all, noTokens : ([] : List Token) = none at spelled
  have inside := drop_eq_cons (lt_of_le_of_ne cursor.within differs)
  cases spelled with
  | done => simp [inside] at bytes
  | blank white => exact dark ((char_eq bytes).1 ▸ white)
  | token => simp at noTokens

variable {t : Token} {bad : Stop → Prop}

theorem Cursor.first (cursor : Cursor line s (t :: tokens)) (dark : line.char s ∉ whitespace) :
    t.At line s ∧ Cursor line (s + t.text.length) tokens := by
  have spelled := cursor.spells
  generalize bytes : line.bytes.drop s = all at spelled
  cases spelled with
  | blank white => exact absurd ((char_eq bytes).1 ▸ white) dark
  | @token _ rest _ ends more =>
    have behind : line.bytes.drop (s + t.text.length) = rest := by
      rw [← drop_drop, bytes, drop_left]
    refine ⟨⟨by rw [bytes, behind], behind ▸ ends⟩, ?_, behind ▸ more⟩
    have length := congrArg length bytes
    rw [length_drop, length_append] at length
    obtain ⟨c, others, text, -⟩ := t.exists_cons
    have positive : 0 < t.text.length := by simp [text]
    unfold es
    omega

/-! ## `peek` -/

/-- The symbol a token starts with. -/
def Token.lead : Token → Option Byte
  | .bar => some 124
  | .open => some 40
  | .close => some 41
  | .semi => some 59
  | .amp => some 38
  | .less => some 60
  | .greater | .append => some 62
  | .word _ => none

/-- The answer of `peek`. -/
def peeks (toks : List Byte) (tokens : List Token) : Bool :=
  (tokens.head?.bind Token.lead).any (· ∈ toks)

/-- The byte where a token stands. -/
theorem Token.At.char (stands : t.At line s) :
    line.char s ≠ 0 ∧ ∀ toks ⊆ symbols, (line.char s ∈ toks ↔ t.lead.any (· ∈ toks) = true) := by
  have bytes := stands.text
  obtain ⟨c, others, text, -⟩ := t.exists_cons
  rw [text, cons_append] at bytes
  obtain ⟨here, inside, -⟩ := char_eq bytes
  refine ⟨char_ne_zero inside, fun toks some => ?_⟩
  rw [here]
  cases t with
  | word w =>
    have plain := wordByte_iff.mp (w.plain c (by rw [show w.text = c :: others from text]; simp))
    simp only [Token.lead, Option.any_none, Bool.false_eq_true, iff_false]
    exact fun inside => plain.2 (some inside)
  | _ =>
    cases text
    simp [Token.lead]

theorem peek_spec {toks : List Byte} (some : toks ⊆ symbols) (cursor : Cursor line s tokens) :
    Ensures bad (peek line toks) s fun answer s' =>
      Cursor line s' tokens ∧ answer = peeks toks tokens := by
  obtain ⟨there, dark⟩ := cursor.skip
  refine ⟨there, ?_⟩
  cases tokens with
  | nil => simp [there.none dark, char_es, peeks]
  | cons t tokens =>
    obtain ⟨exists_, same⟩ := (there.first dark).1.char
    simp [exists_, same toks some, peeks]

/-- A `peek`, and what is done with its answer. -/
theorem peek_bind {β : Type} {toks : List Byte} {f : Bool → ParseM β} {Q : β → Nat → Prop}
    (cursor : Cursor line s tokens) (some : toks ⊆ symbols)
    (next : ∀ s', Cursor line s' tokens → Ensures bad (f (peeks toks tokens)) s' Q) :
    Ensures bad (peek line toks >>= f) s Q := by
  refine (peek_spec some cursor).bind ?_
  rintro answer s' ⟨cursor', rfl⟩
  exact next s' cursor'

/-- With no token left, `peek` goes to the end of the line. -/
theorem peek_none {toks : List Byte} (cursor : Cursor line s []) :
    Ensures bad (peek line toks) s fun _ s' => s' = line.es := by
  obtain ⟨there, dark⟩ := cursor.skip
  exact there.none dark

/-! ## `gettoken` -/

/-- What `gettoken` returns for a token. -/
def Token.code : Token → Byte
  | .bar => 124
  | .open => 40
  | .close => 41
  | .semi => 59
  | .amp => 38
  | .less => 60
  | .greater => 62
  | .append => 43
  | .word _ => 97

/-- The span is that of the word. -/
structure Span.Marks (line : CString) (span : Span) (w : Word) : Prop where
  stands : (Token.word w).At line span.q
  eq : span.eq = span.q + w.text.length

theorem Token.At.tokenAt {q : Nat} (stands : t.At line q) :
    tokenAt line q = (t.code, q + t.text.length) := by
  obtain ⟨bytes, ends⟩ := stands
  simp only [Sh.tokenAt]
  cases t with
  | word w =>
    obtain ⟨c, others, text, plain⟩ := w.exists_cons
    have scanned := scan_eq bytes w.plain ends
    rw [show (Token.word w).text = c :: others from text] at bytes
    obtain ⟨here, inside, -⟩ := char_eq bytes
    have dark := (wordByte_iff.mp plain).2
    simp only [symbols, mem_cons, not_mem_nil, or_false, not_or] at dark
    rw [if_neg (char_ne_zero inside), here, if_neg (by simp; tauto), if_neg (by tauto),
      scanned]
    rfl
  | greater =>
    obtain ⟨here, inside, others⟩ := char_eq bytes
    have single : line.char (q + 1) ≠ 62 := by
      intro again
      by_cases more : q + 1 < line.es
      · refine ends ?_
        show (line.bytes.drop (q + 1)).head? = _
        rw [drop_eq_cons more, again]
        rfl
      · rw [CString.char, getD_eq_default _ _ (by simpa [CString.es] using more)] at again
        simp at again
    rw [if_neg (by simp [here]), if_neg (by simp [here]), if_pos here, if_neg single]
    rfl
  | append =>
    obtain ⟨here, -, others⟩ := char_eq bytes
    obtain ⟨again, -, -⟩ := char_eq others
    rw [if_neg (by simp [here]), if_neg (by simp [here]), if_pos here, if_pos again]
    rfl
  | _ =>
    obtain ⟨here, -, -⟩ := char_eq bytes
    rw [if_neg (by simp [here]), if_pos (by simp [here]), here]
    rfl

theorem tokenAt_es : tokenAt line line.es = (0, line.es) := by simp [tokenAt, char_es]

theorem gettoken_none (cursor : Cursor line s []) :
    Ensures bad (gettoken line) s fun answer s' => answer.1 = 0 ∧ Cursor line s' [] := by
  obtain ⟨there, dark⟩ := cursor.skip
  have ended := there.none dark
  simp only [Ensures, gettoken, ended, tokenAt_es, true_and]
  exact (ended ▸ there).skip.1

theorem gettoken_spec (cursor : Cursor line s (t :: tokens)) :
    Ensures bad (gettoken line) s fun answer s' =>
      answer.1 = t.code ∧ t.At line answer.2.q ∧ answer.2.eq = answer.2.q + t.text.length ∧
        Cursor line s' tokens := by
  obtain ⟨there, dark⟩ := cursor.skip
  obtain ⟨stands, behind⟩ := there.first dark
  simp only [Ensures, gettoken, stands.tokenAt, true_and]
  exact ⟨stands, behind.skip.1⟩

/-- A token that is passed over. -/
theorem gettoken_bind {β : Type} {f : Byte × Span → ParseM β} {Q : β → Nat → Prop}
    (cursor : Cursor line s (t :: tokens))
    (next : ∀ answer s', Cursor line s' tokens → Ensures bad (f answer) s' Q) :
    Ensures bad (gettoken line >>= f) s Q :=
  (gettoken_spec cursor).bind fun answer s' read => next answer s' read.2.2.2

end Xv6.Sh
