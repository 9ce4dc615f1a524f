/-
# Xv6.Grep -- grep.c: the pattern matcher decides the language of its pattern

A string is the list of its bytes before the NUL. The matcher works on the bytes of pattern and text
as it finds them; what a pattern means is a language, built from the languages of its elements.
-/
import Xv6.Param
import Mathlib.Computability.Language

namespace Xv6.Grep
open Computability Language
set_option autoImplicit false

abbrev Byte := UInt8

def caret : Byte := 94
def dollar : Byte := 36
def star : Byte := 42
def dot : Byte := 46

/-! ## The code -/

/-- `matchstar(c, re, text)`, with `matchhere(re, ·)` for `re`. -/
def matchstar (here : List Byte → Bool) (c : Byte) : List Byte → Bool
  | [] => here []
  | b :: text => here (b :: text) || (b == c || c == dot) && matchstar here c text

def matchhere : List Byte → List Byte → Bool
  | [], _ => true
  | [c], text =>
    if c = dollar then text.isEmpty
    else
      match text with
      | [] => false
      | b :: _ => c == dot || c == b
  | c :: d :: re, text =>
    if d = star then matchstar (matchhere re) c text
    else
      match text with
      | [] => false
      | b :: text => (c == dot || c == b) && matchhere (d :: re) text

/-- The loop of `match`, over the ends of the text. -/
def matchLoop (re : List Byte) : List Byte → Bool
  | [] => matchhere re []
  | b :: text => matchhere re (b :: text) || matchLoop re text

def matchText (re text : List Byte) : Bool :=
  if re.head? = some caret then matchhere re.tail text else matchLoop re text

/-! ## What a pattern means -/

/-- The words of one byte that `c` stands for. -/
def byte (c : Byte) : Language Byte := {w | ∃ b, w = [b] ∧ (c = dot ∨ c = b)}

/-- The texts that begin with what the pattern describes. -/
def language : List Byte → Language Byte
  | [] => ⊤
  | [c] => if c = dollar then 1 else byte c * ⊤
  | c :: d :: re => if d = star then (byte c)∗ * language re else byte c * language (d :: re)

variable {c b : Byte} {text : List Byte} {L : Language Byte}

@[simp] theorem nil_notMem_byte_mul : [] ∉ byte c * L := by
  rintro ⟨_, ⟨b, rfl, -⟩, y, -, eq⟩
  cases eq

@[simp] theorem cons_mem_byte_mul : b :: text ∈ byte c * L ↔ (c = dot ∨ c = b) ∧ text ∈ L := by
  constructor
  · rintro ⟨_, ⟨b, rfl, fits⟩, y, rest, eq⟩
    cases eq
    exact ⟨fits, rest⟩
  · rintro ⟨fits, rest⟩
    exact ⟨[b], ⟨b, rfl, fits⟩, text, rest, rfl⟩

theorem matchstar_iff {here : List Byte → Bool} (meaning : ∀ text, here text = true ↔ text ∈ L)
    (text : List Byte) : matchstar here c text = true ↔ text ∈ (byte c)∗ * L := by
  have unroll : (byte c)∗ * L = L + byte c * ((byte c)∗ * L) := by
    rw [← mul_assoc, ← one_add_mul, one_add_self_mul_kstar_eq_kstar]
  induction text with
  | nil => rw [unroll, mem_add, or_iff_left nil_notMem_byte_mul, matchstar, meaning]
  | cons b text ih =>
    rw [unroll, mem_add, cons_mem_byte_mul, or_comm (a := c = dot), eq_comm (a := c)]
    simp [matchstar, meaning, ih]

theorem matchhere_iff (re text : List Byte) : matchhere re text = true ↔ text ∈ language re := by
  have all : ∀ text, text ∈ (⊤ : Language Byte) := fun _ => trivial
  fun_induction language re generalizing text with
  | case1 => exact iff_of_true rfl trivial
  | case2 => simp [matchhere, mem_one]
  | case3 c other => cases text <;> simp [matchhere, other, all]
  | case4 c re ih =>
    exact matchstar_iff ih text
  | case5 c d re other ih =>
    cases text <;> simp [matchhere, other, ih]

theorem matchLoop_iff (re text : List Byte) :
    matchLoop re text = true ↔ ∃ rest, rest <:+ text ∧ rest ∈ language re := by
  induction text with
  | nil => simp [matchLoop, matchhere_iff]
  | cons b text ih =>
    simp only [matchLoop, Bool.or_eq_true, matchhere_iff, ih, List.suffix_cons_iff, or_and_right,
      exists_or, exists_eq_left]

/-- `match` returns 1 exactly if the text, after `^`, or else some end of it, begins as the pattern
describes. -/
theorem matchText_iff (re text : List Byte) : matchText re text = true ↔
    if re.head? = some caret then text ∈ language re.tail
    else ∃ rest, rest <:+ text ∧ rest ∈ language re := by
  unfold matchText
  split
  · exact matchhere_iff re.tail text
  · exact matchLoop_iff re text

end Xv6.Grep
