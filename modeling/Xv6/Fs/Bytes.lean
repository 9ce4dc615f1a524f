/-
# Xv6.Fs.Bytes -- numbers and texts in a block

Reading after writing: `Block.put` changes the bytes it covers and no others, a number written with
`leBytes` is read back with `Block.le`, and so is every word of a table.
-/
import Xv6.Fs.Disk

namespace Xv6.Fs
set_option autoImplicit false

open List

variable {data data' : Block} {off i n x : Nat} {text before after : List Byte}

/-! ## Bytes -/

theorem Block.put_below (below : i < off) : data.put off text i = data i :=
  if_neg (Nat.not_le.mpr below)

theorem Block.put_above (above : off + text.length ≤ i) : data.put off text i = data i := by
  unfold Block.put
  rw [if_pos (by omega), getElem?_eq_none (by omega), Option.getD_none]

theorem Block.put_add (inside : i < text.length) : data.put off text (off + i) = text[i] := by
  unfold Block.put
  rw [if_pos (Nat.le_add_right off i), Nat.add_sub_cancel_left, getElem?_eq_getElem inside,
    Option.getD_some]

theorem Block.put_append_here {b : Byte} :
    data.put off (before ++ b :: after) (off + before.length) = b := by
  rw [Block.put_add (by simp), getElem_append_right (Nat.le_refl _)]
  simp

/-! ## Numbers -/

@[simp] theorem leBytes_length (x n : Nat) : (leBytes x n).length = n := by
  induction n generalizing x with
  | zero => rfl
  | succ n ih => rw [leBytes, length_cons, ih]

theorem Block.le_congr (same : ∀ j < n, data' (off + j) = data (off + j)) :
    data'.le off n = data.le off n := by
  induction n generalizing off with
  | zero => rfl
  | succ n ih =>
    have first : data' off = data off := same 0 (Nat.succ_pos n)
    have rest : data'.le (off + 1) n = data.le (off + 1) n := by
      refine ih fun j small => ?_
      rw [Nat.add_assoc, Nat.add_comm 1 j]
      exact same (j + 1) (Nat.succ_lt_succ small)
    rw [Block.le, Block.le, first, rest]

theorem Block.le_lt (data : Block) (off n : Nat) : data.le off n < 256 ^ n := by
  induction n generalizing off with
  | zero => exact Nat.one_pos
  | succ n ih =>
    have first : (data off).toNat < 256 := (data off).toNat_lt
    have rest := ih (off + 1)
    rw [Block.le, pow_succ]
    omega

/-- What `leBytes` has written is read back, wherever in the text it stands. -/
theorem Block.le_put_append (data : Block) (off x n : Nat) (before after : List Byte) :
    (data.put off (before ++ leBytes x n ++ after)).le (off + before.length) n = x % 256 ^ n := by
  induction n generalizing x before with
  | zero => rw [Block.le, pow_zero, Nat.mod_one]
  | succ n ih =>
    have split : before ++ leBytes x (n + 1) ++ after =
        (before ++ [UInt8.ofNat x]) ++ leBytes (x / 256) n ++ after := by
      simp [leBytes]
    have first : (data.put off (before ++ leBytes x (n + 1) ++ after)) (off + before.length) =
        UInt8.ofNat x := by
      rw [leBytes, append_assoc, cons_append]
      exact Block.put_append_here
    have rest := ih (x / 256) (before ++ [UInt8.ofNat x])
    rw [length_append, length_singleton, ← Nat.add_assoc, ← split] at rest
    have digits : x % 256 ^ (n + 1) = x % 256 + 256 * (x / 256 % 256 ^ n) := by
      rw [pow_succ', Nat.mod_mul]
    rw [Block.le, first, rest, UInt8.toNat_ofNat', digits]

theorem Block.le_put (small : x < 256 ^ n) : (data.put off (leBytes x n)).le off n = x := by
  have read := Block.le_put_append data off x n [] []
  rw [nil_append, append_nil, length_nil, Nat.add_zero] at read
  rw [read, Nat.mod_eq_of_lt small]

/-- A field of a record that is written as one text. -/
theorem Block.le_put_field (before after : List Byte) (is : text = before ++ leBytes x n ++ after)
    (small : x < 256 ^ n) : (data.put off text).le (off + before.length) n = x := by
  rw [is, Block.le_put_append, Nat.mod_eq_of_lt small]

theorem Block.le_put_below (below : i + n ≤ off) : (data.put off text).le i n = data.le i n :=
  Block.le_congr fun _ _ => Block.put_below (by omega)

theorem Block.le_put_above (above : off + text.length ≤ i) :
    (data.put off text).le i n = data.le i n :=
  Block.le_congr fun _ _ => Block.put_above (by omega)

/-! ## Tables of words -/

@[simp] theorem words_length (l : List Nat) (n : Nat) :
    (l.flatMap fun x => leBytes x n).length = n * l.length := by
  induction l with
  | nil => rfl
  | cons x rest ih =>
    rw [flatMap_cons, length_append, leBytes_length, ih, length_cons, Nat.mul_succ,
      Nat.add_comm]

/-- The words of a table after `before`, read one by one. -/
theorem Block.le_put_words (data : Block) (off : Nat) (before : List Byte) {l : List Nat} {n : Nat}
    (small : ∀ x ∈ l, x < 256 ^ n) (inside : i < l.length) :
    (data.put off (before ++ l.flatMap fun x => leBytes x n)).le (off + (before.length + n * i)) n =
      l[i] := by
  have cut : l = l.take i ++ l[i] :: l.drop (i + 1) := by simp
  have text : before ++ (l.flatMap fun x => leBytes x n) =
      (before ++ (l.take i).flatMap fun x => leBytes x n) ++ leBytes l[i] n ++
        (l.drop (i + 1)).flatMap fun x => leBytes x n := by
    conv_lhs => rw [cut]
    simp only [flatMap_append, flatMap_cons, append_assoc]
  have place : (before ++ (l.take i).flatMap fun x => leBytes x n).length =
      before.length + n * i := by
    rw [length_append, words_length, length_take, Nat.min_eq_left inside.le]
  have read := Block.le_put_append data off l[i] n
    (before ++ (l.take i).flatMap fun x => leBytes x n)
    ((l.drop (i + 1)).flatMap fun x => leBytes x n)
  rw [← text, place] at read
  rw [read, Nat.mod_eq_of_lt (small _ (getElem_mem inside))]

/-- A block of zeros reads as zero everywhere. -/
theorem Block.le_zero (off n : Nat) : Block.le (fun _ => 0) off n = 0 := by
  induction n generalizing off with
  | zero => rfl
  | succ n ih => rw [Block.le, ih]; rfl

end Xv6.Fs
