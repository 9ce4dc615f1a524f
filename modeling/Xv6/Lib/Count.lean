/-
# Xv6.Lib.Count -- how many places hold a value

A finite family of places, each empty or holding one value. `holders f x` are the places that hold
`x`; the lemmas say how their number changes when one place is filled or emptied. `sum_replace` is
the same step for a family of numbers and its sum.
-/
import Mathlib.Data.Fintype.Basic
import Mathlib.Algebra.BigOperators.Group.Finset.Basic

namespace Xv6.Lib
open Finset Function
set_option autoImplicit false

section Holders

variable {α P : Type} [Fintype α] [DecidableEq P]
  {f g : α → Option P} {a : α} {c : Option P} {x : P}

def holders (f : α → Option P) (x : P) : Finset α := univ.filter fun a => f a = some x

@[simp] theorem mem_holders : a ∈ holders f x ↔ f a = some x := by
  simp [holders]

theorem holders_congr (same : ∀ a, g a = some x ↔ f a = some x) : holders g x = holders f x := by
  ext a
  rw [mem_holders, mem_holders, same]

theorem card_holders_eq_zero : (holders f x).card = 0 ↔ ∀ a, f a ≠ some x := by
  rw [card_eq_zero, eq_empty_iff_forall_notMem]
  simp only [mem_holders]

theorem card_holders_pos (held : f a = some x) : 0 < (holders f x).card :=
  card_pos.mpr ⟨a, mem_holders.mpr held⟩

variable [DecidableEq α]

theorem card_holders_fill (empty : f a = none) :
    (holders (update f a (some x)) x).card = (holders f x).card + 1 := by
  have filled : holders (update f a (some x)) x = insert a (holders f x) := by
    ext b
    by_cases same : b = a
    · simp [same]
    · simp [same]
  rw [filled, card_insert_of_notMem]
  simp [empty]

theorem card_holders_empty (held : f a = some x) :
    (holders (update f a none) x).card + 1 = (holders f x).card := by
  have emptied : holders (update f a none) x = (holders f x).erase a := by
    ext b
    by_cases same : b = a
    · simp [same]
    · simp [same]
  rw [emptied, card_erase_add_one]
  simp [held]

/-- A place that neither held `x` nor does now. -/
theorem holders_update_other (before : f a ≠ some x) (after : c ≠ some x) :
    holders (update f a c) x = holders f x := by
  refine holders_congr fun b => ?_
  by_cases same : b = a
  · simp [same, before, after]
  · simp [same]

/-- What one place counts for. -/
def hit (c : Option P) (x : P) : Nat := if c = some x then 1 else 0

@[simp] theorem hit_none : hit none x = 0 := rfl

@[simp] theorem hit_self : hit (some x) x = 1 := if_pos rfl

theorem card_holders_update :
    (holders (update f a c) x).card + hit (f a) x = (holders f x).card + hit c x := by
  have same : (holders (update f a c) x).erase a = (holders f x).erase a := by
    ext b
    by_cases here : b = a
    · simp [here]
    · simp [here]
  have before := card_erase_add_one (s := holders f x) (a := a)
  have after := card_erase_add_one (s := holders (update f a c) x) (a := a)
  have notBefore := erase_eq_of_notMem (s := holders f x) (a := a)
  have notAfter := erase_eq_of_notMem (s := holders (update f a c) x) (a := a)
  simp only [mem_holders, update_self] at before after notBefore notAfter
  unfold hit
  split <;> split <;> grind

end Holders

/-- Two families that differ in one place have sums that differ by its two values. -/
theorem sum_replace {ι M : Type} [Fintype ι] [DecidableEq ι] [AddCommMonoid M] {f g : ι → M} (i : ι)
    (same : ∀ j, j ≠ i → g j = f j) : ∑ j, g j + f i = ∑ j, f j + g i := by
  rw [← add_sum_erase _ f (mem_univ i), ← add_sum_erase _ g (mem_univ i)]
  have rest : ∑ j ∈ univ.erase i, g j = ∑ j ∈ univ.erase i, f j :=
    sum_congr rfl fun j inside => same j (ne_of_mem_erase inside)
  rw [rest, add_right_comm, add_right_comm (f i), add_comm (g i)]

end Xv6.Lib
