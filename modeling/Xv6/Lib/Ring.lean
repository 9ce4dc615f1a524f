/-
# Xv6.Lib.Ring -- ring buffers under unbounded counters

A ring of `N` cells is read and written at counters that only ever grow; the cell of counter `i` is
`i % N`. Counters less than `N` apart never share a cell, so a write at the end of a region of at
most `N` counters leaves the region before it alone. Machine counters wrap at a multiple of `N`,
which does not move their cell (`wrapped_mod`), so the arithmetic of the wrapped counters can be
done on the unbounded ones.
-/
import Mathlib.Tactic

namespace Xv6.Lib.Ring

open List

set_option autoImplicit false

universe u

variable {α : Type u} (N : Nat)

def read (buf : Nat → α) (i : Nat) : α := buf (i % N)

def write (buf : Nat → α) (i : Nat) (a : α) : Nat → α := Function.update buf (i % N) a

/-- The `n` elements from counter `i` on. -/
def window (buf : Nat → α) (i n : Nat) : List α :=
  (range n).map fun k => read N buf (i + k)

variable {N}

theorem wrapped_mod {M : Nat} (divides : N ∣ M) (i : Nat) : i % M % N = i % N :=
  Nat.mod_mod_of_dvd i divides

variable {i j n : Nat} {buf buf' : Nat → α}

theorem mod_ne (below : i < j) (close : j < i + N) : i % N ≠ j % N := by
  intro same
  have divides : N ∣ j - i := (Nat.modEq_iff_dvd' below.le).mp same
  have := Nat.le_of_dvd (by omega) divides
  omega

theorem read_write_above (buf : Nat → α) (a : α) (below : i < j) (close : j < i + N) :
    read N (write N buf j a) i = read N buf i := by
  simp [read, write, Function.update_of_ne (mod_ne below close)]

/-- Within one turn of the ring a write changes its own counter only. -/
theorem read_write (buf : Nat → α) (a : α) (close : i < j + N) (close' : j < i + N) :
    read N (write N buf j a) i = if i = j then a else read N buf i := by
  by_cases same : i = j
  · subst same
    simp [read, write]
  · have differ : i % N ≠ j % N := by
      rcases Nat.lt_or_gt_of_ne same with below | above
      · exact mod_ne below close'
      · exact (mod_ne above close).symm
    rw [if_neg same]
    simp [read, write, Function.update_of_ne differ]

/-! ## Windows -/

@[simp] theorem window_zero (buf : Nat → α) (i : Nat) : window N buf i 0 = [] := rfl

theorem window_append (buf : Nat → α) (i n m : Nat) :
    window N buf i (n + m) = window N buf i n ++ window N buf (i + n) m := by
  simp [window, range_add, Function.comp_def, Nat.add_assoc]

theorem window_cons (buf : Nat → α) (i n : Nat) :
    window N buf i (n + 1) = read N buf i :: window N buf (i + 1) n := by
  rw [Nat.add_comm n 1, window_append]
  rfl

theorem window_congr (same : ∀ k, i ≤ k → k < i + n → read N buf' k = read N buf k) :
    window N buf' i n = window N buf i n := by
  refine map_congr_left fun k inside => same _ (by omega) ?_
  have := mem_range.mp inside
  omega

theorem window_length (buf : Nat → α) (i n : Nat) : (window N buf i n).length = n := by
  simp [window]

/-- The same elements, somewhere else. -/
theorem window_shift (same : ∀ k < n, read N buf' (j + k) = read N buf (i + k)) :
    window N buf' j n = window N buf i n := by
  apply map_congr_left
  intro k inside
  exact same k (mem_range.mp inside)

theorem window_take (buf : Nat → α) (i n m : Nat) :
    (window N buf i (n + m)).take n = window N buf i n := by
  rw [window_append, take_left' (window_length buf i n)]

theorem window_drop (buf : Nat → α) (i n m : Nat) :
    (window N buf i (n + m)).drop n = window N buf (i + n) m := by
  rw [window_append, drop_left' (window_length buf i n)]

/-- What stands behind the first `n` elements has moved up by one, and `a` stands in the gap. -/
theorem window_insert {m : Nat} {a : α}
    (before : ∀ k, i ≤ k → k < i + n → read N buf' k = read N buf k) (gap : read N buf' (i + n) = a)
    (behind : ∀ k < m, read N buf' (i + n + 1 + k) = read N buf (i + n + k)) :
    window N buf' i (n + m + 1) =
      (window N buf i (n + m)).take n ++ a :: (window N buf i (n + m)).drop n := by
  rw [window_take, window_drop, Nat.add_assoc, window_append, window_cons, gap,
    window_congr before, window_shift behind]

/-- What stands behind the first `n + 1` elements has moved down by one. -/
theorem window_delete {m : Nat} (before : ∀ k, i ≤ k → k < i + n → read N buf' k = read N buf k)
    (behind : ∀ k < m, read N buf' (i + n + k) = read N buf (i + (n + 1) + k)) :
    window N buf' i (n + m) =
      (window N buf i (n + 1 + m)).take n ++ (window N buf i (n + 1 + m)).drop (n + 1) := by
  have split : n + 1 + m = n + (1 + m) := Nat.add_assoc n 1 m
  rw [window_drop, split, window_take, window_append, window_congr before, window_shift behind]

/-! ## Passes that write -/

/-- A pass over `steps` that writes one cell for each leaves alone every counter below all the
counters it writes. -/
theorem read_foldl_write {σ : Type} (steps : List σ) (target : σ → Nat)
    (value : (Nat → α) → σ → α) (buf : Nat → α) {k : Nat}
    (above : ∀ x ∈ steps, k < target x ∧ target x < k + N) :
    read N (steps.foldl (fun b x => write N b (target x) (value b x)) buf) k = read N buf k := by
  induction steps generalizing buf with
  | nil => rfl
  | cons x rest ih =>
    obtain ⟨below, close⟩ := above x (by simp)
    rw [foldl_cons, ih _ fun y inside => above y (by simp [inside]),
      read_write_above buf _ below close]

/-- A pass from counter `top` downwards that moves `n` elements up by one. -/
theorem read_moveUp (buf : Nat → α) {top : Nat} (low : n ≤ top) (short : n < N) (below : i ≤ top)
    (close : top < i + N) :
    read N ((range n).foldl (fun b k => write N b (top - k) (read N b (top - k - 1))) buf) i =
      if top < i + n then read N buf (i - 1) else read N buf i := by
  induction n generalizing i with
  | zero => rw [if_neg (by omega)]; rfl
  | succ n ih =>
    rw [range_succ, foldl_append, foldl_cons, foldl_nil,
      read_write _ _ (by omega) (by omega)]
    by_cases here : i = top - n
    · -- the element below has not been moved yet
      subst here
      rw [if_pos rfl, ih (by omega) (by omega) (by omega) (by omega), if_neg (by omega),
        if_pos (by omega)]
    · rw [if_neg here, ih (by omega) (by omega) below close]
      by_cases moved : top < i + n
      · rw [if_pos moved, if_pos (by omega)]
      · rw [if_neg moved, if_neg (by omega)]

/-- A pass from counter `bottom` upwards that moves `n` elements down by one. -/
theorem read_moveDown (buf : Nat → α) {bottom : Nat} (short : n < N) (below : i < bottom + N)
    (close : bottom + n ≤ i + N) :
    read N ((range n).foldl (fun b k => write N b (bottom + k) (read N b (bottom + k + 1))) buf) i =
      if bottom ≤ i ∧ i < bottom + n then read N buf (i + 1) else read N buf i := by
  induction n generalizing i with
  | zero => rw [if_neg (by omega)]; rfl
  | succ n ih =>
    rw [range_succ, foldl_append, foldl_cons, foldl_nil,
      read_write _ _ (by omega) (by omega)]
    by_cases here : i = bottom + n
    · -- the element above has not been moved yet
      subst here
      rw [if_pos rfl, ih (by omega) (by omega) (by omega), if_neg (by omega), if_pos (by omega)]
    · rw [if_neg here, ih (by omega) below (by omega)]
      by_cases moved : bottom ≤ i ∧ i < bottom + n
      · rw [if_pos moved, if_pos (by omega)]
      · rw [if_neg moved, if_neg (by omega)]

end Xv6.Lib.Ring
