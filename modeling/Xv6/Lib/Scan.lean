/-
# Xv6.Lib.Scan -- loops that keep the best element so far

A loop over a list looks at the elements that fit and keeps one of them. It gives the one it has up only
for one with a smaller key, so what it ends with is the first of those with the least key.
-/
import Mathlib.Tactic

namespace Xv6.Lib
set_option autoImplicit false

universe u v

variable {ι : Type u} {κ : Type v} [LinearOrder κ] (fits : ι → Prop) [DecidablePred fits] (key : ι → κ)

def keepLeast (found : Option ι) (i : ι) : Option ι :=
  if fits i then
    match found with
    | none => some i
    | some j => if key i < key j then some i else some j
  else
    found

def scanLeast (l : List ι) : Option ι := l.foldl (keepLeast fits key) none

theorem scanLeast_snoc (l : List ι) (i : ι) :
    scanLeast fits key (l ++ [i]) = keepLeast fits key (scanLeast fits key l) i := by
  rw [scanLeast, List.foldl_append]
  rfl

variable {fits key} {l : List ι}

theorem keepLeast_eq_none {found : Option ι} {i : ι} :
    keepLeast fits key found i = none ↔ found = none ∧ ¬ fits i := by
  unfold keepLeast
  by_cases fit : fits i
  · cases found with
    | none => simp [fit]
    | some j => by_cases less : key i < key j <;> simp [fit, less]
  · simp [fit]

theorem scanLeast_eq_none : scanLeast fits key l = none ↔ ∀ i ∈ l, ¬ fits i := by
  induction l using List.reverseRecOn with
  | nil => simp [scanLeast]
  | append_singleton l x ih =>
    rw [scanLeast_snoc, keepLeast_eq_none, ih]
    simp [or_imp, forall_and]

/-- The list is in order, so the first of several elements with one key is the least. -/
theorem scanLeast_eq_some [LinearOrder ι] {p : ι} (sorted : l.Pairwise (· < ·))
    (found : scanLeast fits key l = some p) :
    fits p ∧ ∀ i ∈ l, fits i → key p ≤ key i ∧ (key i = key p → p ≤ i) := by
  -- what has been found so far is in the list, before the next element
  suffices all : p ∈ l ∧ fits p ∧ ∀ i ∈ l, fits i → key p ≤ key i ∧ (key i = key p → p ≤ i) from all.2
  induction l using List.reverseRecOn generalizing p with
  | nil => cases found
  | append_singleton l x ih =>
    obtain ⟨sortedL, -, before⟩ := List.pairwise_append.mp sorted
    rw [scanLeast_snoc] at found
    have none := @scanLeast_eq_none ι κ _ fits _ key l
    cases scan : scanLeast fits key l with
    | none =>
      simp only [scan, keepLeast] at found
      split at found <;> grind
    | some j =>
      simp only [scan, keepLeast] at found
      split at found
      · split at found <;> grind
      · grind

end Xv6.Lib
