/-
# Xv6.Lib.WriteBack -- a write-back cache

Lines of a cache, each for one key of a memory or for none. A dirty line may differ from the memory, a
line that is not valid has no data yet. `Coherent line memory latest` says that the cache with the
memory under it shows the `latest` values: in a valid line, or in the memory if no line is dirty.
Every operation of a cache keeps it; only a store changes what is latest.
-/
import Mathlib.Tactic

namespace Xv6.Lib
open Function
set_option autoImplicit false

structure Line (K D : Type) where
  key : Option K
  valid : Bool
  dirty : Bool
  data : D

structure Coherent {I K D : Type} (line : I → Line K D) (memory latest : K → D) : Prop where
  unique : ∀ i j k, (line i).key = some k → (line j).key = some k → i = j
  shown : ∀ i k, (line i).key = some k → (line i).valid = true → (line i).data = latest k
  clean : ∀ i k, (line i).key = some k → (line i).dirty = false → memory k = latest k
  invalid : ∀ i, (line i).valid = false → (line i).dirty = false
  absent : ∀ k, (∀ i, (line i).key ≠ some k) → memory k = latest k

namespace Coherent

variable {I K D : Type} [DecidableEq I] {line : I → Line K D} {memory latest : K → D}
  {i : I} {k : K} {x : D}

section

variable (coherent : Coherent line memory latest)
include coherent

/-- A line that is not dirty is taken for a key that no line has. -/
theorem assign (clean : (line i).dirty = false) (absent : ∀ j, (line j).key ≠ some k) :
    Coherent (update line i ⟨some k, false, false, x⟩) memory latest := by
  constructor
  case unique =>
    intro j j' k' here there
    have := coherent.unique j j' k'
    by_cases at₁ : j = i <;> by_cases at₂ : j' = i <;> simp_all
  case shown =>
    intro j k' here valid
    have other : j ≠ i := by
      rintro rfl
      simp at valid
    rw [update_of_ne other] at here valid ⊢
    exact coherent.shown j k' here valid
  case clean =>
    intro j k' here notDirty
    by_cases same : j = i
    · rw [same, update_self] at here
      cases here
      exact coherent.absent k absent
    · rw [update_of_ne same] at here notDirty
      exact coherent.clean j k' here notDirty
  case invalid =>
    intro j
    by_cases same : j = i
    · simp [same]
    · simpa [same] using coherent.invalid j
  case absent =>
    intro k' without
    -- the key that the line had before is in the memory as it should be
    by_cases had : (line i).key = some k'
    · exact coherent.clean i k' had clean
    · refine coherent.absent k' fun j => ?_
      by_cases same : j = i
      · rwa [same]
      · have := without j
        rwa [update_of_ne same] at this

/-- A line keeps its key `k`, and nothing changes for other keys. -/
theorem change {memory' latest' : K → D} {new : Line K D} (here : (line i).key = some k)
    (key : new.key = some k) (memories : ∀ k', k' ≠ k → memory' k' = memory k')
    (latests : ∀ k', k' ≠ k → latest' k' = latest k')
    (shown : new.valid = true → new.data = latest' k)
    (clean : new.dirty = false → memory' k = latest' k)
    (invalid : new.valid = false → new.dirty = false) :
    Coherent (update line i new) memory' latest' := by
  have keys : ∀ j, (update line i new j).key = (line j).key := by
    intro j
    by_cases same : j = i
    · rw [same, update_self, key, here]
    · rw [update_of_ne same]
  have others : ∀ j k', j ≠ i → (line j).key = some k' → k' ≠ k := by
    rintro j k' other named rfl
    exact other (coherent.unique j i k' named here)
  constructor
  case unique =>
    simp only [keys]
    exact coherent.unique
  case shown =>
    intro j k' named valid
    by_cases same : j = i
    · rw [same, update_self] at named valid ⊢
      rw [key] at named
      cases named
      exact shown valid
    · rw [update_of_ne same] at named valid ⊢
      rw [latests k' (others j k' same named)]
      exact coherent.shown j k' named valid
  case clean =>
    intro j k' named notDirty
    by_cases same : j = i
    · rw [same, update_self] at named notDirty
      rw [key] at named
      cases named
      exact clean notDirty
    · rw [update_of_ne same] at named notDirty
      have other := others j k' same named
      rw [memories k' other, latests k' other]
      exact coherent.clean j k' named notDirty
  case invalid =>
    intro j
    by_cases same : j = i
    · rw [same, update_self]
      exact invalid
    · rw [update_of_ne same]
      exact coherent.invalid j
  case absent =>
    intro k' without
    simp only [keys] at without
    have other : k' ≠ k := by
      rintro rfl
      exact without i here
    rw [memories k' other, latests k' other]
    exact coherent.absent k' without

/-- A line that is not dirty gets its data from the memory. -/
theorem load (here : (line i).key = some k) (clean : (line i).dirty = false) :
    Coherent (update line i ⟨some k, true, false, memory k⟩) memory latest := by
  have same := coherent.clean i k here clean
  exact coherent.change here rfl (fun _ _ => rfl) (fun _ _ => rfl) (fun _ => same) (fun _ => same)
    fun _ => rfl

/-- A line is marked dirty, whether it was changed or not. -/
theorem mark (here : (line i).key = some k) (valid : (line i).valid = true) :
    Coherent (update line i { line i with dirty := true }) memory latest := by
  refine coherent.change here here (fun _ _ => rfl) (fun _ _ => rfl) ?_ ?_ ?_
  · exact fun _ => coherent.shown i k here valid
  · rintro ⟨⟩
  · intro notValid
    exact absurd (valid.symm.trans notValid) (by simp)

end

variable [DecidableEq K]

/-- New data, in the line only. -/
theorem store (coherent : Coherent line memory latest) (here : (line i).key = some k)
    (valid : (line i).valid = true) :
    Coherent (update line i { line i with data := x, dirty := true }) memory
      (update latest k x) := by
  refine coherent.change here here (fun _ _ => rfl) (fun k' other => ?_) ?_ ?_ ?_
  · exact update_of_ne other _ _
  · exact fun _ => (update_self k x latest).symm
  · rintro ⟨⟩
  · intro notValid
    exact absurd (valid.symm.trans notValid) (by simp)

/-- The data of a line is written to the memory. -/
theorem flush (coherent : Coherent line memory latest) (here : (line i).key = some k)
    (valid : (line i).valid = true) :
    Coherent (update line i { line i with dirty := false })
      (update memory k (line i).data) latest := by
  have shown := coherent.shown i k here valid
  refine coherent.change here here (fun k' other => ?_) (fun _ _ => rfl) (fun _ => shown) ?_ fun _ => rfl
  · exact update_of_ne other _ _
  · intro _
    rw [update_self]
    exact shown

end Coherent

end Xv6.Lib
