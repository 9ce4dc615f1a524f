/-
# Xv6.Lib.Outcome -- taking computations that may fail apart

A computation in `Except` that returned went through every step before it. One that never ends in a
`bad` error has only steps of this kind.
-/
import Mathlib.Logic.Basic

namespace Xv6.Lib
set_option autoImplicit false

universe u v w

variable {ε : Type u} {α : Type v} {β : Type w} {x : Except ε α}

theorem map_eq_ok {f : α → β} {b : β} (ran : x.map f = .ok b) : ∃ a, x = .ok a ∧ f a = b := by
  cases x with
  | error e => cases ran
  | ok a =>
    cases ran
    exact ⟨a, rfl, rfl⟩

theorem bind_eq_ok {β : Type v} {f : α → Except ε β} {b : β} (ran : (x >>= f) = .ok b) :
    ∃ a, x = .ok a ∧ f a = .ok b := by
  cases x with
  | error e => cases ran
  | ok a => exact ⟨a, rfl, ran⟩

theorem ok_bind {β : Type v} (a : α) (f : α → Except ε β) : (Except.ok a >>= f) = f a := rfl

theorem pure_eq_ok {a b : α} (ran : (pure a : Except ε α) = .ok b) : a = b := by
  cases ran
  rfl

/-- The computation does not end in a `bad` error. -/
def Avoids (bad : ε → Prop) (x : Except ε α) : Prop := ∀ e, x = .error e → ¬bad e

variable {bad : ε → Prop}

theorem Avoids.ok (a : α) : Avoids bad (.ok a : Except ε α) := nofun

theorem Avoids.error {e : ε} (fine : ¬bad e) : Avoids bad (.error e : Except ε α) := by
  intro e' eq
  cases eq
  exact fine

theorem Avoids.bind {β : Type v} {f : α → Except ε β} (first : Avoids bad x)
    (rest : ∀ a, x = .ok a → Avoids bad (f a)) : Avoids bad (x >>= f) := by
  cases x with
  | error e =>
    intro e' eq
    cases eq
    exact first e rfl
  | ok a => exact rest a rfl

end Xv6.Lib
