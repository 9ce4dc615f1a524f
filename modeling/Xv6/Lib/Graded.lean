/-
# Xv6.Lib.Graded -- what a stateful computation adds to the quantities it counts

`R g s s'` says that going from `s` to `s'` counts as `g`, an element of a commutative group: nothing
counts as 0, and one stretch after another counts as their sum. `Adds R g m` says that the computation
`m`, whenever it returns a value `a`, counts as `g a`. The rules follow the way `m` is built, so a
function is counted once and its callers only add.
-/
import Mathlib.Algebra.Group.Basic

namespace Xv6.Lib
set_option autoImplicit false

class Graded {G σ : Type} [AddCommGroup G] (R : G → σ → σ → Prop) : Prop where
  refl : ∀ s, R 0 s s
  trans : ∀ {g h s s' s''}, R g s s' → R h s' s'' → R (g + h) s s''

section Run

variable {σ ε α β : Type} {s s' : σ} {m : StateT σ (Except ε) α} {f : α → StateT σ (Except ε) β}

/-- A computation that returned went through both of its halves. -/
theorem run_bind {b : β} (ran : (m >>= f) s = .ok (b, s')) :
    ∃ a s₁, m s = .ok (a, s₁) ∧ f a s₁ = .ok (b, s') := by
  change (m s >>= fun p => f p.1 p.2) = .ok (b, s') at ran
  cases first : m s with
  | error e =>
    rw [first] at ran
    cases ran
  | ok p =>
    rw [first] at ran
    exact ⟨p.1, p.2, rfl, ran⟩

theorem bind_ran {a : α} (ran : m s = .ok (a, s')) : (m >>= f) s = f a s' := by
  change (m s >>= fun p => f p.1 p.2) = _
  rw [ran]
  rfl

theorem bind_failed {e : ε} (failed : m s = .error e) : (m >>= f) s = .error e := by
  change (m s >>= fun p => f p.1 p.2) = _
  rw [failed]
  rfl

theorem run_pure {a b : α} (ran : (pure a : StateT σ (Except ε) α) s = .ok (b, s')) :
    b = a ∧ s' = s := by
  cases ran
  exact ⟨rfl, rfl⟩

theorem run_modify {f : σ → σ} {u : Unit} (ran : (modify f : StateT σ (Except ε) Unit) s = .ok (u, s')) :
    s' = f s := by
  cases ran
  rfl

end Run

def Adds {G σ ε α : Type} (R : G → σ → σ → Prop) (g : α → G) (m : StateT σ (Except ε) α) : Prop :=
  ∀ s a s', m s = .ok (a, s') → R (g a) s s'

section Rules

variable {G σ ε α β : Type} {R : G → σ → σ → Prop}
  {g : α → G} {h : β → G} {m : StateT σ (Except ε) α} {f : α → StateT σ (Except ε) β}

theorem Adds.stop {e : ε} : Adds R g (fun _ => .error e : StateT σ (Except ε) α) := nofun

theorem Adds.congr {g' : α → G} (adds : Adds R g m) (same : ∀ a, g a = g' a) : Adds R g' m := by
  intro s a s' ran
  rw [← same]
  exact adds s a s' ran

theorem Adds.update {t : σ → σ} {c : Unit → G} (step : ∀ s, R (c ()) s (t s)) :
    Adds (ε := ε) R c (modify t) := by
  intro s a s' ran
  rw [run_modify ran]
  exact step s

variable [AddCommGroup G] [Graded R]

theorem Adds.pure {a : α} (zero : g a = 0) : Adds (ε := ε) R g (Pure.pure a) := by
  intro s b s' ran
  obtain ⟨rfl, rfl⟩ := run_pure ran
  rw [zero]
  exact Graded.refl s'

theorem Adds.bind (first : Adds R g m) (rest : ∀ a, Adds R (fun b => h b - g a) (f a)) :
    Adds R h (m >>= f) := by
  intro s b s' ran
  obtain ⟨a, s₁, ranFirst, ranRest⟩ := run_bind ran
  have both := Graded.trans (first s a s₁ ranFirst) (rest a s₁ b s' ranRest)
  rwa [add_sub_cancel] at both

/-- The computation counts as nothing. -/
def Keeps (R : G → σ → σ → Prop) (m : StateT σ (Except ε) α) : Prop := Adds R (fun _ => 0) m

theorem Keeps.pure {a : α} : Keeps (ε := ε) R (Pure.pure a) := Adds.pure rfl

theorem Keeps.bind (first : Keeps R m) (rest : ∀ a, Keeps R (f a)) : Keeps R (m >>= f) :=
  Adds.bind first fun a => (rest a).congr fun _ => (sub_self _).symm

/-- What keeps the count may stand before anything. -/
theorem Adds.after (first : Keeps R m) (rest : ∀ a, Adds R h (f a)) : Adds R h (m >>= f) :=
  .bind first fun a => (rest a).congr fun _ => (sub_zero _).symm

theorem Keeps.get : Keeps (ε := ε) R (MonadState.get : StateT σ (Except ε) σ) := by
  intro s a s' ran
  cases ran
  exact Graded.refl s

end Rules

end Xv6.Lib
