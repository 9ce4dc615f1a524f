/-
# Xv6.Lib.Ensures -- what a stateful computation that may fail ensures

`Ensures bad m s Q` says that `m`, run from `s`, does not end in a `bad` error, and that `Q` holds of
the value and the state it returns, if it does. With nothing bad it is partial correctness; the more
is bad, the more of the run has to be shown to go well. The rules follow the way `m` is built.
-/
import Mathlib.Logic.Basic

namespace Xv6.Lib
set_option autoImplicit false

def Ensures {σ ε α : Type} (bad : ε → Prop) (m : StateT σ (Except ε) α) (s : σ)
    (Q : α → σ → Prop) : Prop :=
  match m s with
  | .ok (a, s') => Q a s'
  | .error e => ¬ bad e

section Rules

variable {σ ε α β : Type} {bad : ε → Prop} {s s' : σ} {m : StateT σ (Except ε) α}
  {f : α → StateT σ (Except ε) β} {P Q : α → σ → Prop} {R : β → σ → Prop}

theorem Ensures.pure {a : α} (post : Q a s) : Ensures bad (Pure.pure a) s Q := post

theorem Ensures.stop {e : ε} (fine : ¬ bad e) :
    Ensures bad (fun _ => .error e : StateT σ (Except ε) α) s Q := fine

theorem Ensures.update {t : σ → σ} {Q : Unit → σ → Prop} (post : Q () (t s)) :
    Ensures bad (modify t : StateT σ (Except ε) Unit) s Q := post

theorem Ensures.bind (first : Ensures bad m s P)
    (rest : ∀ a s', P a s' → Ensures bad (f a) s' R) : Ensures bad (m >>= f) s R := by
  unfold Ensures at first ⊢
  change match (m s >>= fun p => f p.1 p.2) with
    | .ok (b, s') => R b s'
    | .error e => ¬ bad e
  cases ran : m s with
  | error e =>
    rw [ran] at first
    exact first
  | ok p =>
    rw [ran] at first
    exact rest p.1 p.2 first

theorem Ensures.getBind {g : σ → StateT σ (Except ε) β} (rest : Ensures bad (g s) s R) :
    Ensures bad (MonadState.get >>= g) s R := rest

theorem Ensures.updateBind {t : σ → σ} {g : Unit → StateT σ (Except ε) β}
    (rest : Ensures bad (g ()) (t s) R) :
    Ensures bad ((modify t : StateT σ (Except ε) Unit) >>= g) s R := rest

theorem Ensures.mono (ensures : Ensures bad m s P) (weaker : ∀ a s', P a s' → Q a s') :
    Ensures bad m s Q := by
  unfold Ensures at ensures ⊢
  cases ran : m s with
  | error e =>
    rw [ran] at ensures
    exact ensures
  | ok p =>
    rw [ran] at ensures
    exact weaker p.1 p.2 ensures

theorem Ensures.returned (ensures : Ensures bad m s Q) {a : α} (ran : m s = .ok (a, s')) :
    Q a s' := by
  rw [Ensures, ran] at ensures
  exact ensures

theorem Ensures.failed (ensures : Ensures bad m s Q) {e : ε} (isBad : bad e) :
    m s ≠ .error e := by
  intro ran
  rw [Ensures, ran] at ensures
  exact ensures isBad

end Rules

end Xv6.Lib
