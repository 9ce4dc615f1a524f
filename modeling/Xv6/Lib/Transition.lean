/-
# Xv6.Lib.Transition -- event systems, runs under a condition, simulation

A component that is driven by events is a `System`: a set of start states and a
partial step function.  An event that is not enabled, or that stops the machine,
has no successor.  Nondeterminism lives in the choice of the event.

`Reach S ok s` says that `s` is reached by a run all of whose steps meet `ok`,
a condition on the state before the step and on the event.  An unconditioned run
is `Reach S (fun _ _ => True)`.  Two rules carry every safety result:

* `Reach.invariant`: what the start states have and every admitted step keeps
  holds in every state reached;
* `Reach.simulate`: a relation to a second system that every admitted step keeps,
  moving the second system by at most one step, transports reachability.
-/
import Mathlib.Logic.Basic

namespace Xv6.Lib

set_option autoImplicit false

universe u v

/-- An event system: start states and a partial step function. -/
structure System (σ : Type u) (ε : Type v) where
  start : σ → Prop
  next : σ → ε → Option σ

namespace System

variable {σ τ : Type u} {ε δ : Type v}

/-- The states reached by runs all of whose steps meet `ok`. -/
inductive Reach (S : System σ ε) (ok : σ → ε → Prop) : σ → Prop where
  | start {s : σ} (initial : S.start s) : Reach S ok s
  | step {s s' : σ} {e : ε} (before : Reach S ok s) (admitted : ok s e)
      (stepped : S.next s e = some s') : Reach S ok s'

/-- The states reached by any run. -/
abbrev Reachable (S : System σ ε) : σ → Prop := Reach S fun _ _ => True

/-- Run a list of events; `none` as soon as one of them is not enabled. -/
def run (S : System σ ε) : σ → List ε → Option σ
  | s, [] => some s
  | s, e :: rest => (S.next s e).bind fun s' => run S s' rest

theorem run_append (S : System σ ε) (s : σ) (events later : List ε) :
    S.run s (events ++ later) = (S.run s events).bind fun s' => S.run s' later := by
  induction events generalizing s with
  | nil => rfl
  | cons e rest ih =>
    simp only [List.cons_append, run, Option.bind_assoc]
    exact congrArg _ (funext fun s' => ih s')

variable {S : System σ ε} {s : σ} {events : List ε}

/-- **The invariant rule.** -/
theorem Reach.invariant {ok : σ → ε → Prop} {Inv : σ → Prop} (initial : ∀ s, S.start s → Inv s)
    (preserved : ∀ s e s', Inv s → ok s e → S.next s e = some s' → Inv s') (reached : Reach S ok s) :
    Inv s := by
  induction reached with
  | start h => exact initial _ h
  | step _ admitted stepped ih => exact preserved _ _ _ ih admitted stepped

/-- Every step of the run of `events` from `s` meets `ok`. -/
def Admits (S : System σ ε) (ok : σ → ε → Prop) : σ → List ε → Prop
  | _, [] => True
  | s, e :: rest => ok s e ∧ ∀ s', S.next s e = some s' → Admits S ok s' rest

instance Admits.decidable (S : System σ ε) (ok : σ → ε → Prop) [∀ s e, Decidable (ok s e)] :
    ∀ (s : σ) (events : List ε), Decidable (S.Admits ok s events)
  | _, [] => .isTrue trivial
  | s, e :: rest =>
    have : ∀ s', Decidable (S.Admits ok s' rest) := fun s' => Admits.decidable S ok s' rest
    inferInstanceAs (Decidable (ok s e ∧ ∀ s', S.next s e = some s' → S.Admits ok s' rest))

/-- A run whose steps are admitted and that starts in a reached state ends in one. -/
theorem Reach.run {ok : σ → ε → Prop} {s' : σ} (reached : Reach S ok s)
    (admitted : S.Admits ok s events) (ran : S.run s events = some s') : Reach S ok s' := by
  induction events generalizing s with
  | nil =>
    cases ran
    exact reached
  | cons e rest ih =>
    simp only [System.run, Option.bind_eq_some_iff] at ran
    obtain ⟨mid, stepped, tail⟩ := ran
    exact ih (.step reached admitted.1 stepped) (admitted.2 mid stepped) tail

/-- The same for the last state of a run that is only known to end. -/
theorem Reach.run_getD {ok : σ → ε → Prop} (reached : Reach S ok s)
    (admitted : S.Admits ok s events) (ran : (S.run s events).isSome = true) :
    Reach S ok ((S.run s events).getD s) := by
  obtain ⟨s', ends⟩ := Option.isSome_iff_exists.mp ran
  rw [ends, Option.getD_some]
  exact reached.run admitted ends

/-- A condition on the events alone. -/
theorem admits_of_mem {ok : σ → ε → Prop} (all : ∀ e ∈ events, ∀ s, ok s e) :
    S.Admits ok s events := by
  induction events generalizing s with
  | nil => trivial
  | cons e rest ih =>
    refine ⟨all e List.mem_cons_self s, fun s' _ => ?_⟩
    exact ih fun e' inside => all e' (List.mem_cons_of_mem e inside)

theorem admits_true (S : System σ ε) (s : σ) (events : List ε) :
    S.Admits (fun _ _ => True) s events := admits_of_mem fun _ _ _ => trivial

/-- Two conditions that agree wherever an invariant holds admit the same runs. -/
theorem admits_congr {ok ok' : σ → ε → Prop} {Inv : σ → Prop} (inv : Inv s)
    (same : ∀ s e, Inv s → e ∈ events → (ok s e ↔ ok' s e))
    (preserved : ∀ s e s', Inv s → e ∈ events → S.next s e = some s' → Inv s') :
    S.Admits ok s events ↔ S.Admits ok' s events := by
  induction events generalizing s with
  | nil => exact Iff.rfl
  | cons e rest ih =>
    have first : e ∈ e :: rest := List.mem_cons_self
    refine and_congr (same s e inv first) (forall_congr' fun s' => forall_congr' fun stepped => ?_)
    exact ih (preserved s e s' inv first stepped)
      (fun s e inv inside => same s e inv (List.mem_cons_of_mem _ inside))
      fun s e s' inv inside => preserved s e s' inv (List.mem_cons_of_mem _ inside)

/-- A run from a start state reaches its last state. -/
theorem reachable_of_run {s' : σ} (events : List ε) (initial : S.start s)
    (ran : S.run s events = some s') : S.Reachable s' :=
  Reach.run (.start initial) (admits_true S s events) ran

/-- **The simulation rule.**  Every admitted step of `S` is matched by no step or by
one step of `T`. -/
theorem Reach.simulate {T : System τ δ} {ok : σ → ε → Prop} {Sim : σ → τ → Prop}
    (initial : ∀ s, S.start s → ∃ t, T.start t ∧ Sim s t)
    (preserved : ∀ s e s' t, T.Reachable t → Sim s t → ok s e → S.next s e = some s' →
      Sim s' t ∨ ∃ d t', T.next t d = some t' ∧ Sim s' t') (reached : Reach S ok s) :
    ∃ t, T.Reachable t ∧ Sim s t := by
  induction reached with
  | start h =>
    obtain ⟨t, startT, sim⟩ := initial _ h
    exact ⟨t, .start startT, sim⟩
  | step _ admitted stepped ih =>
    obtain ⟨t, reachedT, sim⟩ := ih
    rcases preserved _ _ _ _ reachedT sim admitted stepped with sim' | ⟨d, t', next, sim'⟩
    · exact ⟨t, reachedT, sim'⟩
    · exact ⟨t', .step reachedT trivial next, sim'⟩

end System

end Xv6.Lib
