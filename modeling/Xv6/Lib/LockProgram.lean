/-
# Xv6.Lib.LockProgram -- processes that run sequences of lock operations

A process is the list of operations it still has to make: take or give back a lock, pass a gate that
admits so many processes at a time, or leave it. A lock that is taken, and a gate that is full, make
the process wait. Locks carry the time they were taken at.

What a process holds can be read off its remaining list (`owes`): the locks that it gives back before
it takes them again. For programs in which this is consistent (`Sound`), that is an invariant of every
run (`Inv`), and a set of processes that all wait for each other contains a circle (`exists_circle`).
-/
import Xv6.Lib.Transition
import Mathlib.Tactic

namespace Xv6.Lib.LockProgram
open Function
set_option autoImplicit false

inductive Op (L : Type) where
  | enter
  | leave
  | lock (l : L)
  | unlock (l : L)
  deriving DecidableEq, Repr

structure State (P L : Type) where
  todo : P → List (Op L)
  owner : L → Option P
  /-- the processes inside the gate -/
  inside : Finset P
  clock : Nat
  /-- when a lock was taken last -/
  since : L → Nat

section Machine

variable {P L : Type} [DecidableEq P] [DecidableEq L]

/-- One operation of process `p`, if it need not wait. -/
def step (capacity : Nat) (s : State P L) (p : P) : Option (State P L) :=
  match s.todo p with
  | [] => none
  | .enter :: rest =>
    if s.inside.card < capacity then
      some { s with todo := update s.todo p rest, inside := insert p s.inside }
    else
      none
  | .leave :: rest =>
    some { s with todo := update s.todo p rest, inside := s.inside.erase p }
  | .lock l :: rest =>
    if s.owner l = none then
      some { s with
        todo := update s.todo p rest
        owner := update s.owner l (some p)
        clock := s.clock + 1
        since := update s.since l (s.clock + 1) }
    else
      none
  | .unlock l :: rest =>
    if s.owner l = some p then
      some { s with
        todo := update s.todo p rest
        owner := update s.owner l none }
    else
      none

/-- Every process starts with its program; the locks are free and the gate is empty. -/
structure Start (program : P → List (Op L)) (s : State P L) : Prop where
  todo : s.todo = program
  owner : ∀ l, s.owner l = none
  inside : s.inside = ∅
  since : ∀ l, s.since l ≤ s.clock

def system (capacity : Nat) (program : P → List (Op L)) : System (State P L) P where
  start := Start program
  next := step capacity

/-- The lock a process is about to take. -/
def State.wants (s : State P L) (p : P) : Option L :=
  match s.todo p with
  | .lock l :: _ => some l
  | _ => none

/-! ## What a list of operations says about the past -/

/-- The lock is given back before it is taken again. -/
def owes : List (Op L) → L → Bool
  | [], _ => false
  | .lock l :: rest, x => if x = l then false else owes rest x
  | .unlock l :: rest, x => if x = l then true else owes rest x
  | .enter :: rest, x | .leave :: rest, x => owes rest x

/-- The gate is left before it is entered again. -/
def owesGate : List (Op L) → Bool
  | [] => false
  | .enter :: _ => false
  | .leave :: _ => true
  | .lock _ :: rest | .unlock _ :: rest => owesGate rest

/-- What is taken is given back before it is taken again, and the other way round. -/
def Sound : List (Op L) → Prop
  | [] => True
  | .enter :: rest => owesGate rest = true ∧ Sound rest
  | .leave :: rest => owesGate rest = false ∧ Sound rest
  | .lock l :: rest => owes rest l = true ∧ Sound rest
  | .unlock l :: rest => owes rest l = false ∧ Sound rest

structure Inv (capacity : Nat) (s : State P L) : Prop where
  sound : ∀ p, Sound (s.todo p)
  owner : ∀ l p, s.owner l = some p ↔ owes (s.todo p) l = true
  inside : ∀ p, p ∈ s.inside ↔ owesGate (s.todo p) = true
  full : s.inside.card ≤ capacity
  since : ∀ l, s.since l ≤ s.clock
  few : {l | s.owner l ≠ none}.Finite

variable {capacity : Nat} {program : P → List (Op L)} {s s' : State P L} {p : P}

/-- Of the processes, a step changes the one that makes it. -/
theorem Inv.of_step {rest : List (Op L)} (inv : Inv capacity s)
    (todo : s'.todo = update s.todo p rest) (sound : Sound rest)
    (owner : ∀ l, s'.owner l = some p ↔ owes rest l = true)
    (owners : ∀ l q, q ≠ p → (s'.owner l = some q ↔ s.owner l = some q))
    (inside : p ∈ s'.inside ↔ owesGate rest = true)
    (insiders : ∀ q, q ≠ p → (q ∈ s'.inside ↔ q ∈ s.inside)) (full : s'.inside.card ≤ capacity)
    (since : ∀ l, s'.since l ≤ s'.clock) (few : {l | s'.owner l ≠ none}.Finite) :
    Inv capacity s' := by
  have self : s'.todo p = rest := by rw [todo, update_self]
  have others : ∀ q, q ≠ p → s'.todo q = s.todo q := by
    intro q other
    rw [todo, update_of_ne other]
  refine ⟨?_, ?_, ?_, full, since, few⟩
  · intro q
    by_cases same : q = p
    · rw [same, self]
      exact sound
    · rw [others q same]
      exact inv.sound q
  · intro l q
    by_cases same : q = p
    · rw [same, self]
      exact owner l
    · rw [others q same, owners l q same]
      exact inv.owner l q
  · intro q
    by_cases same : q = p
    · rw [same, self]
      exact inside
    · rw [others q same, insiders q same]
      exact inv.inside q

theorem step_todo (stepped : step capacity s p = some s') :
    ∃ op rest, s.todo p = op :: rest ∧ s'.todo = update s.todo p rest := by
  unfold step at stepped
  split at stepped
  · cases stepped
  · rename_i rest here
    split at stepped <;> cases stepped
    exact ⟨.enter, rest, here, rfl⟩
  · rename_i rest here
    cases stepped
    exact ⟨.leave, rest, here, rfl⟩
  · rename_i l rest here
    split at stepped <;> cases stepped
    exact ⟨.lock l, rest, here, rfl⟩
  · rename_i l rest here
    split at stepped <;> cases stepped
    exact ⟨.unlock l, rest, here, rfl⟩

/-- What a step does to one lock: nothing, or it takes it, or it gives it back. -/
theorem step_lock (stepped : step capacity s p = some s') (l : L) :
    s'.owner l = s.owner l ∧ s'.since l = s.since l ∨
      s.owner l = none ∧ s'.since l = s.clock + 1 ∨ s.owner l = some p ∧ s'.owner l = none := by
  unfold step at stepped
  split at stepped
  · cases stepped
  · split at stepped <;> cases stepped
    exact .inl ⟨rfl, rfl⟩
  · cases stepped
    exact .inl ⟨rfl, rfl⟩
  · rename_i l' rest here
    obtain ⟨free, ⟨⟩⟩ := Option.ite_none_right_eq_some.mp stepped
    by_cases same : l = l'
    · subst same
      exact .inr (.inl ⟨free, by simp⟩)
    · exact .inl ⟨update_of_ne same _ _, update_of_ne same _ _⟩
  · rename_i l' rest here
    obtain ⟨mine, ⟨⟩⟩ := Option.ite_none_right_eq_some.mp stepped
    by_cases same : l = l'
    · subst same
      exact .inr (.inr ⟨mine, by simp⟩)
    · exact .inl ⟨update_of_ne same _ _, rfl⟩

theorem step_unlock {l : L} {rest : List (Op L)} (stepped : step capacity s p = some s')
    (here : s.todo p = .unlock l :: rest) : s'.owner l = none := by
  simp only [step, here] at stepped
  obtain ⟨-, ⟨⟩⟩ := Option.ite_none_right_eq_some.mp stepped
  simp

theorem step_inv (inv : Inv capacity s) (stepped : step capacity s p = some s') :
    Inv capacity s' := by
  have sound := inv.sound p
  have owner := fun l => inv.owner l p
  have gate := inv.inside p
  unfold step at stepped
  split at stepped
  · cases stepped
  · rename_i rest here
    rw [here] at sound gate
    simp only [here] at owner
    obtain ⟨room, ⟨⟩⟩ := Option.ite_none_right_eq_some.mp stepped
    have outside : p ∉ s.inside := fun entered => by cases gate.mp entered
    refine inv.of_step rfl sound.2 owner (fun _ _ _ => Iff.rfl) (by simp [sound.1]) ?_ ?_ inv.since
      inv.few
    · intro q other
      simp [other]
    · rw [Finset.card_insert_of_notMem outside]
      exact room
  · rename_i rest here
    rw [here] at sound gate
    simp only [here] at owner
    cases stepped
    refine inv.of_step rfl sound.2 owner (fun _ _ _ => Iff.rfl) (by simp [sound.1]) ?_ ?_ inv.since
      inv.few
    · intro q other
      simp [other]
    · exact (Finset.card_erase_le).trans inv.full
  · rename_i l rest here
    rw [here] at sound gate
    simp only [here] at owner
    obtain ⟨free, ⟨⟩⟩ := Option.ite_none_right_eq_some.mp stepped
    refine inv.of_step rfl sound.2 ?_ ?_ gate (fun _ _ => Iff.rfl) inv.full ?_ ?_
    · intro x
      by_cases same : x = l
      · simp [same, sound.1]
      · have before := owner x
        simp only [owes, if_neg same] at before
        simp only [update_of_ne same, before]
    · intro x q other
      by_cases same : x = l
      · simp [same, free, Ne.symm other]
      · simp only [update_of_ne same]
    · intro x
      by_cases same : x = l
      · simp [same]
      · have before := inv.since x
        simp only [update_of_ne same]
        omega
    · refine (inv.few.insert l).subset ?_
      intro x taken
      by_cases same : x = l
      · exact .inl same
      · have before : update s.owner l (some p) x ≠ none := taken
        rw [update_of_ne same] at before
        exact .inr before
  · rename_i l rest here
    rw [here] at sound gate
    simp only [here] at owner
    obtain ⟨mine, ⟨⟩⟩ := Option.ite_none_right_eq_some.mp stepped
    refine inv.of_step rfl sound.2 ?_ ?_ gate (fun _ _ => Iff.rfl) inv.full inv.since ?_
    · intro x
      by_cases same : x = l
      · simp [same, sound.1]
      · have before := owner x
        simp only [owes, if_neg same] at before
        simp only [update_of_ne same, before]
    · intro x q other
      by_cases same : x = l
      · simp [same, mine, Ne.symm other]
      · simp only [update_of_ne same]
    · refine inv.few.subset ?_
      intro x taken
      by_cases same : x = l
      · subst same
        simp at taken
      · have before : update s.owner l none x ≠ none := taken
        rw [update_of_ne same] at before
        exact before

omit [DecidableEq P] in
theorem start_inv (sound : ∀ p, Sound (program p)) (nothing : ∀ p l, owes (program p) l = false)
    (outside : ∀ p, owesGate (program p) = false) (initial : Start program s) : Inv capacity s := by
  obtain ⟨todo, owner, inside, since⟩ := initial
  refine ⟨?_, ?_, ?_, ?_, since, ?_⟩
  · intro p
    rw [todo]
    exact sound p
  · intro l p
    simp [owner, todo, nothing]
  · intro p
    simp [inside, todo, outside]
  · simp [inside]
  · simp [owner]

/-! ## Circles -/

/-- A set of processes that all wait, each for a lock that another one of them has. -/
def Stalled (s : State P L) (waiting : Set P) : Prop :=
  waiting.Nonempty ∧ ∀ p ∈ waiting, (∃ held, s.owner held = some p) ∧
    ∃ l q, s.wants p = some l ∧ s.owner l = some q ∧ q ∈ waiting ∧ q ≠ p

/-- The process that has what `p` wants. -/
def State.blocker (s : State P L) (p : P) : P := ((s.wants p).bind s.owner).getD p

omit [DecidableEq P] [DecidableEq L] in
theorem Stalled.blocker {waiting : Set P} (stalled : Stalled s waiting) (mem : p ∈ waiting) :
    s.blocker p ∈ waiting ∧ s.blocker p ≠ p ∧
      ∃ l, s.wants p = some l ∧ s.owner l = some (s.blocker p) := by
  obtain ⟨-, l, q, wants, owned, inside, other⟩ := stalled.2 p mem
  have is : s.blocker p = q := by simp [State.blocker, wants, owned]
  rw [is]
  exact ⟨inside, other, l, wants, owned⟩

omit [DecidableEq P] [DecidableEq L] in
theorem Stalled.iterate {waiting : Set P} (stalled : Stalled s waiting) (mem : p ∈ waiting)
    (n : Nat) : s.blocker^[n] p ∈ waiting := by
  induction n generalizing p with
  | zero => exact mem
  | succ n ih => exact ih (stalled.blocker mem).1

omit [DecidableEq P] in
/-- **Processes that wait for each other wait in a circle.** -/
theorem exists_circle {waiting : Set P} (inv : Inv capacity s) (stalled : Stalled s waiting) :
    ∃ p ∈ waiting, p ∈ periodicPts s.blocker ∧ 2 ≤ minimalPeriod s.blocker p := by
  obtain ⟨p, mem⟩ := stalled.1
  -- only finitely many processes have a lock
  have finite : waiting.Finite := by
    refine (inv.few.image fun l => (s.owner l).getD p).subset ?_
    intro q inside
    obtain ⟨⟨held, owned⟩, -⟩ := stalled.2 q inside
    refine ⟨held, ?_, by simp [owned]⟩
    simp [owned]
  have : Finite waiting := finite
  obtain ⟨m, n, differ, same⟩ := Finite.exists_ne_map_eq_of_infinite fun n : Nat =>
    (⟨s.blocker^[n] p, stalled.iterate mem n⟩ : waiting)
  have same : s.blocker^[m] p = s.blocker^[n] p := congrArg Subtype.val same
  have circle : ∀ m n, m < n → s.blocker^[m] p = s.blocker^[n] p →
      ∃ p ∈ waiting, p ∈ periodicPts s.blocker ∧ 2 ≤ minimalPeriod s.blocker p := by
    intro m n less same
    have periodic : Function.IsPeriodicPt s.blocker (n - m) (s.blocker^[m] p) := by
      show s.blocker^[n - m] (s.blocker^[m] p) = s.blocker^[m] p
      rw [← iterate_add_apply, Nat.sub_add_cancel less.le, same]
    have again := mk_mem_periodicPts (Nat.sub_pos_of_lt less) periodic
    have inside := stalled.iterate mem m
    refine ⟨s.blocker^[m] p, inside, again, ?_⟩
    have some := minimalPeriod_pos_of_mem_periodicPts again
    have moves : minimalPeriod s.blocker (s.blocker^[m] p) ≠ 1 := fun one =>
      (stalled.blocker inside).2.1 (minimalPeriod_eq_one_iff_isFixedPt.mp one)
    omega
  rcases Nat.lt_or_gt_of_ne differ with less | more
  · exact circle m n less same
  · exact circle n m more same.symm

end Machine

end Xv6.Lib.LockProgram
