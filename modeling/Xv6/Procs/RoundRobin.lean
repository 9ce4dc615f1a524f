/-
# Xv6.Procs.RoundRobin -- the first queue is served in turn

`round_robin` walks the table from the entry after the one it chose last, and comes back to that one
at the end. `robinLoop` is its loop as it is written, with the index that may stand one past the table
and no bound on the rounds but the one given; a loop that has not ended yet has no result.

* `robinLoop_eq`: within one round of the table the loop ends, with the first process of the queue in
  cyclic order;
* `selections_reach`: every selection that is not of a waiting process brings its turn closer, whatever
  happens to the table in between;
* `choices_eq`: the choices of one CPU in a run of the machine are the selections of one loop, since
  nothing else stores to its `last_scheduled`.
-/
import Xv6.Procs.Machine

namespace Xv6.Procs
open Sched Option List Prod
set_option autoImplicit false

variable {F : Type}

/-! ## The loop -/

/-- What `round_robin` looks for. -/
def Ready (t : Table F) (i : Slot) : Prop :=
  (t i).state = .RUNNABLE ∧ (t i).sched.queue = ROUND_ROBIN
deriving Decidable

/-- `if (p >= &ptable.proc[NPROC]) p = ptable.proc;` -/
def wrapped (p : Nat) : Slot := if inside : p < NPROC then ⟨p, inside⟩ else 0

/-- At most so many rounds of the loop of `round_robin` from index `p` on: `none` is a loop that goes
on, `some none` the result 0. -/
def robinLoop (t : Table F) (last : Slot) : Nat → Nat → Option (Option Slot)
  | 0, _ => none
  | rounds + 1, p =>
    let p := wrapped p
    if Ready t p then
      some (some p)
    else if p = last then
      some none
    else
      robinLoop t last rounds (p.val + 1)

/-- The entry `p` and the ones behind it, in cyclic order. -/
def ahead (p : Slot) : Nat → List Slot
  | 0 => []
  | n + 1 => p :: ahead (p + 1) n

/-- All entries in cyclic order, `last` at the end. -/
def cyclicAfter (last : Slot) : List Slot := ahead (last + 1) NPROC

theorem wrapped_succ (p : Slot) : wrapped (p.val + 1) = p + 1 := by
  revert p
  decide +kernel

theorem last_farthest (last : Slot) : (last - (last + 1)).val = 63 := by
  revert last
  decide +kernel

theorem mem_ahead {i p : Slot} {n : Nat} (near : (i - p).val < n) : i ∈ ahead p n := by
  induction n generalizing p with
  | zero => exact absurd near (Nat.not_lt_zero _)
  | succ n ih =>
    by_cases here : i = p
    · exact mem_cons.mpr (.inl here)
    · have closer := distance_succ here
      exact mem_cons_of_mem p (ih (by omega))

theorem mem_cyclicAfter (last i : Slot) : i ∈ cyclicAfter last := mem_ahead (i - (last + 1)).isLt

theorem cyclicAfter_last (last : Slot) : (cyclicAfter last).getLast? = some last := by
  revert last
  decide +kernel

section Loop

variable {t : Table F} {last i p q : Slot} {rounds : Nat}

/-- With rounds enough to come to `last`, the loop ends, with the first fitting entry on the way. -/
theorem robinLoop_ends {index : Nat} (enough : (last - wrapped index).val < rounds) :
    robinLoop t last rounds index =
      some ((ahead (wrapped index) ((last - wrapped index).val + 1)).find? (Ready t)) := by
  induction rounds generalizing index with
  | zero => exact absurd enough (Nat.not_lt_zero _)
  | succ rounds ih =>
    simp only [robinLoop]
    by_cases ready : Ready t (wrapped index)
    · simp [ahead, ready]
    · by_cases ended : wrapped index = last
      · simp [ended ▸ ready, ended, ahead]
      · have closer := distance_succ (Ne.symm ended)
        have next := @ih ((wrapped index).val + 1) (by rw [wrapped_succ]; omega)
        rw [if_neg ended, next, wrapped_succ, closer, ahead, find?_cons]
        simp [ready]

theorem robinLoop_eq (t : Table F) (last : Slot) (full : NPROC ≤ rounds) :
    robinLoop t last rounds (last.val + 1) = some ((cyclicAfter last).find? (Ready t)) := by
  have far := last_farthest last
  rw [robinLoop_ends (by rw [wrapped_succ, far]; omega), wrapped_succ, far]
  rfl

/-- The selector that the scheduler is modelled with is this loop. -/
theorem roundRobinFrom_eq (enough : (last - p).val < rounds) :
    roundRobinFrom t last rounds p = (ahead p ((last - p).val + 1)).find? (Ready t) := by
  induction rounds generalizing p with
  | zero => exact absurd enough (Nat.not_lt_zero _)
  | succ rounds ih =>
    simp only [roundRobinFrom]
    by_cases ready : Ready t p
    · have fits : (t p).state = .RUNNABLE ∧ (t p).sched.queue = ROUND_ROBIN := ready
      simp [fits, ahead, ready]
    · have unfit : ¬ ((t p).state = .RUNNABLE ∧ (t p).sched.queue = ROUND_ROBIN) := ready
      rw [if_neg unfit]
      by_cases ended : p = last
      · simp [ended ▸ ready, ended, ahead]
      · have closer := distance_succ (Ne.symm ended)
        rw [if_neg ended, ih (by omega), closer, ahead, find?_cons]
        simp [ready]

theorem roundRobin_eq (t : Table F) (last : Slot) :
    roundRobin t last = (cyclicAfter last).find? (Ready t) := by
  have far := last_farthest last
  have enough : (last - (last + 1)).val < 64 := by omega
  rw [roundRobin, roundRobinFrom_eq enough, far]
  rfl

/-! ## Turns -/

/-- What is found comes no later than any other fitting entry. -/
theorem roundRobinFrom_first (found : roundRobinFrom t last rounds q = some p) (ready : Ready t i)
    (before : (i - q).val ≤ (last - q).val) : (p - q).val ≤ (i - q).val := by
  induction rounds generalizing q with
  | zero => cases found
  | succ rounds ih =>
    have chosen : Ready t p := roundRobinFrom_some found
    simp only [roundRobinFrom] at found
    split at found
    · cases found
      simp
    next unfit =>
      have elsewhere : ∀ j, Ready t j → j ≠ q := by
        rintro j fits rfl
        exact unfit fits
      split at found
      · cases found
      next goesOn =>
        have toI := distance_succ (elsewhere i ready)
        have toP := distance_succ (elsewhere p chosen)
        have toLast := distance_succ (Ne.symm goesOn)
        have nearer := ih found (by omega)
        omega

/-- Behind an entry chosen before `i`, there are fewer entries up to `i`. -/
theorem turn_closer (other : p ≠ i) (first : (p - q).val ≤ (i - q).val) :
    (i - (p + 1)).val < (i - q).val := by
  have closer := distance_succ (Ne.symm other)
  have between : (i - p).val + (p - q).val = (i - q).val := by
    have boundI : i.val < 64 := i.isLt
    simp only [Fin.sub_def, NPROC] at first ⊢
    omega
  omega

variable [Add F] [Mul F] [IntCast F] [LT F] [DecidableLT F]

/-- One selection: `i` is chosen, or its turn is closer. -/
theorem select_turn (ready : Ready t i) :
    (select t last).1 = some i ∨
      (i - ((select t last).2 + 1)).val < (i - (last + 1)).val := by
  obtain ⟨p, found⟩ := isSome_iff_exists.mp ((roundRobin_isSome_iff t last).mpr ⟨i, ready⟩)
  have far := last_farthest last
  have bound : (i - (last + 1)).val < 64 := (i - (last + 1)).isLt
  have first := roundRobinFrom_first found ready (by omega)
  simp only [select, found]
  by_cases same : p = i
  · exact .inl (congrArg some same)
  · exact .inr (turn_closer same first)

/-- The choices of one scheduler loop that finds these tables, round after round. -/
def selections : List (Table F) → Slot → List (Option Slot)
  | [], _ => []
  | t :: later, last => (select t last).1 :: selections later (select t last).2

theorem selections_reach {tables : List (Table F)} (enough : (i - (last + 1)).val < tables.length)
    (waiting : ∀ t ∈ tables, Ready t i) : some i ∈ selections tables last := by
  induction tables generalizing last with
  | nil => exact absurd enough (Nat.not_lt_zero _)
  | cons t later ih =>
    rcases select_turn (waiting t mem_cons_self) with chosen | closer
    · exact mem_cons.mpr (.inl chosen.symm)
    · refine mem_cons_of_mem _ (ih ?_ fun t' inside => waiting t' (mem_cons_of_mem t inside))
      rw [length_cons] at enough
      omega

end Loop

/-! ## The choices of one CPU in a run of the machine -/

section Machine

variable {C : Type} [DecidableEq C]

/-- The step in which CPU `c` chooses. -/
def Chooses (s : State C F) (c : C) : Event C F → Prop
  | .advance c' => c' = c ∧ s.control.irq c = .none ∧ s.control.ctx c = .pick
  | _ => False

instance (s : State C F) (c : C) : ∀ e, Decidable (Chooses s c e)
  | .advance _ => inferInstanceAs (Decidable (_ ∧ _ ∧ _))
  | .tick | .interrupt _ _ | .call _ _ | .fault _ | .preempt _ | .outOfMemory _ => .isFalse id

variable {k k' : Control C F} {c : C}

theorem turn_last {me : Slot} {op : LockOp} {p : Point F} {b : Body F}
    (turned : k.turn c me op p b = some k') : k'.last = k.last := by
  obtain ⟨mid, done, rfl⟩ := map_eq_some_iff.mp turned
  have starts : ((mid.goto me p).starts b).last = mid.last := by
    cases b <;> rfl
  rw [starts]
  cases op with
  | keep =>
    cases done
    rfl
  | take => rw [(Control.take_eq_some done).2]
  | drop => rw [(Control.drop_eq_some done).2]
  | swtch =>
    obtain ⟨-, ⟨⟩⟩ := ite_none_right_eq_some.mp done
    rfl

variable [Add F] [Mul F] [IntCast F] [LT F] [DecidableLT F]

variable [Zero F] [One F]

theorem next_last {tenth : F} {s s' : State C F} {e : Event C F} (c : C)
    (stepped : next tenth s e = some s') :
    s'.control.last c =
      if Chooses s c e then (select s.data.proc (s.control.last c)).2 else s.control.last c := by
  obtain ⟨⟨k, b⟩, moved, ran⟩ := bind_eq_some_iff.mp stepped
  obtain ⟨d, -, rfl⟩ := map_eq_some_iff.mp ran
  cases e with
  | advance c' =>
    rcases advance_cases moved with ⟨-, -, last⟩ | ⟨me, op, q, running, -, turned⟩
    · rw [last]
      by_cases same : c' = c
      · subst same
        by_cases choosing : s.control.irq c' = .none ∧ s.control.ctx c' = .pick
        · simp [choosing, Chooses]
        · simp [choosing, Chooses]
      · have other : ¬ Chooses s c (.advance c') := fun chooses => same chooses.1
        split
        · rw [Function.update_of_ne (Ne.symm same)]
        · rfl
    · have busy : ¬ Chooses s c (.advance c') := by
        rintro ⟨rfl, -, choosing⟩
        cases (Control.thread_eq_some running).2.1.symm.trans choosing
      rw [if_neg busy, turn_last turned]
  | tick | interrupt | call | fault | preempt | outOfMemory =>
    rcases move_cases moved with ⟨-, -, kept⟩ | ⟨c', me, op, q, -, -, turned⟩
    · exact congrFun (kept (by simp)) c
    · exact congrFun (turn_last turned) c

/-- The tables CPU `c` finds when it chooses, and what it chooses, in the run of these events. -/
def choices (tenth : F) (c : C) : State C F → List (Event C F) → List (Table F × Option Slot)
  | _, [] => []
  | s, e :: later =>
    match next tenth s e with
    | none => []
    | some s' =>
      if Chooses s c e then
        (s.data.proc, (select s.data.proc (s.control.last c)).1) :: choices tenth c s' later
      else
        choices tenth c s' later

/-- One CPU's choices are the selections of one loop. -/
theorem choices_eq (tenth : F) (c : C) (s : State C F) (events : List (Event C F)) :
    (choices tenth c s events).map snd =
      selections ((choices tenth c s events).map fst) (s.control.last c) := by
  induction events generalizing s with
  | nil => rfl
  | cons e later ih =>
    cases stepped : next tenth s e with
    | none => simp [choices, stepped, selections]
    | some s' =>
      have last := next_last c stepped
      by_cases chooses : Chooses s c e
      · simp [choices, stepped, chooses, selections, ih, last]
      · simp only [choices, stepped, if_neg chooses, ih, last]

/-- **Round robin is fair.** For every table and every entry chosen last, the loop of `round_robin`
ends, with the first ready process of the queue in cyclic order, the entry chosen last at the end, or 0
if there is none, and this is what the scheduler works with. In `NPROC` selections of one loop, whatever the
tables it finds, a process that is ready in all of them is selected; so are, in every run of the
machine, the choices of one CPU. -/
theorem round_robin_fair :
    (∀ last i : Slot, i ∈ cyclicAfter last ∧ (cyclicAfter last).getLast? = some last) ∧
    (∀ (t : Table F) (last : Slot), roundRobin t last = (cyclicAfter last).find? (Ready t) ∧
      ∀ rounds, NPROC ≤ rounds →
        robinLoop t last rounds (last.val + 1) = some ((cyclicAfter last).find? (Ready t))) ∧
    (∀ (tables : List (Table F)) (last i : Slot), NPROC ≤ tables.length →
      (∀ t ∈ tables, Ready t i) → some i ∈ selections tables last) ∧
    ∀ (tenth : F) (c : C) (s : State C F) (events : List (Event C F)) (i : Slot),
      NPROC ≤ (choices tenth c s events).length →
        (∀ choice ∈ choices tenth c s events, Ready choice.1 i) →
          some i ∈ (choices tenth c s events).map snd := by
  have fair : ∀ (tables : List (Table F)) (last i : Slot), NPROC ≤ tables.length →
      (∀ t ∈ tables, Ready t i) → some i ∈ selections tables last := by
    intro tables last i enough waiting
    exact selections_reach ((i - (last + 1)).isLt.trans_le enough) waiting
  refine ⟨fun last i => ⟨mem_cyclicAfter last i, cyclicAfter_last last⟩,
    fun t last => ⟨roundRobin_eq t last, fun rounds full => robinLoop_eq t last full⟩, fair, ?_⟩
  intro tenth c s events i enough waiting
  rw [choices_eq]
  apply fair
  · rw [length_map]
    exact enough
  · intro t inside
    obtain ⟨choice, chosen, rfl⟩ := mem_map.mp inside
    exact waiting choice chosen

end Machine

end Xv6.Procs
