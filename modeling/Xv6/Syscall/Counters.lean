/-
# Xv6.Syscall.Counters -- the per-CPU system call counters and their total

`syscall` counts a call twice when its handler has returned: in the counter of the CPU it reads
first, and in `nsys.n`. `exec` clears all five on its way out, `nsys.n` first. Every increment and
every reset is one step here; between two steps of a process any other process may run, and it may
have moved to another CPU.

What `exec` still has to clear does not count: `Pending s c` says that some `exec` is going to clear
the counter of CPU `c`. The other counters add up to the total plus the calls that are between their
two increments (`Balanced`). Two steps break that: counting on a CPU whose counter is pending, since
the count will be cleared on one side only; and clearing the total while a call is between its two
increments. Without them the counters agree whenever nobody is inside (`counters_agree_runs`).
-/
import Xv6.Lib.Transition
import Xv6.Lib.Count
import Xv6.Spinlock
import Mathlib.Data.BitVec

namespace Xv6.Syscall
open Lib Function
set_option autoImplicit false

/-- Where a process is. A name says what it is about to do. -/
inductive Pc where
  /-- in user mode -/
  | user
  /-- in the handler of the call -/
  | handler
  /-- in `exec`: `nsys.n = 0` -/
  | clearTotal
  /-- in `exec`: `cpus[c].nsyscall = 0` -/
  | clear (c : CpuId)
  /-- back in `syscall`: `CPUid = cpuid()` -/
  | returned
  /-- `cpus[CPUid].nsyscall++` -/
  | count (CPUid : CpuId)
  /-- `nsys.n++` -/
  | total
  deriving DecidableEq, Repr

/-- Inside the counting code of `syscall` or of `exec`. -/
def Pc.inside : Pc → Bool
  | .user | .handler | .returned => false
  | .clearTotal | .clear _ | .count _ | .total => true

/-- `int` counters. -/
structure State where
  nsyscall : CpuId → BitVec 32
  /-- `nsys.n` -/
  n : BitVec 32
  pc : Fin NPROC → Pc

inductive Event where
  /-- a system call -/
  | call (p : Fin NPROC)
  /-- the handler returns -/
  | done (p : Fin NPROC)
  /-- the handler is `exec`, and it has committed to the new image -/
  | exec (p : Fin NPROC)
  /-- the handler is `exit`: `syscall` does not go on -/
  | exit (p : Fin NPROC)
  /-- the next step of a process that runs on CPU `c` -/
  | advance (p : Fin NPROC) (c : CpuId)
  deriving DecidableEq, Repr

def State.goto (s : State) (p : Fin NPROC) (pc : Pc) : State :=
  { s with pc := update s.pc p pc }

/-- What follows `cpus[c].nsyscall = 0`. -/
def Pc.afterClear (c : CpuId) : Pc :=
  if h : c.val + 1 < NCPU then .clear ⟨c.val + 1, h⟩ else .returned

def advance (s : State) (p : Fin NPROC) (c : CpuId) : Option State :=
  match s.pc p with
  | .user | .handler => none
  | .clearTotal => some ({ s with n := 0 }.goto p (.clear 0))
  | .clear k =>
    some ({ s with nsyscall := update s.nsyscall k 0 }.goto p (Pc.afterClear k))
  | .returned => some (s.goto p (.count c))
  | .count k =>
    some ({ s with nsyscall := update s.nsyscall k (s.nsyscall k + 1) }.goto p .total)
  | .total => some ({ s with n := s.n + 1 }.goto p .user)

def step (s : State) : Event → Option State
  | .call p => if s.pc p = .user then some (s.goto p .handler) else none
  | .done p => if s.pc p = .handler then some (s.goto p .returned) else none
  | .exec p => if s.pc p = .handler then some (s.goto p .clearTotal) else none
  | .exit p => if s.pc p = .handler then some (s.goto p .user) else none
  | .advance p c => advance s p c

def Start (s : State) : Prop :=
  (∀ c, s.nsyscall c = 0) ∧ s.n = 0 ∧ ∀ p, s.pc p = .user

def system : System State Event where
  start := Start
  next := step

/-! ## What is still going to be cleared, and what is still to be added -/

/-- A process here is going to clear the counter of `c`. -/
def Pc.clears (c : CpuId) : Pc → Bool
  | .clear k => decide (k ≤ c)
  | _ => false

/-- Some `exec` is going to clear the counter of `c`. -/
def Pending (s : State) (c : CpuId) : Prop := ∃ p, (s.pc p).clears c = true
deriving Decidable

/-- What a process here still owes the total. -/
def Pc.owes : Pc → BitVec 32
  | .total => 1
  | _ => 0

/-- What the counter of `c` stands for. -/
def worth (s : State) (c : CpuId) : BitVec 32 := if Pending s c then 0 else s.nsyscall c

def Balanced (s : State) : Prop := ∑ c, worth s c = s.n + ∑ p, (s.pc p).owes

/-- Nobody is inside the counting code. -/
def Quiet (s : State) : Prop := ∀ p, (s.pc p).inside = false
deriving Decidable

theorem Pc.outside {pc : Pc} (outside : pc.inside = false) :
    (∀ c, pc.clears c = false) ∧ pc.owes = 0 := by
  cases pc with
  | user | handler | returned => exact ⟨fun _ => rfl, rfl⟩
  | clearTotal | clear | count | total => cases outside

variable {s : State} {c : CpuId}

/-- With everybody outside, the counters agree. -/
theorem Balanced.agree (balanced : Balanced s) (quiet : Quiet s) :
    s.nsyscall 0 + s.nsyscall 1 + s.nsyscall 2 + s.nsyscall 3 = s.n := by
  have worths : ∀ c, worth s c = s.nsyscall c := by
    intro c
    apply if_neg
    rintro ⟨p, clears⟩
    rw [(Pc.outside (quiet p)).1 c] at clears
    cases clears
  have debts : ∀ p, (s.pc p).owes = 0 := fun p => (Pc.outside (quiet p)).2
  have sums : ∑ c, s.nsyscall c = s.n := by
    simpa only [Balanced, worths, debts, Finset.sum_const_zero, add_zero] using balanced
  rw [← sums, Fin.sum_univ_four]

/-! ## Steps -/

section Steps

variable {s t : State} {p : Fin NPROC} {pc : Pc}

theorem goto_self : (s.goto p pc).pc p = pc := update_self _ _ _

theorem goto_ne {q : Fin NPROC} (other : q ≠ p) : (s.goto p pc).pc q = s.pc q :=
  update_of_ne other _ _

/-- What a move does not change for the process that moves, it changes for nobody. -/
theorem goto_same {α : Type} (f : Pc → α) (same : f pc = f (s.pc p)) (q : Fin NPROC) :
    f ((s.goto p pc).pc q) = f (s.pc q) := by
  by_cases mover : q = p
  · subst mover
    rw [goto_self, same]
  · rw [goto_ne mover]

theorem pending_congr (same : ∀ q, (t.pc q).clears c = (s.pc q).clears c) :
    Pending t c ↔ Pending s c := by
  simp only [Pending, same]

/-- A process moves and takes nothing it was going to clear, or to add, with it. -/
theorem Balanced.move (balanced : Balanced s) (clears : ∀ c, pc.clears c = (s.pc p).clears c)
    (owes : pc.owes = (s.pc p).owes) : Balanced (s.goto p pc) := by
  have worths : ∀ c, worth (s.goto p pc) c = worth s c := by
    intro c
    exact if_congr (pending_congr (goto_same (Pc.clears c) (clears c))) rfl rfl
  have debts : ∀ q, ((s.goto p pc).pc q).owes = (s.pc q).owes := goto_same Pc.owes owes
  show ∑ c, worth (s.goto p pc) c = s.n + ∑ q, ((s.goto p pc).pc q).owes
  simp only [worths, debts]
  exact balanced

/-- `exec` clears the total: from here on nothing counts. -/
theorem Balanced.clearTotal (nobody : ∀ q, (s.pc q).owes = 0) :
    Balanced ({ s with n := 0 }.goto p (.clear 0)) := by
  have worths : ∀ c, worth ({ s with n := 0 }.goto p (.clear 0)) c = 0 := by
    intro c
    apply if_pos
    refine ⟨p, ?_⟩
    rw [goto_self]
    exact decide_eq_true (Fin.zero_le c)
  have debts : ∀ q, (({ s with n := 0 }.goto p (.clear 0)).pc q).owes = 0 := by
    intro q
    by_cases mover : q = p
    · subst mover
      rw [goto_self]
      rfl
    · rw [goto_ne mover]
      exact nobody q
  simp only [Balanced, worths, debts, Finset.sum_const_zero, add_zero]
  rfl

variable {k : CpuId}

/-- Behind a counter, `exec` clears the counters it was going to clear anyway. -/
theorem afterClear_clears (other : c ≠ k) : (Pc.afterClear k).clears c = (Pc.clear k).clears c := by
  have differ : c.val ≠ k.val := fun eq => other (Fin.ext eq)
  unfold Pc.afterClear
  split
  · exact decide_eq_decide.mpr (by simp only [Fin.le_def]; omega)
  · exact (decide_eq_false (by simp only [Fin.le_def]; omega)).symm

theorem afterClear_owes (k : CpuId) : (Pc.afterClear k).owes = 0 := by
  unfold Pc.afterClear
  split
  · rfl
  · rfl

/-- `exec` clears one counter, which did not count before and is zero now. -/
theorem Balanced.clear (balanced : Balanced s) (clears : s.pc p = .clear k) :
    Balanced ({ s with nsyscall := update s.nsyscall k 0 }.goto p (Pc.afterClear k)) := by
  let t := { s with nsyscall := update s.nsyscall k 0 }.goto p (Pc.afterClear k)
  have worths : ∀ c, worth t c = worth s c := by
    intro c
    by_cases same : c = k
    · subst same
      have before : worth s c = 0 := by
        apply if_pos
        refine ⟨p, ?_⟩
        rw [clears]
        exact decide_eq_true le_rfl
      rw [before, worth]
      split
      · rfl
      · exact update_self _ _ _
    · have pending : Pending t c ↔ Pending s c := by
        refine pending_congr (goto_same (Pc.clears c) ?_)
        rw [afterClear_clears same]
        exact congrArg (Pc.clears c) clears.symm
      rw [worth, worth, if_congr pending rfl rfl]
      show (if Pending s c then 0 else update s.nsyscall k 0 c) = _
      rw [update_of_ne same]
  have debts : ∀ q, (t.pc q).owes = (s.pc q).owes := by
    apply goto_same Pc.owes
    rw [afterClear_owes]
    exact (congrArg Pc.owes clears).symm
  show ∑ c, worth t c = s.n + ∑ q, (t.pc q).owes
  simp only [worths, debts]
  exact balanced

/-- A call counts on a CPU whose counter stays: now it owes the total. -/
theorem Balanced.count (balanced : Balanced s) (counts : s.pc p = .count k) (stays : ¬ Pending s k)
    :
    Balanced ({ s with nsyscall := update s.nsyscall k (s.nsyscall k + 1) }.goto p .total) := by
  let t := { s with nsyscall := update s.nsyscall k (s.nsyscall k + 1) }.goto p .total
  have pending : ∀ c, Pending t c ↔ Pending s c := by
    intro c
    refine pending_congr (goto_same (Pc.clears c) ?_)
    exact (congrArg (Pc.clears c) counts).symm
  have counted : ∑ c, worth t c = ∑ c, worth s c + 1 := by
    have others : ∀ c, c ≠ k → worth t c = worth s c := by
      intro c other
      rw [worth, worth, if_congr (pending c) rfl rfl]
      show (if Pending s c then 0 else update s.nsyscall k _ c) = _
      rw [update_of_ne other]
    have mine : worth t k = worth s k + 1 := by
      rw [worth, worth, if_congr (pending k) rfl rfl, if_neg stays, if_neg stays]
      exact update_self _ _ _
    have moved := sum_replace k others
    rw [mine] at moved
    apply add_right_cancel (b := worth s k)
    rw [moved, ← add_assoc, add_right_comm]
  have owed : ∑ q, (t.pc q).owes = ∑ q, (s.pc q).owes + 1 := by
    have others : ∀ q, q ≠ p → (t.pc q).owes = (s.pc q).owes := by
      intro q other
      exact congrArg Pc.owes (goto_ne other)
    have moved := sum_replace p others
    have before : (s.pc p).owes = 0 := by rw [counts]; rfl
    have after : (t.pc p).owes = 1 := congrArg Pc.owes goto_self
    rw [before, after] at moved
    exact (add_zero _).symm.trans moved
  show ∑ c, worth t c = s.n + ∑ q, (t.pc q).owes
  rw [counted, owed, balanced, add_assoc]

/-- A call adds to the total what it owes. -/
theorem Balanced.total (balanced : Balanced s) (totals : s.pc p = .total) :
    Balanced ({ s with n := s.n + 1 }.goto p .user) := by
  let t := { s with n := s.n + 1 }.goto p .user
  have worths : ∀ c, worth t c = worth s c := by
    intro c
    refine if_congr (pending_congr (goto_same (Pc.clears c) ?_)) rfl rfl
    exact (congrArg (Pc.clears c) totals).symm
  have owed : ∑ q, (s.pc q).owes = ∑ q, (t.pc q).owes + 1 := by
    have others : ∀ q, q ≠ p → (t.pc q).owes = (s.pc q).owes := by
      intro q other
      exact congrArg Pc.owes (goto_ne other)
    have moved := sum_replace p others
    have before : (s.pc p).owes = 1 := by rw [totals]; rfl
    have after : (t.pc p).owes = 0 := congrArg Pc.owes goto_self
    rw [before, after, add_zero] at moved
    exact moved.symm
  show ∑ c, worth t c = s.n + 1 + ∑ q, (t.pc q).owes
  simp only [worths]
  rw [balanced, owed, ← add_assoc, add_right_comm]

end Steps

/-! ## Runs -/

/-- The condition on a step. `exec` starts to clear when no call is between its two increments, and
a call counts on a CPU whose counter no `exec` is still going to clear. -/
def Apart (s : State) : Event → Prop
  | .advance p _ =>
    (s.pc p = .clearTotal → ∀ q, s.pc q ≠ .total) ∧
      ∀ k, s.pc p = .count k → ∀ q j, s.pc q = .clear j → k < j
  | .call _ | .done _ | .exec _ | .exit _ => True

instance (s : State) : ∀ e, Decidable (Apart s e)
  | .advance p _ =>
    have : ∀ k, Decidable (s.pc p = .count k → ∀ q j, s.pc q = .clear j → k < j) :=
      fun _ => inferInstance
    inferInstanceAs (Decidable (_ ∧ ∀ k, s.pc p = .count k → ∀ q j, s.pc q = .clear j → k < j))
  | .call _ | .done _ | .exec _ | .exit _ => .isTrue trivial

theorem advance_balanced {s' : State} {p : Fin NPROC} (balanced : Balanced s)
    (apart : Apart s (.advance p c)) (stepped : advance s p c = some s') : Balanced s' := by
  obtain ⟨alone, passed⟩ := apart
  unfold advance at stepped
  cases here : s.pc p with
  | user | handler => simp [here] at stepped
  | clearTotal =>
    simp only [here, Option.some.injEq] at stepped
    subst stepped
    apply Balanced.clearTotal
    intro q
    have nobody := alone here q
    cases there : s.pc q with
    | total => exact absurd there nobody
    | user | handler | clearTotal | clear | returned | count => rfl
  | clear k =>
    simp only [here, Option.some.injEq] at stepped
    subst stepped
    exact balanced.clear here
  | returned =>
    simp only [here, Option.some.injEq] at stepped
    subst stepped
    apply balanced.move
    · intro k
      rw [here]
      rfl
    · rw [here]
      rfl
  | count k =>
    simp only [here, Option.some.injEq] at stepped
    subst stepped
    apply balanced.count here
    rintro ⟨q, clears⟩
    cases there : s.pc q with
    | clear j =>
      rw [there] at clears
      have le : j ≤ k := of_decide_eq_true clears
      exact absurd (passed k here q j there) (not_lt.mpr le)
    | user | handler | clearTotal | returned | count | total =>
      rw [there] at clears
      cases clears
  | total =>
    simp only [here, Option.some.injEq] at stepped
    subst stepped
    exact balanced.total here

theorem step_balanced {s' : State} {e : Event} (balanced : Balanced s) (apart : Apart s e)
    (stepped : step s e = some s') : Balanced s' := by
  -- the other events move a process between places where it neither clears nor owes
  have outer : ∀ p old new, old = .user ∨ old = .handler →
      new = .user ∨ new = .handler ∨ new = .returned ∨ new = .clearTotal →
      (if s.pc p = old then some (s.goto p new) else none) = some s' → Balanced s' := by
    intro p old new before after moved
    obtain ⟨here, ⟨⟩⟩ := Option.ite_none_right_eq_some.mp moved
    apply balanced.move
    · intro c
      rw [here]
      rcases before with rfl | rfl <;> rcases after with rfl | rfl | rfl | rfl <;> rfl
    · rw [here]
      rcases before with rfl | rfl <;> rcases after with rfl | rfl | rfl | rfl <;> rfl
  cases e with
  | advance p c => exact advance_balanced balanced apart stepped
  | call p => exact outer p .user .handler (by simp) (by simp) stepped
  | done p => exact outer p .handler .returned (by simp) (by simp) stepped
  | exec p => exact outer p .handler .clearTotal (by simp) (by simp) stepped
  | exit p => exact outer p .handler .user (by simp) (by simp) stepped

theorem start_balanced (start : Start s) : Balanced s := by
  obtain ⟨counters, total, users⟩ := start
  have worths : ∀ c, worth s c = 0 := by
    intro c
    rw [worth, counters]
    exact ite_self _
  have debts : ∀ p, (s.pc p).owes = 0 := by
    intro p
    rw [users]
    rfl
  simp only [Balanced, worths, debts, total, Finset.sum_const_zero, add_zero]

theorem reach_balanced (reached : system.Reach Apart s) : Balanced s := by
  refine System.Reach.invariant ?_ ?_ reached
  · intro s start
    exact start_balanced start
  · intro s e s' balanced apart stepped
    exact step_balanced balanced apart stepped

/-- **The counters agree.** In every state of a run in which calls and `exec` count apart, and in
which nobody is inside the counting code, the counters of the CPUs add up to the total. -/
theorem counters_agree_runs {s : State} (reached : system.Reach Apart s) (quiet : Quiet s) :
    s.nsyscall 0 + s.nsyscall 1 + s.nsyscall 2 + s.nsyscall 3 = s.n :=
  (reach_balanced reached).agree quiet

/-! ## Two runs from boot -/

def boot : State := ⟨fun _ => 0, 0, fun _ => .user⟩

theorem boot_start : system.start boot := ⟨fun _ => rfl, rfl, fun _ => rfl⟩

/-- Process 1 calls `exec` on CPU 0; when it has cleared the counter of CPU 1, process 2 makes a call
there. -/
def callBehind : List Event :=
  [.call 1, .exec 1, .advance 1 0, .advance 1 0, .advance 1 0, .call 2, .done 2, .advance 2 1,
    .advance 2 1, .advance 1 0, .advance 2 1, .advance 1 0, .advance 1 0, .advance 1 0, .advance 1 0]

def afterCallBehind : State := (system.run boot callBehind).getD boot

theorem counters_agree_callBehind :
    afterCallBehind.n = 2 ∧ afterCallBehind.nsyscall 0 + afterCallBehind.nsyscall 1 +
      afterCallBehind.nsyscall 2 + afterCallBehind.nsyscall 3 = afterCallBehind.n := by
  have apart : system.Admits Apart boot callBehind := by decide +kernel
  have reached : system.Reach Apart afterCallBehind := .run (.start boot_start) apart rfl
  exact ⟨by decide +kernel, counters_agree_runs reached (by decide +kernel)⟩

/-- The same, but process 2 makes its call when `nsys.n` is cleared and the counters are not. -/
def callBetween : List Event :=
  [.call 1, .exec 1, .advance 1 0, .call 2, .done 2, .advance 2 1, .advance 2 1, .advance 2 1,
    .advance 1 0, .advance 1 0, .advance 1 0, .advance 1 0, .advance 1 0, .advance 1 0, .advance 1 0]

def afterCallBetween : State := (system.run boot callBetween).getD boot

/-- Two calls are in the total and one in the counters. -/
theorem call_between_disagrees :
    system.Reachable afterCallBetween ∧ Quiet afterCallBetween ∧ afterCallBetween.n = 2 ∧
      afterCallBetween.nsyscall 0 + afterCallBetween.nsyscall 1 + afterCallBetween.nsyscall 2 +
        afterCallBetween.nsyscall 3 = 1 := by
  refine ⟨System.reachable_of_run callBetween boot_start rfl, ?_, ?_, ?_⟩
  · decide +kernel
  · decide +kernel
  · decide +kernel

end Xv6.Syscall
