/-
# Xv6.Procs.Selection -- which process the scheduler picks

`scheduler` asks three selectors in turn. The last two are scans of the table for an extreme: the first
of the processes with the least rank, and the first of those with the greatest creation time.

* `scheduler_selects`: the choice is from the highest class that has a runnable process, and in the last
  class it is the first of those with the least rank; only a choice from the first class moves
  `last_scheduled`.
* `last_come_first_served_iff`: creation times are compared as `int`. From tick `2 ^ 31` on they are
  negative, and a process from before comes first although it is older.

Ranks are compared in any linear order: what `float` makes of the sums does not matter here.
-/
import Xv6.Lib.Scan
import Xv6.Procs.Table

namespace Xv6.Procs
open Lib Sched List
set_option autoImplicit false

variable {F : Type}

/-- Process `i` is runnable in the queue. -/
def InClass (t : Table F) (queue : Int) (i : Slot) : Prop :=
  (t i).state = .RUNNABLE ∧ (t i).sched.queue = queue
deriving Decidable

/-- The highest class that has a runnable process. -/
def topClass (t : Table F) : Option Int :=
  [ROUND_ROBIN, LCFS, BJF].find? fun queue => decide (∃ i, InClass t queue i)

/-! ## The scans -/

theorem finRange_sorted : (finRange NPROC).Pairwise (· < ·) := pairwise_lt_finRange NPROC

theorem lastComeFirstServe_eq (t : Table F) :
    lastComeFirstServe t = scanLeast (InClass t LCFS) (fun i => OrderDual.toDual (t i).ctime.toInt)
      (finRange NPROC) := by
  -- the time that is kept beside a process is its own
  let view (found : Option Slot) : Option Slot × Int := (found, found.elim (-1) fun i => (t i).ctime.toInt)
  have round : ∀ found i, laterOf t (view found) i =
      view (keepLeast (InClass t LCFS) (fun i => OrderDual.toDual (t i).ctime.toInt) found i) := by
    intro found i
    unfold laterOf keepLeast InClass
    by_cases fit : (t i).state = .RUNNABLE ∧ (t i).sched.queue = LCFS
    · cases found with
      | none => simp [fit, view]
      | some j =>
        by_cases later : (t j).ctime.toInt < (t i).ctime.toInt <;> simp [fit, view, later]
    · simp [fit]
  exact congrArg Prod.fst (foldl_hom view round)

variable {t : Table F}

theorem lastComeFirstServe_none : lastComeFirstServe t = none ↔ ∀ i, ¬ InClass t LCFS i := by
  rw [lastComeFirstServe_eq, scanLeast_eq_none]
  simp

/-- What is found is the latest in the order of `int`. -/
theorem lastComeFirstServe_some {p : Slot} (found : lastComeFirstServe t = some p) :
    InClass t LCFS p ∧ ∀ i, InClass t LCFS i → (t i).ctime.toInt ≤ (t p).ctime.toInt := by
  rw [lastComeFirstServe_eq] at found
  obtain ⟨fit, least⟩ := scanLeast_eq_some finRange_sorted found
  exact ⟨fit, fun i inClass => (least i (mem_finRange i) inClass).1⟩

section Ranks

variable [Add F] [Mul F] [IntCast F] [LinearOrder F]

theorem bestJobFirst_eq (t : Table F) :
    bestJobFirst t = scanLeast (InClass t BJF) (fun i => procrank (t i).sched.bjf)
      (finRange NPROC) := by
  let view (found : Option Slot) : Option (Slot × F) := found.map fun i => (i, procrank (t i).sched.bjf)
  have round : ∀ found i, betterOf t (view found) i =
      view (keepLeast (InClass t BJF) (fun i => procrank (t i).sched.bjf) found i) := by
    intro found i
    unfold betterOf keepLeast InClass
    by_cases fit : (t i).state = .RUNNABLE ∧ (t i).sched.queue = BJF
    · cases found with
      | none => simp [fit, view]
      | some j =>
        by_cases better : procrank (t i).sched.bjf < procrank (t j).sched.bjf <;> simp [fit, view, better]
    · simp [fit]
  have folded : (finRange NPROC).foldl (betterOf t) (view none) = view (scanLeast (InClass t BJF)
      (fun i => procrank (t i).sched.bjf) (finRange NPROC)) := foldl_hom view round
  rw [bestJobFirst, show (none : Option (Slot × F)) = view none from rfl, folded, Option.map_map]
  exact congrFun Option.map_id _

theorem bestJobFirst_none : bestJobFirst t = none ↔ ∀ i, ¬ InClass t BJF i := by
  rw [bestJobFirst_eq, scanLeast_eq_none]
  simp

theorem bestJobFirst_some {p : Slot} (found : bestJobFirst t = some p) :
    InClass t BJF p ∧ ∀ i, InClass t BJF i →
      procrank (t p).sched.bjf ≤ procrank (t i).sched.bjf ∧
        (procrank (t i).sched.bjf = procrank (t p).sched.bjf → p ≤ i) := by
  rw [bestJobFirst_eq] at found
  obtain ⟨fit, least⟩ := scanLeast_eq_some finRange_sorted found
  exact ⟨fit, fun i => least i (mem_finRange i)⟩

omit [Add F] [Mul F] [IntCast F] [LinearOrder F] in
theorem roundRobin_none {last : Slot} :
    roundRobin t last = none ↔ ∀ i, ¬ InClass t ROUND_ROBIN i := by
  rw [← Option.not_isSome_iff_eq_none, roundRobin_isSome_iff, not_exists]
  rfl

/-- **The scheduler's choice.** There is one exactly when a class has a runnable process. It is runnable
and of the highest such class; in the class BJF no runnable process has a smaller rank, and none with
the same rank has a lower slot. `last_scheduled` becomes the choice if that is of the class ROUND_ROBIN,
and stays as it is otherwise. -/
theorem scheduler_selects (t : Table F) (last : Slot) :
    ((select t last).1 = none ↔ topClass t = none) ∧
      (∀ p, (select t last).1 = some p →
        (t p).state = .RUNNABLE ∧ topClass t = some (t p).sched.queue ∧
          ((t p).sched.queue = BJF → ∀ i, InClass t BJF i →
            procrank (t p).sched.bjf ≤ procrank (t i).sched.bjf ∧
              (procrank (t i).sched.bjf = procrank (t p).sched.bjf → p ≤ i))) ∧
      (select t last).2 =
        ((select t last).1.filter fun p => (t p).sched.queue = ROUND_ROBIN).getD last := by
  unfold select topClass
  cases first : roundRobin t last with
  | some p =>
    obtain ⟨runnable, queue⟩ := roundRobinFrom_some first
    have nonempty : ∃ i, InClass t ROUND_ROBIN i := ⟨p, runnable, queue⟩
    simp [nonempty, runnable, queue, Option.filter]
  | none =>
    have noRobin := roundRobin_none.mp first
    cases second : lastComeFirstServe t with
    | some p =>
      obtain ⟨⟨runnable, queue⟩, -⟩ := lastComeFirstServe_some second
      have nonempty : ∃ i, InClass t LCFS i := ⟨p, runnable, queue⟩
      simp [noRobin, nonempty, runnable, queue, Option.filter]
    | none =>
      have noLcfs := lastComeFirstServe_none.mp second
      cases third : bestJobFirst t with
      | some p =>
        obtain ⟨⟨runnable, queue⟩, least⟩ := bestJobFirst_some third
        have nonempty : ∃ i, InClass t BJF i := ⟨p, runnable, queue⟩
        simpa [noRobin, noLcfs, nonempty, runnable, queue, Option.filter] using least
      | none => simp [noRobin, noLcfs, bestJobFirst_none.mp third]

end Ranks

/-! ## Last come first served -/

/-- What the name of `last_come_first_serve` says, with creation times as `uint`. -/
def LastComeFirstServed (t : Table F) : Prop :=
  (lastComeFirstServe t = none ↔ ∀ i, ¬ InClass t LCFS i) ∧
    ∀ p, lastComeFirstServe t = some p →
      InClass t LCFS p ∧ ∀ i, InClass t LCFS i → (t i).ctime.toNat ≤ (t p).ctime.toNat

/-- The runnable processes of the class were all created before tick `2 ^ 31`, or all after it. -/
def OneHalf (t : Table F) : Prop :=
  ∀ i j, InClass t LCFS i → InClass t LCFS j → ((t i).ctime.toNat < 2 ^ 31 ↔ (t j).ctime.toNat < 2 ^ 31)

theorem toInt_le_iff {x y : BitVec 32} :
    x.toInt ≤ y.toInt ↔
      (x.toNat < 2 ^ 31 ↔ y.toNat < 2 ^ 31) ∧ x.toNat ≤ y.toNat ∨ 2 ^ 31 ≤ x.toNat ∧ y.toNat < 2 ^ 31 := by
  rw [BitVec.toInt_eq_toNat_cond, BitVec.toInt_eq_toNat_cond]
  split <;> split <;> omega

/-- **The latest process is served first exactly while creation times are on one side of tick
`2 ^ 31`.** -/
theorem last_come_first_served_iff (t : Table F) : LastComeFirstServed t ↔ OneHalf t := by
  constructor
  · rintro ⟨-, latest⟩
    -- an old process and a new one: the choice would have to be the latest in both orders
    have mixed : ∀ old new, InClass t LCFS old → InClass t LCFS new →
        (t old).ctime.toNat < 2 ^ 31 → (t new).ctime.toNat < 2 ^ 31 := by
      intro old new isOld isNew low
      cases found : lastComeFirstServe t with
      | none => exact absurd isOld (lastComeFirstServe_none.mp found old)
      | some p =>
        have signed := toInt_le_iff.mp ((lastComeFirstServe_some found).2 old isOld)
        have unsigned := (latest p found).2 new isNew
        omega
    exact fun i j inI inJ => ⟨mixed i j inI inJ, mixed j i inJ inI⟩
  · intro oneHalf
    refine ⟨lastComeFirstServe_none, fun p found => ?_⟩
    obtain ⟨chosen, latest⟩ := lastComeFirstServe_some found
    refine ⟨chosen, fun i inClass => ?_⟩
    have signed := toInt_le_iff.mp (latest i inClass)
    have same := oneHalf i p inClass chosen
    omega

/-- An entry of the class LCFS. -/
def waitingSince (ctime : BitVec 32) : Proc ℚ :=
  ⟨.RUNNABLE, 1, none, false, ctime, ⟨LCFS, ⟨NORMAL, 0, ctime, 0, 1, 1, 1, 1⟩, ctime⟩⟩

/-- Two processes, created in the last tick of the first half and in the tick after it. -/
def acrossHalf : Table ℚ := fun i =>
  if i = 0 then waitingSince 0x7fffffff
  else if i = 1 then waitingSince 0x80000000
  else { waitingSince 0 with state := .UNUSED }

/-- The older one is served. -/
theorem older_served_acrossHalf :
    lastComeFirstServe acrossHalf = some 0 ∧ (acrossHalf 0).ctime.toNat < (acrossHalf 1).ctime.toNat ∧
      ¬ LastComeFirstServed acrossHalf := by
  have found : lastComeFirstServe acrossHalf = some 0 := by decide +kernel
  refine ⟨found, by decide, fun served => ?_⟩
  have latest := (served.2 0 found).2 1 (by decide)
  exact absurd latest (by decide)

end Xv6.Procs
