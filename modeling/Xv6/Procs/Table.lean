/-
# Xv6.Procs.Table -- what the calls of `proc.c` do to the process table

Every call works on the table in a few critical sections under `ptable.lock` and, in `fork`, in
stores made without it. `Body` names each of them and `Body.run` is what it stores. Where control
goes before and after, and who holds the lock, is the business of `Xv6.Procs.Machine`.

* `kill`, `change_queue` and `set_bjs_proc` scan for a pid and write the entry they stop at. They
  are one scan, `atPid`, with three ways to write.
* `exit` wakes its parent, hands its children to `initproc` and wakes that too if one of them is a
  zombie.
* The three selectors of `scheduler`, tried in order, find a process exactly when some process is
  runnable in one of the three queues (`select_isSome_iff`).

`parent` is kept beside the table, as a map from slots to slots: a null pointer is `none`. `born`
and `log` are ghosts. `born` counts the pids `allocproc` has handed out since `userinit`, and `log`
has the forks, exits and reports in the order they happened, newest first.
-/
import Xv6.Sched.LockOrder
import Xv6.Procs.Family

namespace Xv6.Procs
open Sched List
open Sched.Smp (freshSched stampFork dispatched Pickable)
set_option autoImplicit false

abbrev Slot := Fin NPROC

/-- `userinit` runs on an empty table, so that `allocproc` gives it the first entry. -/
abbrev initproc : Slot := 0

structure Ptable (F : Type) where
  proc : Table F
  parent : Slot → Option Slot
  nextpid : BitVec 32
  ticks : BitVec 32
  born : Nat
  log : List (Deed Int)

/-- The four weights that `set_bjs_proc` and `set_bjs_sys` store. -/
structure Ratios (F : Type) where
  priority : F
  arrivalTime : F
  executedCycle : F
  processSize : F
  deriving DecidableEq, Repr

variable {F : Type}

/-! ## Operations addressed by pid -/

/-- A scan that writes the first entry with the given pid, and the value returned. -/
def atPid (t : Table F) (pid : Int) (write : Proc F → Proc F) : Table F × Int :=
  match findPid t pid with
  | none => (t, -1)
  | some i => (t.set i (write (t i)), 0)

/-- `kill`'s two stores. -/
def markKilled (p : Proc F) : Proc F :=
  { p with killed := true, state := if p.state = .SLEEPING then .RUNNABLE else p.state }

def kill (t : Table F) (pid : Int) : Table F × Int := atPid t pid markKilled

def requeue (now : BitVec 32) (queue : Int) (p : Proc F) : Proc F :=
  { p with sched := { p.sched with queue := queue, lastExec := now } }

def changeQueue (now : BitVec 32) (t : Table F) (pid newQueue : Int) : Table F × Int :=
  if newQueue = UNSET then (t, -1) else atPid t pid (requeue now newQueue)

def weigh (r : Ratios F) (p : Proc F) : Proc F :=
  { p with sched := { p.sched with bjf := { p.sched.bjf with
      priorityRatio := r.priority
      arrivalTimeRatio := r.arrivalTime
      executedCycleRatio := r.executedCycle
      processSizeRatio := r.processSize } } }

def setBjsProc (t : Table F) (pid : Int) (r : Ratios F) : Table F × Int := atPid t pid (weigh r)

def setBjsSys (t : Table F) (r : Ratios F) : Table F := fun i => weigh r (t i)

/-- `init_queue`, which does not say whether it found the pid. -/
def initQueue (t : Table F) (pid : Int) : Table F × Int :=
  if 0 < pid then
    ((atPid t pid fun p => { p with sched := { p.sched with queue := ROUND_ROBIN } }).1, 0)
  else
    (t, -1)

/-! ## The selectors of the scheduler -/

section Select

/-- The loop of `round_robin` from `p` on. The addition wraps at the end of the table, and the
loop ends at `last`, which it reaches after a full round. -/
def roundRobinFrom (t : Table F) (last : Slot) : Nat → Slot → Option Slot
  | 0, _ => none
  | rounds + 1, p =>
    if (t p).state = .RUNNABLE ∧ (t p).sched.queue = ROUND_ROBIN then
      some p
    else if p = last then
      none
    else
      roundRobinFrom t last rounds (p + 1)

def roundRobin (t : Table F) (last : Slot) : Option Slot :=
  roundRobinFrom t last NPROC (last + 1)

/-- One round of `last_come_first_serve`: the process found so far and its time. -/
def laterOf (t : Table F) (found : Option Slot × Int) (i : Slot) : Option Slot × Int :=
  if (t i).state = .RUNNABLE ∧ (t i).sched.queue = LCFS then
    if found.1 = none ∨ found.2 < (t i).ctime.toInt then (some i, (t i).ctime.toInt) else found
  else
    found

def lastComeFirstServe (t : Table F) : Option Slot :=
  ((finRange NPROC).foldl (laterOf t) (none, -1)).1

variable [Add F] [Mul F] [IntCast F] [LT F] [DecidableLT F]

def procrank (p : BjfParams F) : F :=
  (p.priority : F) * p.priorityRatio + (p.arrivalTime.toInt : F) * p.arrivalTimeRatio +
    p.executedCycle * p.executedCycleRatio + (p.processSize : F) * p.processSizeRatio

/-- One round of `best_job_first`: `best_rank` has no value before a process is found. -/
def betterOf (t : Table F) (found : Option (Slot × F)) (i : Slot) : Option (Slot × F) :=
  if (t i).state = .RUNNABLE ∧ (t i).sched.queue = BJF then
    match found with
    | none => some (i, procrank (t i).sched.bjf)
    | some (j, best) =>
      if procrank (t i).sched.bjf < best then some (i, procrank (t i).sched.bjf)
      else some (j, best)
  else
    found

def bestJobFirst (t : Table F) : Option Slot :=
  ((finRange NPROC).foldl (betterOf t) none).map Prod.fst

/-- The choice `scheduler` makes, and its `last_scheduled` afterwards. -/
def select (t : Table F) (last : Slot) : Option Slot × Slot :=
  match roundRobin t last with
  | some p => (some p, p)
  | none =>
    match lastComeFirstServe t with
    | some p => (some p, last)
    | none => (bestJobFirst t, last)

end Select

/-! ## The other critical sections -/

/-- `wakeup1` on any address, the null pointer included. -/
def wakeupAt (t : Table F) (chan : Option Chan) : Table F := fun i =>
  if (t i).state = .SLEEPING ∧ (t i).chan = chan then { t i with state := .RUNNABLE } else t i

/-- The body of `exit`'s loop: a child of `me` goes to `initproc`. -/
def reparent (me : Slot) (s : Table F × (Slot → Option Slot)) (p : Slot) :
    Table F × (Slot → Option Slot) :=
  if s.2 p = some me then
    (if (s.1 p).state = .ZOMBIE then wakeup1 s.1 (.proc initproc) else s.1,
      Function.update s.2 p (some initproc))
  else
    s

/-- `wait`'s scan: the first child that is a zombie. -/
def zombieChild (d : Ptable F) (me : Slot) : Option Slot :=
  (finRange NPROC).find? fun p => decide (d.parent p = some me ∧ (d.proc p).state = .ZOMBIE)

/-- `havekids` -/
def HasKids (d : Ptable F) (me : Slot) : Prop := ∃ p, d.parent p = some me
deriving Decidable

/-- `allocproc`'s scan. -/
def unusedSlot (d : Ptable F) : Option Slot :=
  (finRange NPROC).find? fun p => decide ((d.proc p).state = .UNUSED)

/-- A critical section that does not depend on who enters it. -/
inductive Section (F : Type) where
  | wakeup (chan : Chan)
  | kill (pid : Int)
  | changeQueue (pid newQueue : Int)
  | setBjsProc (pid : Int) (ratios : Ratios F)
  | setBjsSys (ratios : Ratios F)
  | aging
  deriving DecidableEq, Repr

namespace Ptable

def setProc (d : Ptable F) (i : Slot) (p : Proc F) : Ptable F := { d with proc := d.proc.set i p }

/-- `allocproc` under the lock. -/
def alloc (d : Ptable F) (np : Slot) : Ptable F :=
  { d.setProc np { d.proc np with state := .EMBRYO, pid := d.nextpid.toInt } with
    nextpid := d.nextpid + 1
    born := d.born + 1 }

def exit (d : Ptable F) (me : Slot) : Ptable F :=
  let woken := wakeupAt d.proc ((d.parent me).map .proc)
  let handed := (finRange NPROC).foldl (reparent me) (woken, d.parent)
  { d with
    proc := handed.1.set me { handed.1 me with state := .ZOMBIE }
    parent := handed.2
    log := .exit (d.proc me).pid :: d.log }

/-- `wait` frees the entry of the child it reports. -/
def reap (d : Ptable F) (me child : Slot) : Ptable F :=
  { d.setProc child { d.proc child with pid := 0, killed := false, state := .UNUSED } with
    parent := Function.update d.parent child none
    log := .report (d.proc me).pid (d.proc child).pid :: d.log }

/-- `aging` panics when it meets an aged process, since it calls `change_queue` under the lock
that takes. Otherwise it changes nothing. -/
def enter (d : Ptable F) : Section F → Option (Ptable F)
  | .wakeup chan => some { d with proc := wakeup1 d.proc chan }
  | .kill pid => some { d with proc := (kill d.proc pid).1 }
  | .changeQueue pid newQueue =>
    some { d with proc := (changeQueue d.ticks d.proc pid newQueue).1 }
  | .setBjsProc pid ratios => some { d with proc := (setBjsProc d.proc pid ratios).1 }
  | .setBjsSys ratios => some { d with proc := setBjsSys d.proc ratios }
  | .aging => if ∃ i, Aged d.ticks (d.proc i) then none else some d

end Ptable

/-- What one step of a CPU stores. -/
inductive Body (F : Type) where
  | skip
  | tick
  | enter (sec : Section F)
  -- `fork`, with `allocproc` and `init_queue`
  | alloc (np : Slot) | fresh (np : Slot) | abandon (np : Slot) | adopt (np me : Slot)
  | ready (np me : Slot) | stamp (np : Slot) | initQueue (pid : Int)
  -- `exit` and `wait`
  | exit (me : Slot) | reap (me child : Slot)
  -- `sleep`, `yield`, `scheduler`, and `trap` on a fault in user mode
  | sleep (me : Slot) (chan : Chan) | tidy (me : Slot) | yield (me : Slot) | dispatch (p : Slot)
  | fault (me : Slot)
  deriving DecidableEq, Repr

section Run

variable [Zero F] [One F] [Add F]

/-- `tenth` is the constant `0.1f` of `scheduler`. -/
def Body.run (tenth : F) (d : Ptable F) : Body F → Option (Ptable F)
  | .skip => some d
  | .tick => some { d with ticks := d.ticks + 1 }
  | .enter sec => d.enter sec
  | .alloc np => some (d.alloc np)
  | .fresh np => some (d.setProc np { d.proc np with sched := freshSched })
  | .abandon np => some (d.setProc np { d.proc np with state := .UNUSED })
  | .adopt np me => some { d with parent := Function.update d.parent np (some me) }
  | .ready np me =>
    some { d.setProc np { d.proc np with state := .RUNNABLE } with
      log := .fork (d.proc me).pid (d.proc np).pid :: d.log }
  | .stamp np => some (d.setProc np (stampFork d.ticks (d.proc np)))
  | .initQueue pid => some { d with proc := (Procs.initQueue d.proc pid).1 }
  | .exit me => some (d.exit me)
  | .reap me child => some (d.reap me child)
  | .sleep me chan =>
    some (d.setProc me { d.proc me with chan := some chan, state := .SLEEPING })
  | .tidy me => some (d.setProc me { d.proc me with chan := none })
  | .yield me => some (d.setProc me { d.proc me with state := .RUNNABLE })
  | .dispatch p => some (d.setProc p (dispatched tenth d.ticks (d.proc p)))
  | .fault me => some (d.setProc me { d.proc me with killed := true })

end Run

/-! ## The scan for a pid -/

variable {t : Table F} {d : Ptable F}

theorem findPid_some {pid : Int} {i : Slot} (found : findPid t pid = some i) : (t i).pid = pid := by
  have holds := find?_some found
  simpa using holds

theorem findPid_none {pid : Int} (missing : findPid t pid = none) (i : Slot) : (t i).pid ≠ pid := by
  have fails := find?_eq_none.mp missing i (mem_finRange i)
  simpa using fails

theorem findPid_isSome_iff {pid : Int} : (findPid t pid).isSome ↔ ∃ i, (t i).pid = pid := by
  simp [findPid]

/-- A scan that writes leaves every other entry alone. -/
theorem atPid_apply (t : Table F) (pid : Int) (write : Proc F → Proc F) (j : Slot) :
    (atPid t pid write).1 j = if findPid t pid = some j then write (t j) else t j := by
  unfold atPid
  cases found : findPid t pid with
  | none => simp
  | some i =>
    by_cases same : i = j
    · subst same
      simp [Table.set]
    · have other : j ≠ i := Ne.symm same
      simp [Table.set, same, Function.update_of_ne other]

theorem changeQueue_apply (now : BitVec 32) (t : Table F) (pid : Int) {newQueue : Int}
    (set : newQueue ≠ UNSET) (j : Slot) :
    (changeQueue now t pid newQueue).1 j =
      if findPid t pid = some j then requeue now newQueue (t j) else t j := by
  rw [changeQueue, if_neg set]
  exact atPid_apply t pid _ j

theorem initQueue_apply (t : Table F) {pid : Int} (positive : 0 < pid) (j : Slot) :
    (initQueue t pid).1 j =
      if findPid t pid = some j then { t j with sched := { (t j).sched with queue := ROUND_ROBIN } }
      else t j := by
  rw [initQueue, if_pos positive]
  exact atPid_apply t pid _ j

theorem unusedSlot_some {np : Slot} (found : unusedSlot d = some np) :
    (d.proc np).state = .UNUSED := by
  have holds := find?_some found
  simpa using holds

theorem zombieChild_some {me p : Slot} (found : zombieChild d me = some p) :
    d.parent p = some me ∧ (d.proc p).state = .ZOMBIE := by
  have holds := find?_some found
  simpa using holds

theorem zombieChild_none {me : Slot} (missing : zombieChild d me = none) {p : Slot}
    (child : d.parent p = some me) : (d.proc p).state ≠ .ZOMBIE := by
  have fails := find?_eq_none.mp missing p (mem_finRange p)
  simpa [child] using fails

/-! ## What the selectors find -/

section Select

variable {t : Table F} {last p i : Slot}

theorem roundRobinFrom_some {rounds : Nat} (found : roundRobinFrom t last rounds p = some i) :
    (t i).state = .RUNNABLE ∧ (t i).sched.queue = ROUND_ROBIN := by
  induction rounds generalizing p with
  | zero => cases found
  | succ rounds ih =>
    simp only [roundRobinFrom] at found
    split at found
    · cases found
      assumption
    · split at found
      · cases found
      · exact ih found

/-- One entry further, the distance to every other entry is one less. -/
theorem distance_succ (other : i ≠ p) : (i - (p + 1)).val + 1 = (i - p).val := by
  revert i p
  decide +kernel

/-- The loop has looked at every entry up to `last` that it had rounds for. -/
theorem roundRobinFrom_none {rounds : Nat} (missing : roundRobinFrom t last rounds p = none)
    (near : (i - p).val < rounds) (before : (i - p).val ≤ (last - p).val) :
    ¬ ((t i).state = .RUNNABLE ∧ (t i).sched.queue = ROUND_ROBIN) := by
  induction rounds generalizing p with
  | zero => exact absurd near (Nat.not_lt_zero _)
  | succ rounds ih =>
    simp only [roundRobinFrom] at missing
    split at missing
    · cases missing
    next unfit =>
      by_cases here : i = p
      · rwa [here]
      · have closer := distance_succ here
        split at missing
        next ended =>
          -- at `last` itself the distance to go is zero
          rw [ended, sub_self, Fin.val_zero] at before
          rw [ended] at closer
          omega
        next goesOn =>
          have closerLast := distance_succ (Ne.symm goesOn)
          exact ih missing (by omega) (by omega)

theorem roundRobin_isSome_iff (t : Table F) (last : Slot) :
    (roundRobin t last).isSome ↔
      ∃ i, (t i).state = .RUNNABLE ∧ (t i).sched.queue = ROUND_ROBIN := by
  constructor
  · intro found
    obtain ⟨i, found⟩ := Option.isSome_iff_exists.mp found
    exact ⟨i, roundRobinFrom_some found⟩
  · rintro ⟨i, fits⟩
    by_contra missing
    have missing : roundRobin t last = none := by simpa using missing
    have full : ∀ last : Slot, (last - (last + 1)).val = 63 := by decide +kernel
    refine roundRobinFrom_none missing (i - (last + 1)).isLt ?_ fits
    have bound : (i - (last + 1)).val < 64 := (i - (last + 1)).isLt
    have round := full last
    omega

/-- A scan that takes a candidate when it has none, and otherwise keeps what it has or takes a
candidate. -/
theorem foldl_choice {α : Type} (view : α → Option Slot) (fits : Slot → Prop)
    (visit : α → Slot → α) (skips : ∀ a i, ¬ fits i → view (visit a i) = view a)
    (takes : ∀ a i, fits i → view (visit a i) = some i ∨ view (visit a i) = view a ∧ (view a).isSome)
    (slots : List Slot) (a : α) :
    ((view (slots.foldl visit a)).isSome ↔ (view a).isSome ∨ ∃ i ∈ slots, fits i) ∧
      ∀ p, view (slots.foldl visit a) = some p → view a = some p ∨ fits p := by
  induction slots generalizing a with
  | nil => exact ⟨by simp, fun p chosen => .inl chosen⟩
  | cons i rest ih =>
    obtain ⟨some_iff, found⟩ := ih (visit a i)
    by_cases fit : fits i
    · rcases takes a i fit with took | ⟨kept, had⟩
      · constructor
        · simp [some_iff, took, fit]
        · intro p chosen
          rcases found p chosen with first | later
          · rw [took] at first
            cases first
            exact .inr fit
          · exact .inr later
      · constructor
        · simp [some_iff, kept, had]
        · intro p chosen
          rw [← kept]
          exact found p chosen
    · rw [skips a i fit] at some_iff found
      constructor
      · simp [some_iff, fit]
      · exact found

theorem lastComeFirstServe_choice (t : Table F) :
    ((lastComeFirstServe t).isSome ↔
      ∃ i, (t i).state = .RUNNABLE ∧ (t i).sched.queue = LCFS) ∧
      ∀ p, lastComeFirstServe t = some p →
        (t p).state = .RUNNABLE ∧ (t p).sched.queue = LCFS := by
  have choice := foldl_choice Prod.fst
    (fun i => (t i).state = .RUNNABLE ∧ (t i).sched.queue = LCFS) (laterOf t) ?_ ?_ (finRange NPROC) (none, -1)
  · simpa [lastComeFirstServe] using choice
  · intro a i unfit
    simp [laterOf, unfit]
  · intro a i fit
    by_cases better : a.1 = none ∨ a.2 < (t i).ctime.toInt
    · simp [laterOf, fit, better]
    · right
      simp only [laterOf, if_pos fit, if_neg better, true_and]
      exact Option.isSome_iff_ne_none.mpr fun empty => better (.inl empty)

variable [Add F] [Mul F] [IntCast F] [LT F] [DecidableLT F]

theorem bestJobFirst_choice (t : Table F) :
    ((bestJobFirst t).isSome ↔ ∃ i, (t i).state = .RUNNABLE ∧ (t i).sched.queue = BJF) ∧
      ∀ p, bestJobFirst t = some p → (t p).state = .RUNNABLE ∧ (t p).sched.queue = BJF := by
  have choice := foldl_choice (Option.map Prod.fst)
    (fun i => (t i).state = .RUNNABLE ∧ (t i).sched.queue = BJF) (betterOf t) ?_ ?_ (finRange NPROC) none
  · simpa [bestJobFirst] using choice
  · intro a i unfit
    simp [betterOf, unfit]
  · intro a i fit
    cases a with
    | none => simp [betterOf, fit]
    | some found =>
      by_cases better : procrank (t i).sched.bjf < found.2
      · simp [betterOf, fit, better]
      · simp [betterOf, fit, better]

/-- The scheduler's choice is runnable, in one of its three queues. -/
theorem select_pickable (found : (select t last).1 = some p) : Pickable (t p) := by
  unfold select at found
  cases first : roundRobin t last with
  | some q =>
    rw [first] at found
    cases found
    obtain ⟨runnable, queue⟩ := roundRobinFrom_some first
    exact ⟨runnable, .inl queue⟩
  | none =>
    rw [first] at found
    cases second : lastComeFirstServe t with
    | some q =>
      rw [second] at found
      cases found
      obtain ⟨runnable, queue⟩ := (lastComeFirstServe_choice t).2 _ second
      exact ⟨runnable, .inr (.inl queue)⟩
    | none =>
      rw [second] at found
      obtain ⟨runnable, queue⟩ := (bestJobFirst_choice t).2 _ found
      exact ⟨runnable, .inr (.inr queue)⟩

/-- **The scheduler finds a process exactly when one is runnable in one of its queues.** -/
theorem select_isSome_iff : (select t last).1.isSome ↔ ∃ i, Pickable (t i) := by
  constructor
  · intro found
    obtain ⟨p, found⟩ := Option.isSome_iff_exists.mp found
    exact ⟨p, select_pickable found⟩
  · rintro ⟨i, runnable, queue⟩
    unfold select
    cases first : roundRobin t last with
    | some q => rfl
    | none =>
      cases second : lastComeFirstServe t with
      | some q => rfl
      | none =>
        apply (bestJobFirst_choice t).1.mpr
        rcases queue with robin | lcfs | bjf
        · have found := (roundRobin_isSome_iff t last).mpr ⟨i, runnable, robin⟩
          simp [first] at found
        · have found := (lastComeFirstServe_choice t).1.mpr ⟨i, runnable, lcfs⟩
          simp [second] at found
        · exact ⟨i, runnable, bjf⟩

end Select

end Xv6.Procs
