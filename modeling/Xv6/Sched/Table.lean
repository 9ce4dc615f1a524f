/-
# Xv6.Sched.Table -- the process table and its scheduling fields

`struct proc`, as far as the scheduler and the timer read it, with the table scans of `proc.c`
that look a process up by pid or wake the sleepers on a channel.

`float` is a type parameter: nothing here computes with the fields of that type, and what holds
of them holds for every number format. `int` and `uint` clock values are 32-bit words, so that
`ticks - last_exec` wraps as the compiled code does; an `enum` is stored as the `int` it is in C,
since `change_queue` stores whatever integer it is given.
-/
import Xv6.Param

namespace Xv6.Sched
set_option autoImplicit false

inductive ProcState where
  | UNUSED | EMBRYO | SLEEPING | RUNNABLE | RUNNING | ZOMBIE
  deriving DecidableEq, Repr

abbrev MAX_AGE : Int := 8000

abbrev UNSET : Int := 0
abbrev ROUND_ROBIN : Int := 1
abbrev LCFS : Int := 2
abbrev BJF : Int := 3

abbrev NORMAL : Int := 3

/-- `struct bjfparams`. -/
structure BjfParams (F : Type) where
  priority : Int
  executedCycle : F
  arrivalTime : BitVec 32
  processSize : Int
  priorityRatio : F
  executedCycleRatio : F
  arrivalTimeRatio : F
  processSizeRatio : F
  deriving DecidableEq, Repr

/-- `struct schedparams`. -/
structure SchedParams (F : Type) where
  queue : Int
  bjf : BjfParams F
  lastExec : BitVec 32
  deriving DecidableEq, Repr

/-- The addresses processes sleep on, kept apart as far as the code does. -/
inductive Chan where
  | ticks
  | proc (i : Fin NPROC)
  | address (a : Nat)
  deriving DecidableEq, Repr

/-- The fields of `struct proc` that scheduling reads or writes. -/
structure Proc (F : Type) where
  state : ProcState
  pid : Int
  chan : Option Chan
  killed : Bool
  ctime : BitVec 32
  sched : SchedParams F
  deriving DecidableEq, Repr

abbrev Table (F : Type) := Fin NPROC → Proc F

variable {F : Type}

/-- Store one entry. -/
def Table.set (t : Table F) (i : Fin NPROC) (p : Proc F) : Table F := Function.update t i p

/-- The first entry with the given pid, which is where the scans by pid stop. -/
def findPid (t : Table F) (pid : Int) : Option (Fin NPROC) :=
  (List.finRange NPROC).find? fun i => decide ((t i).pid = pid)

def wakeup1 (t : Table F) (chan : Chan) : Table F := fun i =>
  if (t i).state = .SLEEPING ∧ (t i).chan = some chan then
    { t i with state := .RUNNABLE }
  else
    t i

/-- The test `aging` makes of one entry: runnable, outside the first queue, and not run for more
than `MAX_AGE` ticks. The difference is an `int`. -/
def Aged (now : BitVec 32) (p : Proc F) : Prop :=
  p.state = .RUNNABLE ∧ p.sched.queue ≠ ROUND_ROBIN ∧ MAX_AGE < (now - p.sched.lastExec).toInt
deriving Decidable

@[simp] theorem wakeup1_sched (t : Table F) (chan : Chan) (i : Fin NPROC) :
    (wakeup1 t chan i).sched = (t i).sched := by
  simp only [wakeup1]
  split <;> rfl

end Xv6.Sched
