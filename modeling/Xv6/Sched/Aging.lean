/-
# Xv6.Sched.Aging -- the timer interrupt on CPU 0

`trap`'s timer case takes `tickslock`, counts the tick, ages the process table, wakes the sleepers
and lets go. `aging` scans under `ptable.lock` and hands every aged process to `change_queue`,
which takes `ptable.lock` again. The scan therefore panics at the first aged process it meets:
`timer` completes exactly when no process is aged, and then it moves nothing.
-/
import Xv6.Spinlock
import Xv6.Sched.Table

namespace Xv6.Sched
open Function
set_option autoImplicit false

variable {F : Type}

/-- The two locks on the timer's path. -/
inductive LockName where
  | tickslock
  | ptable
  deriving DecidableEq, Repr

/-- The kernel as the running CPU sees it. -/
structure Kernel (F : Type) where
  cpu : Cpu
  locks : LockName → Spinlock
  ticks : BitVec 32
  proc : Table F

/-- `acquire(&lock); body; release(&lock)` on CPU `me`. -/
def withLock (me : CpuId) (l : LockName) (body : Kernel F → Except Panic (Kernel F))
    (k : Kernel F) : Except Panic (Kernel F) := do
  let (lk, c) ← acquire me (k.locks l) k.cpu
  let k ← body { k with locks := update k.locks l lk, cpu := c }
  let (lk, c) ← release me (k.locks l) k.cpu
  return { k with locks := update k.locks l lk, cpu := c }

/-- `change_queue`: the result is the kernel and the value returned. -/
def changeQueue (me : CpuId) (pid newQueue : Int) (k : Kernel F) :
    Except Panic (Kernel F × Int) :=
  if newQueue = UNSET then
    .ok (k, -1)
  else do
    let exists? := (findPid k.proc pid).isSome
    let k ← withLock me .ptable (fun k =>
      match findPid k.proc pid with
      | none => .ok k
      | some i => do
        let queued := { k.proc i with sched := { (k.proc i).sched with queue := newQueue } }
        let k := { k with proc := k.proc.set i queued }
        withLock me .tickslock (fun k =>
          let stamped := { k.proc i with sched := { (k.proc i).sched with lastExec := k.ticks } }
          .ok { k with proc := k.proc.set i stamped }) k) k
    return (k, if exists? then 0 else -1)

/-- The body of `aging`'s loop. The value `change_queue` returns is dropped. -/
def ageOne (me : CpuId) (now : BitVec 32) (k : Kernel F) (i : Fin NPROC) :
    Except Panic (Kernel F) :=
  if Aged now (k.proc i) then
    (changeQueue me (k.proc i).pid ROUND_ROBIN k).map Prod.fst
  else
    .ok k

def aging (me : CpuId) (currTime : BitVec 32) (k : Kernel F) : Except Panic (Kernel F) :=
  withLock me .ptable (fun k => (List.finRange NPROC).foldlM (ageOne me currTime) k) k

def wakeup (me : CpuId) (chan : Chan) (k : Kernel F) : Except Panic (Kernel F) :=
  withLock me .ptable (fun k => .ok { k with proc := wakeup1 k.proc chan }) k

def Kernel.tick (k : Kernel F) : Kernel F := { k with ticks := k.ticks + 1 }

/-- The timer case of `trap` on CPU 0. -/
def timer (k : Kernel F) : Except Panic (Kernel F) :=
  withLock 0 .tickslock (fun k => do
    let k ← aging 0 k.tick.ticks k.tick
    wakeup 0 .ticks k) k

/-! ## Critical sections -/

/-- The kernel once CPU `me` is inside the critical section of `l`. -/
def Kernel.enter (k : Kernel F) (me : CpuId) (l : LockName) : Kernel F :=
  { k with locks := update k.locks l (takenBy me), cpu := pushcli k.cpu }

/-- The kernel once CPU `me` has left it. -/
def Kernel.leave (k : Kernel F) (l : LockName) (before : Cpu) : Kernel F :=
  { k with
    locks := update k.locks l initlock
    cpu := { before with intena := if before.ncli = 0 then false else before.intena } }

/-- The state an interrupt handler starts in: interrupts are off, and so the CPU holds no
spinlock. -/
structure Interrupted (me : CpuId) (k : Kernel F) : Prop where
  masked : k.cpu.Masked
  free : ∀ l, (k.locks l).heldBy me = false

section

variable (k : Kernel F) (me : CpuId)
include k me

@[simp] theorem enter_locks_self (l : LockName) : (k.enter me l).locks l = takenBy me := by
  simp [Kernel.enter]

theorem enter_locks_ne {l l' : LockName} (other : l' ≠ l) :
    (k.enter me l).locks l' = k.locks l' := by
  simp [Kernel.enter, other]

@[simp] theorem enter_proc (l : LockName) : (k.enter me l).proc = k.proc := rfl

@[simp] theorem enter_ticks (l : LockName) : (k.enter me l).ticks = k.ticks := rfl

end

variable {k : Kernel F} {me : CpuId} {now : BitVec 32}

theorem enter_masked (masked : k.cpu.Masked) (me : CpuId) (l : LockName) :
    (k.enter me l).cpu.Masked :=
  masked.pushcli

section WithLock

variable {me : CpuId} {l : LockName} {body : Kernel F → Except Panic (Kernel F)} {k k' : Kernel F}

/-- A section that keeps its lock and the interrupt state returns. -/
theorem withLock_ok (masked : k.cpu.Masked) (free : (k.locks l).heldBy me = false)
    (ran : body (k.enter me l) = .ok k') (kept : (k'.locks l).heldBy me = true)
    (depth : k'.cpu = pushcli k.cpu) :
    withLock me l body k = .ok (k'.leave l k.cpu) := by
  have ran' : body { k with
      locks := update k.locks l (takenBy me), cpu := pushcli k.cpu } = .ok k' := ran
  simp [withLock, acquire_free masked free, ran', depth, release_pushcli masked kept,
    Kernel.leave, bind, Except.bind, pure, Except.pure]

/-- Entering a section whose lock this CPU holds panics. -/
theorem withLock_held (masked : k.cpu.Masked) (held : (k.locks l).heldBy me = true) :
    withLock me l body k = .error "acquire" := by
  simp [withLock, acquire_held masked held, bind, Except.bind]

/-- A panic inside the section is the outcome of the whole. -/
theorem withLock_error {text : Panic} (masked : k.cpu.Masked)
    (free : (k.locks l).heldBy me = false) (failed : body (k.enter me l) = .error text) :
    withLock me l body k = .error text := by
  have failed' : body { k with
      locks := update k.locks l (takenBy me), cpu := pushcli k.cpu } = .error text := failed
  simp [withLock, acquire_free masked free, failed', bind, Except.bind]

end WithLock

/-! ## The scan -/

section

variable (masked : k.cpu.Masked) (held : (k.locks .ptable).heldBy me = true)
include masked held

/-- Under `ptable.lock`, moving a process out of its queue panics, whatever its pid. -/
theorem changeQueue_held {pid queue : Int} (set : queue ≠ UNSET) :
    changeQueue me pid queue k = .error "acquire" := by
  simp [changeQueue, set, withLock_held masked held, bind, Except.bind]

theorem ageOne_held (i : Fin NPROC) :
    ageOne me now k i = if Aged now (k.proc i) then .error "acquire" else .ok k := by
  simp only [ageOne, changeQueue_held masked held (show ROUND_ROBIN ≠ UNSET by decide)]
  rfl

/-- The scan over any part of the table: it stops at an aged process, and otherwise changes
nothing. -/
theorem foldlM_ageOne (slots : List (Fin NPROC)) :
    slots.foldlM (ageOne me now) k =
      if ∃ i ∈ slots, Aged now (k.proc i) then .error "acquire" else .ok k := by
  induction slots with
  | nil => simp [pure, Except.pure]
  | cons i rest ih =>
    rw [List.foldlM_cons, ageOne_held masked held]
    by_cases aged : Aged now (k.proc i)
    · have first : ∃ j ∈ i :: rest, Aged now (k.proc j) := ⟨i, by simp, aged⟩
      rw [if_pos aged, if_pos first]
      rfl
    · simp only [List.mem_cons, exists_eq_or_imp, aged, false_or]
      exact ih

end

section Timer

variable {k : Kernel F}

section

variable (masked : k.cpu.Masked) (free : (k.locks .ptable).heldBy 0 = false)
include masked free

theorem aging_aged (aged : ∃ i, Aged now (k.proc i)) : aging 0 now k = .error "acquire" := by
  refine withLock_error masked free ?_
  rw [foldlM_ageOne (enter_masked masked 0 .ptable) (by simp)]
  simpa using aged

theorem aging_none (none : ∀ i, ¬ Aged now (k.proc i)) :
    aging 0 now k = .ok ((k.enter 0 .ptable).leave .ptable k.cpu) := by
  refine withLock_ok masked free ?_ (by simp) rfl
  rw [foldlM_ageOne (enter_masked masked 0 .ptable) (by simp)]
  simpa using none

theorem wakeup_ok (chan : Chan) :
    wakeup 0 chan k =
      .ok ({ k.enter 0 .ptable with proc := wakeup1 k.proc chan }.leave .ptable k.cpu) :=
  withLock_ok masked free rfl (by simp [Kernel.enter]) rfl

end

theorem ptable_free_inside (interrupted : Interrupted 0 k) :
    ((k.enter 0 .tickslock).tick.locks .ptable).heldBy 0 = false := by
  have kept := enter_locks_ne k 0 (show LockName.ptable ≠ .tickslock by decide)
  simpa only [Kernel.tick, kept] using interrupted.free .ptable

/-- The tick panics as soon as some process is aged. -/
theorem timer_aged (interrupted : Interrupted 0 k) (aged : ∃ i, Aged (k.ticks + 1) (k.proc i)) :
    timer k = .error "acquire" := by
  refine withLock_error interrupted.masked (interrupted.free _) ?_
  have stopped := aging_aged (k := (k.enter 0 .tickslock).tick)
    (enter_masked interrupted.masked 0 .tickslock) (ptable_free_inside interrupted) aged
  have now : (k.enter 0 .tickslock).tick.ticks = k.ticks + 1 := rfl
  rw [now, stopped]
  rfl

/-- With no process aged, the tick counts, wakes the sleepers on `ticks` and does nothing else to
the table. -/
theorem timer_none (interrupted : Interrupted 0 k)
    (none : ∀ i, ¬ Aged (k.ticks + 1) (k.proc i)) :
    ∃ k', timer k = .ok k' ∧ k'.ticks = k.ticks + 1 ∧ k'.proc = wakeup1 k.proc .ticks := by
  let inside := (k.enter 0 .tickslock).tick
  have masked : inside.cpu.Masked := enter_masked interrupted.masked 0 .tickslock
  have scanned : aging 0 inside.ticks inside = .ok ((inside.enter 0 .ptable).leave .ptable inside.cpu) :=
    aging_none masked (ptable_free_inside interrupted) none
  -- the nesting depth is one here, so leaving the inner section restores the CPU as it was
  have nested : inside.cpu.ncli ≠ 0 := pushcli_nested interrupted.masked
  have restored : ((inside.enter 0 .ptable).leave .ptable inside.cpu).cpu = inside.cpu := by
    simp [Kernel.leave, nested]
  let aged := (inside.enter 0 .ptable).leave .ptable inside.cpu
  let woken := { aged.enter 0 .ptable with proc := wakeup1 aged.proc .ticks }.leave .ptable aged.cpu
  have woke : wakeup 0 .ticks aged = .ok woken :=
    wakeup_ok (by rw [restored]; exact masked) (by simp [aged, Kernel.leave]) .ticks
  have whole : timer k = .ok (woken.leave .tickslock k.cpu) := by
    refine withLock_ok interrupted.masked (interrupted.free _) ?_ ?_ ?_
    · rw [scanned]
      exact woke
    · simp [woken, Kernel.leave, aged, inside, Kernel.enter, Kernel.tick]
    · have deep : aged.cpu.ncli ≠ 0 := by rw [restored]; exact nested
      simp only [woken, Kernel.leave, if_neg deep]
      exact restored
  exact ⟨_, whole, rfl, rfl⟩

/-- What a tick from `k` to `k'` owes the table: every aged process is at the back of the first
queue with a fresh stamp, and no other process is rescheduled. -/
structure TickSpec (k k' : Kernel F) : Prop where
  counted : k'.ticks = k.ticks + 1
  moved : ∀ i, Aged k'.ticks (k.proc i) →
    (k'.proc i).sched.queue = ROUND_ROBIN ∧ (k'.proc i).sched.lastExec = k'.ticks
  others : ∀ i, ¬ Aged k'.ticks (k.proc i) → (k'.proc i).sched = (k.proc i).sched

/-- **A tick does what it owes exactly when nobody is aged.** -/
theorem timer_completes_iff (interrupted : Interrupted 0 k) :
    (∃ k', timer k = .ok k' ∧ TickSpec k k') ↔ ∀ i, ¬ Aged (k.ticks + 1) (k.proc i) := by
  constructor
  · rintro ⟨k', completed, -⟩ i aged
    rw [timer_aged interrupted ⟨i, aged⟩] at completed
    cases completed
  · intro none
    obtain ⟨k', completed, counted, table⟩ := timer_none interrupted none
    refine ⟨k', completed, counted, ?_, ?_⟩
    · intro i aged
      exact absurd (counted ▸ aged) (none i)
    · intro i _
      rw [table, wakeup1_sched]

end Timer

/-! ## A process that waited too long -/

/-- A process that entered the `LCFS` queue when the machine started and never ran. -/
def waiting : Proc Nat where
  state := .RUNNABLE
  pid := 3
  chan := none
  killed := false
  ctime := 0
  sched :=
    { queue := LCFS
      bjf := ⟨NORMAL, 0, 0, 4, 1, 1, 1, 1⟩
      lastExec := 0 }

def unused : Proc Nat := { waiting with state := .UNUSED, pid := 0 }

/-- CPU 0 enters the handler at tick `now`, with `waiting` alone in the table. -/
def atTick (now : BitVec 32) : Kernel Nat where
  cpu := ⟨false, 0, false⟩
  locks := fun _ => initlock
  ticks := now
  proc := fun i => if i = 0 then waiting else unused

theorem atTick_interrupted (now : BitVec 32) : Interrupted 0 (atTick now) :=
  ⟨⟨rfl, le_rfl⟩, fun _ => rfl⟩

theorem aged_waiting_panics :
    (∃ i, Aged ((atTick 8000).ticks + 1) ((atTick 8000).proc i)) ∧
      timer (atTick 8000) = .error "acquire" := by
  have aged : Aged ((atTick 8000).ticks + 1) ((atTick 8000).proc 0) := by decide
  exact ⟨⟨0, aged⟩, timer_aged (atTick_interrupted _) ⟨0, aged⟩⟩

theorem timer_completes_atTick_7999 :
    ∃ k', timer (atTick 7999) = .ok k' ∧ TickSpec (atTick 7999) k' :=
  (timer_completes_iff (atTick_interrupted _)).mpr (by decide)

end Xv6.Sched
