/-
# Xv6.Procs.Machine -- processes, CPUs and the hand-over of `ptable.lock`

Any number of CPUs run `scheduler`. A CPU is in the scheduler's own context or on the kernel stack
of its `c->proc`; `scheduler` sets the two together. A thread's `Point` says what it is about to do.
What one thread does next is `Point.step`: an operation on `ptable.lock`, the next point, and a
store of `Xv6.Procs.Table`. `sched` is the operation `swtch`: the CPU is back in the scheduler's
context, and the lock goes with it.

* A CPU that spins in `acquire` has no step; neither has a panic.
* A timer interrupt may send any thread that holds no lock into `yield`, and its `Point` remembers
  where it was. Handlers that wake or age processes run on top of whatever their CPU does.
* `tickslock` and the lock a sleeper lets go are left out: every run of the code is a run here.
  So are the calls that a thread makes inside a call without coming near the table.

`Turn` is everything a thread can do, and `Moves` everything the machine can do.
-/
import Xv6.Procs.Effects

namespace Xv6.Procs
open Lib Sched Option Function
open Sched.Smp (freshSched Pickable)
set_option autoImplicit false

/-- Where a thread is. A name says what the thread is about to do. -/
inductive Point (F : Type) where
  -- in user mode, or in the kernel and away from the table
  | user
  -- `acquire`, one section, `release`
  | lock (sec : Section F) | inside (sec : Section F)
  -- `fork`, with `allocproc` and `init_queue`
  | forkAlloc | forkScan | forkKalloc (np : Slot) | forkCopy (np : Slot) | forkReady (np : Slot)
  | forkRunnable (np : Slot) | forkStamp (np : Slot) | forkQueue (pid : Int)
  | forkQueued (pid : Int)
  | exitLock | exitBody | dead
  | waitLock | waitScan | waitBack
  | sleepLock (chan : Chan) | sleepBody (chan : Chan) | sleepBack
  -- `yield`, from a trap taken at `rest`
  | yieldLock (rest : Point F) | yieldBody (rest : Point F) | yieldBack (rest : Point F)
  | forkret
  deriving DecidableEq, Repr

/-- What a step does with `ptable.lock`. -/
inductive LockOp where
  | keep | take | drop | swtch
  deriving DecidableEq, Repr

/-- What a process asks of the kernel. -/
inductive Call (F : Type) where
  | enter (sec : Section F)
  | fork | exit | wait
  | sleep (chan : Chan)
  deriving DecidableEq, Repr

variable {F : Type}

/-- The thread holds `ptable.lock`. A thread that gave up its CPU holds it when it comes back. -/
def Point.holds : Point F → Bool
  | .inside _ | .forkScan | .forkRunnable _ | .forkQueued _ | .exitBody | .dead | .waitScan
  | .waitBack | .sleepBody _ | .sleepBack | .yieldBody _ | .yieldBack _ | .forkret => true
  | _ => false

/-- Interrupts are on: no lock is held, and the thread is not in a trap already. -/
def Point.preemptible : Point F → Bool
  | .yieldLock _ => false
  | p => !p.holds

/-- The calls a process may make: `exit` panics for `initproc`, and `aging` is the timer's. -/
def Call.allowed (me : Slot) : Call F → Bool
  | .exit => me ≠ initproc
  | .enter .aging => false
  | _ => true

/-- The first step of a call. `change_queue` refuses `UNSET` before it takes the lock. -/
def Call.entry : Call F → Point F
  | .enter (.changeQueue pid newQueue) =>
    if newQueue = UNSET then .user else .lock (.changeQueue pid newQueue)
  | .enter sec => .lock sec
  | .fork => .forkAlloc
  | .exit => .exitLock
  | .wait => .waitLock
  | .sleep chan => .sleepLock chan

/-- What interrupt handlers do to the table. -/
inductive Duty where
  | wakeup (chan : Chan)
  | aging
  deriving DecidableEq, Repr

def Duty.work : Duty → Section F
  | .wakeup chan => .wakeup chan
  | .aging => .aging

/-- A thread goes on with the call it is in. -/
def Point.step (d : Ptable F) (me : Slot) : Point F → Option (LockOp × Point F × Body F)
  | .user => none
  | .lock sec => some (.take, .inside sec, .skip)
  | .inside sec => some (.drop, .user, .enter sec)
  | .forkAlloc => some (.take, .forkScan, .skip)
  | .forkScan =>
    match unusedSlot d with
    | none => some (.drop, .user, .skip)
    | some np => some (.drop, .forkKalloc np, .alloc np)
  | .forkKalloc np => some (.keep, .forkCopy np, .fresh np)
  | .forkCopy np => some (.keep, .forkReady np, .adopt np me)
  | .forkReady np => some (.take, .forkRunnable np, .skip)
  | .forkRunnable np => some (.drop, .forkStamp np, .ready np me)
  | .forkStamp np =>
    some (.keep, if 0 < (d.proc np).pid then .forkQueue (d.proc np).pid else .user, .stamp np)
  | .forkQueue pid => some (.take, .forkQueued pid, .skip)
  | .forkQueued pid => some (.drop, .user, .initQueue pid)
  | .exitLock => some (.take, .exitBody, .skip)
  | .exitBody => some (.swtch, .dead, .exit me)
  -- `panic("zombie exit")`
  | .dead => none
  | .waitLock => some (.take, .waitScan, .skip)
  | .waitScan =>
    match zombieChild d me with
    | some child => some (.drop, .user, .reap me child)
    | none =>
      if ¬ HasKids d me ∨ (d.proc me).killed then some (.drop, .user, .skip)
      else some (.swtch, .waitBack, .sleep me (.proc me))
  -- `sleep` was called with `ptable.lock` and returns with it
  | .waitBack => some (.keep, .waitScan, .tidy me)
  | .sleepLock chan => some (.take, .sleepBody chan, .skip)
  | .sleepBody chan => some (.swtch, .sleepBack, .sleep me chan)
  | .sleepBack => some (.drop, .user, .tidy me)
  | .yieldLock rest => some (.take, .yieldBody rest, .skip)
  | .yieldBody rest => some (.swtch, .yieldBack rest, .yield me)
  | .yieldBack rest => some (.drop, rest, .skip)
  | .forkret => some (.drop, .user, .skip)

/-! ## The machine -/

/-- Where a CPU is: between two rounds of `scheduler`, inside one with the lock, on the stack of
its process, or back from it. -/
inductive Ctx where
  | loop | pick | run | back
  deriving DecidableEq, Repr

/-- The interrupt handler a CPU is in. -/
inductive Irq where
  | none
  | lock (duty : Duty)
  | inside (duty : Duty)
  deriving DecidableEq, Repr

structure Control (C F : Type) where
  /-- The CPU that holds `ptable.lock`. -/
  lock : Option C
  /-- `c->proc` -/
  cur : C → Option Slot
  ctx : C → Ctx
  /-- `last_scheduled` -/
  last : C → Slot
  irq : C → Irq
  pc : Slot → Point F

structure State (C F : Type) where
  control : Control C F
  data : Ptable F

inductive Event (C F : Type) where
  | tick
  | interrupt (c : C) (duty : Duty)
  | call (c : C) (call : Call F)
  | fault (c : C)
  | preempt (c : C)
  | outOfMemory (c : C)
  | advance (c : C)
  deriving DecidableEq, Repr

variable {C : Type} [DecidableEq C]

namespace Control

def goto (k : Control C F) (i : Slot) (p : Point F) : Control C F :=
  { k with pc := update k.pc i p }

/-- The process whose thread CPU `c` is executing. -/
def thread (k : Control C F) (c : C) : Option Slot :=
  match k.irq c, k.ctx c with
  | .none, .run => k.cur c
  | _, _ => none

/-- The context of CPU `c`, its handler aside, is inside a section of `ptable.lock`. -/
def base (k : Control C F) (c : C) : Bool :=
  match k.ctx c with
  | .loop => false
  | .pick | .back => true
  | .run =>
    match k.cur c with
    | none => false
    | some i => (k.pc i).holds

/-- CPU `c` is inside a section of `ptable.lock`. -/
def holds (k : Control C F) (c : C) : Bool :=
  match k.irq c with
  | .lock _ => false
  | .inside _ => true
  | .none => k.base c

def take (k : Control C F) (c : C) : Option (Control C F) :=
  if k.lock = none then some { k with lock := some c } else none

def drop (k : Control C F) (c : C) : Option (Control C F) :=
  if k.lock = some c then some { k with lock := none } else none

/-- `sched`: the CPU goes back to the scheduler's context, with the lock. -/
def swtch (k : Control C F) (c : C) : Option (Control C F) :=
  if k.lock = some c then some { k with ctx := update k.ctx c .back } else none

def does (k : Control C F) (c : C) : LockOp → Option (Control C F)
  | .keep => some k
  | .take => k.take c
  | .drop => k.drop c
  | .swtch => k.swtch c

/-- `allocproc` sets up a context that starts in `forkret`. -/
def starts (k : Control C F) : Body F → Control C F
  | .fresh np => k.goto np .forkret
  | _ => k

/-- The thread `me` on CPU `c` goes on to `p`. -/
def turn (k : Control C F) (c : C) (me : Slot) (op : LockOp) (p : Point F) (b : Body F) :
    Option (Control C F) :=
  (k.does c op).map fun k => (k.goto me p).starts b

end Control

section System

variable [Add F] [Mul F] [IntCast F] [LT F] [DecidableLT F]

/-- CPU `c` goes on: with its handler, in the scheduler, or with its process. -/
def advance (k : Control C F) (d : Ptable F) (c : C) : Option (Control C F × Body F) :=
  match k.irq c with
  | .lock duty =>
    (k.take c).map fun k => ({ k with irq := update k.irq c (.inside duty) }, .skip)
  | .inside duty =>
    (k.drop c).map fun k => ({ k with irq := update k.irq c .none }, .enter duty.work)
  | .none =>
    match k.ctx c with
    | .loop => (k.take c).map fun k => ({ k with ctx := update k.ctx c .pick }, .skip)
    | .pick =>
      match select d.proc (k.last c) with
      | (none, last) =>
        (k.drop c).map fun k =>
          ({ k with ctx := update k.ctx c .loop
                    last := update k.last c last }, .skip)
      | (some p, last) =>
        some ({ k with
          cur := update k.cur c (some p)
          ctx := update k.ctx c .run
          last := update k.last c last }, .dispatch p)
    | .back =>
      (k.drop c).map fun k =>
        ({ k with cur := update k.cur c none
                  ctx := update k.ctx c .loop }, .skip)
    | .run =>
      (k.cur c).bind fun me =>
        ((k.pc me).step d me).bind fun (op, p, b) =>
          (k.turn c me op p b).map fun k => (k, b)

/-- What an event does: where control goes and what is stored. -/
def move (k : Control C F) (d : Ptable F) : Event C F → Option (Control C F × Body F)
  | .tick => some (k, .tick)
  | .interrupt c duty =>
    match k.irq c with
    | .none =>
      if k.holds c = false then
        some ({ k with irq := update k.irq c (.lock duty) }, .skip)
      else
        none
    | _ => none
  | .call c call =>
    (k.thread c).bind fun me =>
      match k.pc me with
      | .user => if call.allowed me then some (k.goto me call.entry, .skip) else none
      | _ => none
  | .fault c =>
    (k.thread c).bind fun me =>
      match k.pc me with
      | .user => some (k, .fault me)
      | _ => none
  | .preempt c =>
    (k.thread c).bind fun me =>
      if (k.pc me).preemptible then some (k.goto me (.yieldLock (k.pc me)), .skip) else none
  | .outOfMemory c =>
    (k.thread c).bind fun me =>
      match k.pc me with
      | .forkKalloc np => some (k.goto me .user, .abandon np)
      | .forkCopy np => some (k.goto me .user, .abandon np)
      | _ => none
  | .advance c => advance k d c

variable [Zero F] [One F]

def next (tenth : F) (s : State C F) (e : Event C F) : Option (State C F) :=
  (move s.control s.data e).bind fun (k, b) => (b.run tenth s.data).map fun d => ⟨k, d⟩

/-- The table `userinit` leaves behind. -/
def booted : Ptable F where
  proc i :=
    if i = initproc then
      ⟨.RUNNABLE, 1, none, false, 0, { freshSched with queue := ROUND_ROBIN }⟩
    else
      ⟨.UNUSED, 0, none, false, 0, ⟨UNSET, ⟨0, 0, 0, 0, 0, 0, 0, 0⟩, 0⟩⟩
  parent _ := none
  nextpid := 2
  ticks := 0
  born := 0
  log := []

/-- After `userinit`, every CPU is somewhere in its scheduler loop, or in a handler that interrupted
it there. -/
structure Start (s : State C F) : Prop where
  data : s.data = booted
  cur : ∀ c, s.control.cur c = none
  ctx : ∀ c, s.control.ctx c = .loop ∨ s.control.ctx c = .pick
  lock : ∀ c, s.control.lock = some c ↔ s.control.holds c = true
  irq : ∀ c, s.control.irq c ≠ .none → s.control.ctx c = .loop
  init : s.control.pc initproc = .forkret
  others : ∀ i, i ≠ initproc → s.control.pc i = .dead

def system (C : Type) [DecidableEq C] (tenth : F) : System (State C F) (Event C F) where
  start := Start
  next := next tenth

end System

/-! ## Everything a step can do -/

/-- Everything the thread `me` can do, point by point. -/
inductive Turn (d : Ptable F) (me : Slot) : Point F → LockOp → Point F → Body F → Prop where
  | call (call : Call F) (allowed : call.allowed me = true) :
      Turn d me .user .keep call.entry .skip
  | fault : Turn d me .user .keep .user (.fault me)
  | preempt (p : Point F) (preemptible : p.preemptible = true) :
      Turn d me p .keep (.yieldLock p) .skip
  | lock (sec : Section F) : Turn d me (.lock sec) .take (.inside sec) .skip
  | inside (sec : Section F) : Turn d me (.inside sec) .drop .user (.enter sec)
  | forkAlloc : Turn d me .forkAlloc .take .forkScan .skip
  | forkFull (full : unusedSlot d = none) : Turn d me .forkScan .drop .user .skip
  | forkScan (np : Slot) (found : unusedSlot d = some np) :
      Turn d me .forkScan .drop (.forkKalloc np) (.alloc np)
  | noStack (np : Slot) : Turn d me (.forkKalloc np) .keep .user (.abandon np)
  | forkKalloc (np : Slot) : Turn d me (.forkKalloc np) .keep (.forkCopy np) (.fresh np)
  | noMemory (np : Slot) : Turn d me (.forkCopy np) .keep .user (.abandon np)
  | forkCopy (np : Slot) : Turn d me (.forkCopy np) .keep (.forkReady np) (.adopt np me)
  | forkReady (np : Slot) : Turn d me (.forkReady np) .take (.forkRunnable np) .skip
  | forkRunnable (np : Slot) : Turn d me (.forkRunnable np) .drop (.forkStamp np) (.ready np me)
  | forkStamp (np : Slot) (positive : 0 < (d.proc np).pid) :
      Turn d me (.forkStamp np) .keep (.forkQueue (d.proc np).pid) (.stamp np)
  | forkStray (np : Slot) (negative : ¬ 0 < (d.proc np).pid) :
      Turn d me (.forkStamp np) .keep .user (.stamp np)
  | forkQueue (pid : Int) : Turn d me (.forkQueue pid) .take (.forkQueued pid) .skip
  | forkQueued (pid : Int) : Turn d me (.forkQueued pid) .drop .user (.initQueue pid)
  | exitLock : Turn d me .exitLock .take .exitBody .skip
  | exitBody : Turn d me .exitBody .swtch .dead (.exit me)
  | waitLock : Turn d me .waitLock .take .waitScan .skip
  | waitReap (child : Slot) (found : zombieChild d me = some child) :
      Turn d me .waitScan .drop .user (.reap me child)
  | waitEnd (missing : zombieChild d me = none) : Turn d me .waitScan .drop .user .skip
  | waitSleep (missing : zombieChild d me = none) :
      Turn d me .waitScan .swtch .waitBack (.sleep me (.proc me))
  | waitBack : Turn d me .waitBack .keep .waitScan (.tidy me)
  | sleepLock (chan : Chan) : Turn d me (.sleepLock chan) .take (.sleepBody chan) .skip
  | sleepBody (chan : Chan) : Turn d me (.sleepBody chan) .swtch .sleepBack (.sleep me chan)
  | sleepBack : Turn d me .sleepBack .drop .user (.tidy me)
  | yieldLock (rest : Point F) : Turn d me (.yieldLock rest) .take (.yieldBody rest) .skip
  | yieldBody (rest : Point F) : Turn d me (.yieldBody rest) .swtch (.yieldBack rest) (.yield me)
  | yieldBack (rest : Point F) : Turn d me (.yieldBack rest) .drop rest .skip
  | forkret : Turn d me .forkret .drop .user .skip

/-- Everything the machine can do. -/
inductive Moves (k : Control C F) (d : Ptable F) : Control C F → Body F → Prop where
  | tick : Moves k d k .tick
  | interrupt (c : C) (duty : Duty) (idle : k.irq c = .none) (free : k.holds c = false) :
      Moves k d { k with irq := update k.irq c (.lock duty) } .skip
  | irqLock (c : C) (duty : Duty) (here : k.irq c = .lock duty) (free : k.lock = none) :
      Moves k d { k with lock := some c, irq := update k.irq c (.inside duty) } .skip
  | irqDone (c : C) (duty : Duty) (here : k.irq c = .inside duty) (held : k.lock = some c) :
      Moves k d { k with lock := none, irq := update k.irq c .none } (.enter duty.work)
  | schedLock (c : C) (idle : k.irq c = .none) (here : k.ctx c = .loop) (free : k.lock = none) :
      Moves k d { k with lock := some c, ctx := update k.ctx c .pick } .skip
  | schedIdle (c : C) (last : Slot) (idle : k.irq c = .none) (here : k.ctx c = .pick)
      (held : k.lock = some c) :
      Moves k d { k with
        lock := none
        ctx := update k.ctx c .loop
        last := update k.last c last } .skip
  | dispatch (c : C) (p last : Slot) (idle : k.irq c = .none) (here : k.ctx c = .pick)
      (pickable : Pickable (d.proc p)) :
      Moves k d { k with
        cur := update k.cur c (some p)
        ctx := update k.ctx c .run
        last := update k.last c last } (.dispatch p)
  | schedBack (c : C) (idle : k.irq c = .none) (here : k.ctx c = .back) (held : k.lock = some c) :
      Moves k d { k with
        lock := none
        cur := update k.cur c none
        ctx := update k.ctx c .loop } .skip
  | thread (c : C) (me : Slot) (running : k.thread c = some me) {op : LockOp} {p : Point F}
      {b : Body F} (turn : Turn d me (k.pc me) op p b) {k' : Control C F}
      (turned : k.turn c me op p b = some k') : Moves k d k' b

/-- How an event reaches the thread `i`, which is on CPU `c` and at `p`. -/
inductive Acts (d : Ptable F) (c : C) (i : Slot) (p : Point F) :
    Event C F → LockOp → Point F → Body F → Prop where
  | call (call : Call F) (here : p = .user) (allowed : call.allowed i = true) :
      Acts d c i p (.call c call) .keep call.entry .skip
  | preempt (preemptible : p.preemptible = true) :
      Acts d c i p (.preempt c) .keep (.yieldLock p) .skip
  | abandon (np : Slot) (here : p = .forkKalloc np ∨ p = .forkCopy np) :
      Acts d c i p (.outOfMemory c) .keep .user (.abandon np)
  | step {op : LockOp} {q : Point F} {b : Body F} (stepped : p.step d i = some (op, q, b)) :
      Acts d c i p (.advance c) op q b

section Inversion

variable {k k' : Control C F} {d : Ptable F} {b : Body F} {c : C} {me : Slot}

theorem Turn.of_step {p q : Point F} {op : LockOp} (stepped : p.step d me = some (op, q, b)) :
    Turn d me p op q b := by
  cases p with
  | forkScan =>
    simp only [Point.step] at stepped
    split at stepped
    next full =>
      cases stepped
      exact .forkFull full
    next np found =>
      cases stepped
      exact .forkScan np found
  | forkStamp np =>
    cases stepped
    by_cases positive : 0 < (d.proc np).pid
    · rw [if_pos positive]
      exact .forkStamp np positive
    · rw [if_neg positive]
      exact .forkStray np positive
  | waitScan =>
    simp only [Point.step] at stepped
    split at stepped
    next child found =>
      cases stepped
      exact .waitReap child found
    next missing =>
      split at stepped
      · cases stepped
        exact .waitEnd missing
      · cases stepped
        exact .waitSleep missing
  | _ =>
    cases stepped <;> constructor

omit [DecidableEq C] in
theorem Acts.turn {e : Event C F} {p q : Point F} {op : LockOp} (acts : Acts d c me p e op q b) :
    Turn d me p op q b := by
  cases acts with
  | call call here allowed =>
    rw [here]
    exact .call call allowed
  | preempt preemptible => exact .preempt p preemptible
  | abandon np here =>
    rcases here with rfl | rfl
    · exact .noStack np
    · exact .noMemory np
  | step stepped => exact .of_step stepped

omit [DecidableEq C] in
theorem Control.thread_eq_some (running : k.thread c = some me) :
    k.irq c = .none ∧ k.ctx c = .run ∧ k.cur c = some me := by
  unfold Control.thread at running
  split at running
  next idle inside => exact ⟨idle, inside, running⟩
  next => cases running

omit [DecidableEq C] in
theorem Control.take_eq_some (took : k.take c = some k') :
    k.lock = none ∧ k' = { k with lock := some c } := by
  unfold Control.take at took
  split at took
  next free => exact ⟨free, (some.inj took).symm⟩
  next => cases took

theorem Control.drop_eq_some (dropped : k.drop c = some k') :
    k.lock = some c ∧ k' = { k with lock := none } := by
  unfold Control.drop at dropped
  split at dropped
  next held => exact ⟨held, (some.inj dropped).symm⟩
  next => cases dropped

variable [Add F] [Mul F] [IntCast F] [LT F] [DecidableLT F]

/-- The CPU that goes on leaves every thread where it is, or its thread does something. Outside its
thread it stores to its own `last_scheduled`, and only when it chooses. -/
theorem advance_cases (moved : advance k d c = some (k', b)) :
    (Moves k d k' b ∧ k'.pc = k.pc ∧ k'.last = if k.irq c = .none ∧ k.ctx c = .pick then
        update k.last c (select d.proc (k.last c)).2 else k.last) ∨
      ∃ me op q, k.thread c = some me ∧ Acts d c me (k.pc me) (.advance c) op q b ∧
        k.turn c me op q b = some k' := by
  unfold advance at moved
  cases irq : k.irq c with
  | lock duty =>
    simp only [irq, map_eq_some_iff, Prod.mk.injEq] at moved
    obtain ⟨k₁, took, rfl, rfl⟩ := moved
    obtain ⟨free, rfl⟩ := Control.take_eq_some took
    exact .inl ⟨.irqLock c duty irq free, rfl, by simp⟩
  | inside duty =>
    simp only [irq, map_eq_some_iff, Prod.mk.injEq] at moved
    obtain ⟨k₁, dropped, rfl, rfl⟩ := moved
    obtain ⟨held, rfl⟩ := Control.drop_eq_some dropped
    exact .inl ⟨.irqDone c duty irq held, rfl, by simp⟩
  | none =>
    cases ctx : k.ctx c with
    | loop =>
      simp only [irq, ctx, map_eq_some_iff, Prod.mk.injEq] at moved
      obtain ⟨k₁, took, rfl, rfl⟩ := moved
      obtain ⟨free, rfl⟩ := Control.take_eq_some took
      exact .inl ⟨.schedLock c irq ctx free, rfl, by simp⟩
    | pick =>
      simp only [irq, ctx] at moved
      cases chosen : select d.proc (k.last c) with
      | mk found last =>
        rw [chosen] at moved
        cases found with
        | none =>
          simp only [map_eq_some_iff, Prod.mk.injEq] at moved
          obtain ⟨k₁, dropped, rfl, rfl⟩ := moved
          obtain ⟨held, rfl⟩ := Control.drop_eq_some dropped
          exact .inl ⟨.schedIdle c last irq ctx held, rfl, by simp⟩
        | some p =>
          cases moved
          exact .inl ⟨.dispatch c p last irq ctx (select_pickable (congrArg Prod.fst chosen)), rfl,
            by simp⟩
    | back =>
      simp only [irq, ctx, map_eq_some_iff, Prod.mk.injEq] at moved
      obtain ⟨k₁, dropped, rfl, rfl⟩ := moved
      obtain ⟨held, rfl⟩ := Control.drop_eq_some dropped
      exact .inl ⟨.schedBack c irq ctx held, rfl, by simp⟩
    | run =>
      simp only [irq, ctx, bind_eq_some_iff, map_eq_some_iff] at moved
      obtain ⟨me, cur, ⟨op, p, b'⟩, stepped, k₁, turned, same⟩ := moved
      cases same
      exact .inr ⟨me, op, p, by simp [Control.thread, irq, ctx, cur], .step stepped, turned⟩

/-- An event leaves every thread where it is, or it is that of one thread. -/
theorem move_cases {e : Event C F} (moved : move k d e = some (k', b)) :
    (Moves k d k' b ∧ k'.pc = k.pc ∧ ((∀ c, e ≠ .advance c) → k'.last = k.last)) ∨
      ∃ c me op q, k.thread c = some me ∧ Acts d c me (k.pc me) e op q b ∧
        k.turn c me op q b = some k' := by
  cases e with
  | tick =>
    cases moved
    exact .inl ⟨.tick, rfl, fun _ => rfl⟩
  | interrupt c duty =>
    simp only [move] at moved
    split at moved
    next idle =>
      split at moved
      next enabled =>
        cases moved
        exact .inl ⟨.interrupt c duty idle enabled, rfl, fun _ => rfl⟩
      next => cases moved
    next => cases moved
  | call c call =>
    simp only [move, bind_eq_some_iff] at moved
    obtain ⟨me, running, moved⟩ := moved
    split at moved
    next here =>
      split at moved
      next allowed =>
        cases moved
        exact .inr ⟨c, me, _, _, running, .call call here allowed, rfl⟩
      next => cases moved
    next => cases moved
  | fault c =>
    simp only [move, bind_eq_some_iff] at moved
    obtain ⟨me, running, moved⟩ := moved
    split at moved
    next here =>
      cases moved
      have turn : Turn d me (k.pc me) .keep .user (.fault me) := by
        rw [here]
        exact .fault
      refine .inl ⟨.thread c me running turn ?_, rfl, fun _ => rfl⟩
      simp [Control.turn, Control.does, Control.starts, Control.goto, ← here]
    next => cases moved
  | preempt c =>
    simp only [move, bind_eq_some_iff] at moved
    obtain ⟨me, running, moved⟩ := moved
    split at moved
    next enabled =>
      cases moved
      exact .inr ⟨c, me, _, _, running, .preempt enabled, rfl⟩
    next => cases moved
  | outOfMemory c =>
    simp only [move, bind_eq_some_iff] at moved
    obtain ⟨me, running, moved⟩ := moved
    split at moved
    next np here =>
      cases moved
      exact .inr ⟨c, me, _, _, running, .abandon np (.inl here), rfl⟩
    next np here =>
      cases moved
      exact .inr ⟨c, me, _, _, running, .abandon np (.inr here), rfl⟩
    next => cases moved
  | advance c =>
    rcases advance_cases moved with ⟨moves, pc, -⟩ | own
    · exact .inl ⟨moves, pc, fun other => absurd rfl (other c)⟩
    · exact .inr ⟨c, own⟩

theorem moves_of_move {e : Event C F} (moved : move k d e = some (k', b)) : Moves k d k' b := by
  rcases move_cases moved with ⟨moves, -⟩ | ⟨c, me, op, q, running, acts, turned⟩
  · exact moves
  · exact .thread c me running acts.turn turned

variable [Zero F] [One F]

/-- **Every step of the machine is one of its moves, with the store that belongs to it.** -/
theorem next_eq_some {tenth : F} {s s' : State C F} {e : Event C F}
    (stepped : next tenth s e = some s') :
    ∃ b, move s.control s.data e = some (s'.control, b) ∧ b.run tenth s.data = some s'.data := by
  simp only [next, bind_eq_some_iff, map_eq_some_iff] at stepped
  obtain ⟨⟨k, b⟩, moved, d, ran, rfl⟩ := stepped
  exact ⟨b, moved, ran⟩

end Inversion

end Xv6.Procs
