/-
# Xv6.Sched.LockOrder -- tickslock and ptable.lock across CPUs

Every CPU has a program counter between the lock operations of the call it is in. The timer takes
`tickslock` and then `ptable.lock` (in `aging` and in `wakeup`), and so does `sys_sleep`. A
`change_queue` that finds its pid nests the other way round. The two orders deadlock as soon as
the two sections overlap; kept apart, no chain of CPUs waiting for each other ever closes.

Which runnable process a scheduler picks is left open, and so is whether `fork` runs out of memory:
both are events. A CPU whose `pc` is `idle` is in user mode when it has a process and between two
rounds of the scheduler loop when it has none.
-/
import Xv6.Sched.Aging
import Xv6.Lib.Transition
import Xv6.Lib.LockOrder

namespace Xv6.Sched.Smp
open Lib Option Function
set_option autoImplicit false

variable {F : Type}

/-- Where a CPU is. A name says what the CPU is about to do. -/
inductive Pc where
  | idle
  -- the timer case of `trap`, on CPU 0
  | tick | age | aged | wake | woken | tickEnd
  -- `change_queue(pid, queue)`
  | chq (pid queue : Int) | chqScan (pid queue : Int)
  | chqStamp (i : Fin NPROC) | chqStamped (i : Fin NPROC) | chqEnd
  -- `fork`, with `allocproc` and `init_queue`
  | forkAlloc | forkScan | forkCopy (i : Fin NPROC)
  | forkReady (i : Fin NPROC) | forkRunnable (i : Fin NPROC)
  | forkTicks (i : Fin NPROC) | forkStamp (i : Fin NPROC)
  | forkQueue (pid : Int) | forkQueued (pid : Int)
  -- `sys_sleep`, with `sleep` and the way back from `sched`
  | sleepStart (n : BitVec 32) | sleepTest (n ticks0 : BitVec 32) | sleepEnd
  | sleepLock (n ticks0 : BitVec 32) | sleepSwap (n ticks0 : BitVec 32)
  | sleepSched (n ticks0 : BitVec 32) | sleepBack (n ticks0 : BitVec 32)
  | sleepRelock (n ticks0 : BitVec 32)
  -- `yield`, and the scheduler
  | yield | yieldSched | resumed
  | schedLock | schedPick | schedBack
  deriving DecidableEq, Repr

/-- The lock a CPU is spinning for, or is about to. -/
def Pc.wants : Pc → Option LockName
  | .tick | .chqStamp _ | .forkTicks _ | .sleepStart _ | .sleepRelock _ _ => some .tickslock
  | .age | .wake | .chq _ _ | .forkAlloc | .forkReady _ | .forkQueue _ | .sleepLock _ _ | .yield
  | .schedLock => some .ptable
  | _ => none

/-- The locks a CPU holds. -/
def Pc.holds : Pc → LockName → Bool
  | .age, .tickslock | .wake, .tickslock | .tickEnd, .tickslock => true
  | .aged, _ | .woken, _ | .chqStamped _, _ | .sleepSwap _ _, _ => true
  | .chqScan _ _, .ptable | .chqStamp _, .ptable | .chqEnd, .ptable => true
  | .forkScan, .ptable | .forkRunnable _, .ptable | .forkQueued _, .ptable => true
  | .forkStamp _, .tickslock => true
  | .sleepTest _ _, .tickslock | .sleepEnd, .tickslock | .sleepLock _ _, .tickslock => true
  | .sleepSched _ _, .ptable | .sleepBack _ _, .ptable => true
  | .yieldSched, .ptable | .resumed, .ptable | .schedPick, .ptable | .schedBack, .ptable => true
  | _, _ => false

/-- Inside the `tickslock` section of a timer tick or of `sys_sleep`, which nest `ptable.lock`. -/
def Pc.nesting : Pc → Bool
  | .age | .aged | .wake | .woken | .tickEnd => true
  | .sleepTest _ _ | .sleepEnd | .sleepLock _ _ | .sleepSwap _ _ => true
  | _ => false

/-- Before the first `acquire` of such a section. -/
def Pc.entering : Pc → Bool
  | .tick | .sleepStart _ | .sleepRelock _ _ => true
  | _ => false

/-- In `change_queue`, holding `ptable.lock` and spinning for `tickslock`. -/
def Pc.stamping : Pc → Bool
  | .chqStamp _ => true
  | _ => false

def Pc.scanning : Pc → Bool
  | .chqScan _ _ => true
  | _ => false

structure State (F : Type) where
  locks : LockName → Spinlock
  ticks : BitVec 32
  table : Table F
  nextpid : Int
  pc : CpuId → Pc
  /-- `c->proc` -/
  cur : CpuId → Option (Fin NPROC)
  /-- The arguments of the `sys_sleep` a process has given its CPU up in. -/
  saved : Fin NPROC → Option (BitVec 32 × BitVec 32)

/-- What a process asks of the kernel. -/
inductive Call where
  | changeQueue (pid queue : Int)
  | fork
  | sleep (n : BitVec 32)
  | yield
  deriving DecidableEq, Repr

inductive Event where
  | timer
  | call (c : CpuId) (call : Call)
  | advance (c : CpuId)
  | outOfMemory (c : CpuId)
  | dispatch (c : CpuId) (i : Fin NPROC)
  deriving DecidableEq, Repr

namespace State

def goto (s : State F) (c : CpuId) (pc : Pc) : State F :=
  { s with pc := update s.pc c pc }

def setProc (s : State F) (i : Fin NPROC) (p : Proc F) : State F :=
  { s with table := s.table.set i p }

def setSched (s : State F) (i : Fin NPROC) (sched : SchedParams F) : State F :=
  s.setProc i { s.table i with sched := sched }

/-- One pass through `acquire`: a CPU that spins stays where it is, and a panic stops the
machine. -/
def take (s : State F) (c : CpuId) (l : LockName) (pc : Pc) : Option (State F) :=
  match attempt c (s.locks l) with
  | .panics => none
  | .spins => some s
  | .takes => some ({ s with locks := update s.locks l (takenBy c) }.goto c pc)

def drop (s : State F) (c : CpuId) (l : LockName) (pc : Pc) : Option (State F) :=
  if (s.locks l).heldBy c then
    some ({ s with locks := update s.locks l initlock }.goto c pc)
  else
    none

end State

section Step

variable [Zero F] [One F]

/-- The scheduling fields `allocproc` leaves behind. -/
def freshSched : SchedParams F where
  queue := UNSET
  bjf := ⟨NORMAL, 0, 0, 0, 1, 1, 1, 1⟩
  lastExec := 0

/-- `sizeof(np)`: the size of a pointer. -/
def sizeofPointer : Int := 4

/-- `fork`'s stamp: the three clock fields, and `process_size` after the lock is dropped. -/
def stampFork (now : BitVec 32) (p : Proc F) : Proc F :=
  { p with
    ctime := now
    sched := { p.sched with
      lastExec := now
      bjf := { p.sched.bjf with arrivalTime := now, processSize := sizeofPointer } } }

/-- The scheduler runs `p`: `tenth` is the constant `0.1f`. -/
def dispatched [Add F] (tenth : F) (now : BitVec 32) (p : Proc F) : Proc F :=
  { p with
    state := .RUNNING
    sched := { p.sched with
      lastExec := now
      bjf := { p.sched.bjf with executedCycle := p.sched.bjf.executedCycle + tenth } } }

/-- Some queue of the scheduler would pick this process. -/
def Pickable (p : Proc F) : Prop :=
  p.state = .RUNNABLE ∧
    (p.sched.queue = ROUND_ROBIN ∨ p.sched.queue = LCFS ∨ p.sched.queue = BJF)
deriving Decidable

/-- CPU `c` goes on with the call it is in. -/
def advance (s : State F) (c : CpuId) : Option (State F) :=
  match s.pc c with
  | .idle => if s.cur c = none then some (s.goto c .schedLock) else none
  | .tick => (s.take c .tickslock .age).map fun s' =>
    if s'.pc c = .age then { s' with ticks := s'.ticks + 1 } else s'
  | .age => s.take c .ptable .aged
  -- an aged process sends `aging` into `change_queue`, which panics
  | .aged => if ∃ i, Aged s.ticks (s.table i) then none else s.drop c .ptable .wake
  | .wake => s.take c .ptable .woken
  | .woken => { s with table := wakeup1 s.table .ticks }.drop c .ptable .tickEnd
  | .tickEnd => s.drop c .tickslock .idle
  | .chq pid queue => s.take c .ptable (.chqScan pid queue)
  | .chqScan pid queue =>
    match findPid s.table pid with
    | none => some (s.goto c .chqEnd)
    | some i =>
      some ((s.setSched i { (s.table i).sched with queue := queue }).goto c (.chqStamp i))
  | .chqStamp i => s.take c .tickslock (.chqStamped i)
  | .chqStamped i =>
    (s.setSched i { (s.table i).sched with lastExec := s.ticks }).drop c .tickslock .chqEnd
  | .chqEnd => s.drop c .ptable .idle
  | .forkAlloc => s.take c .ptable .forkScan
  | .forkScan =>
    match (List.finRange NPROC).find? fun i => decide ((s.table i).state = .UNUSED) with
    | none => s.drop c .ptable .idle
    | some i =>
      ({ s with nextpid := s.nextpid + 1 }.setProc i
        { s.table i with state := .EMBRYO, pid := s.nextpid }).drop c .ptable (.forkCopy i)
  | .forkCopy i => some ((s.setSched i freshSched).goto c (.forkReady i))
  | .forkReady i => s.take c .ptable (.forkRunnable i)
  | .forkRunnable i =>
    (s.setProc i { s.table i with state := .RUNNABLE }).drop c .ptable (.forkTicks i)
  | .forkTicks i => s.take c .tickslock (.forkStamp i)
  | .forkStamp i =>
    (s.setProc i (stampFork s.ticks (s.table i))).drop c .tickslock
      (if 0 < (s.table i).pid then .forkQueue (s.table i).pid else .idle)
  | .forkQueue pid => s.take c .ptable (.forkQueued pid)
  | .forkQueued pid =>
    match findPid s.table pid with
    | none => s.drop c .ptable .idle
    | some i =>
      (s.setSched i { (s.table i).sched with queue := ROUND_ROBIN }).drop c .ptable .idle
  | .sleepStart n => s.take c .tickslock (.sleepTest n s.ticks)
  | .sleepTest n ticks0 =>
    (s.cur c).map fun p =>
      if s.ticks - ticks0 < n then
        s.goto c (if (s.table p).killed then .sleepEnd else .sleepLock n ticks0)
      else
        s.goto c .sleepEnd
  | .sleepEnd => s.drop c .tickslock .idle
  | .sleepLock n ticks0 => s.take c .ptable (.sleepSwap n ticks0)
  | .sleepSwap n ticks0 => s.drop c .tickslock (.sleepSched n ticks0)
  | .sleepSched n ticks0 =>
    (s.cur c).map fun p =>
      ({ s with saved := update s.saved p (some (n, ticks0)) }.setProc p
        { s.table p with chan := some .ticks, state := .SLEEPING }).goto c .schedBack
  | .sleepBack n ticks0 =>
    (s.cur c).bind fun p =>
      (s.setProc p { s.table p with chan := none }).drop c .ptable (.sleepRelock n ticks0)
  | .sleepRelock n ticks0 => s.take c .tickslock (.sleepTest n ticks0)
  | .yield => s.take c .ptable .yieldSched
  | .yieldSched =>
    (s.cur c).map fun p =>
      ({ s with saved := update s.saved p none }.setProc p
        { s.table p with state := .RUNNABLE }).goto c .schedBack
  -- the tail of `yield`, and `forkret`
  | .resumed => s.drop c .ptable .idle
  | .schedLock => s.take c .ptable .schedPick
  | .schedPick => if ∃ i, Pickable (s.table i) then none else s.drop c .ptable .idle
  | .schedBack => { s with cur := update s.cur c none }.drop c .ptable .idle

/-- The first step of a call. -/
def Call.entry : Call → Pc
  | .changeQueue pid queue => if queue = UNSET then .idle else .chq pid queue
  | .fork => .forkAlloc
  | .sleep n => .sleepStart n
  | .yield => .yield

def step [Add F] (tenth : F) (s : State F) : Event → Option (State F)
  | .timer => if s.pc 0 = .idle then some (s.goto 0 .tick) else none
  | .call c call =>
    if s.pc c = .idle ∧ (s.cur c).isSome then some (s.goto c call.entry) else none
  | .advance c => advance s c
  | .outOfMemory c =>
    match s.pc c with
    | .forkCopy i => some ((s.setProc i { s.table i with state := .UNUSED }).goto c .idle)
    | _ => none
  | .dispatch c i =>
    if s.pc c = .schedPick ∧ Pickable (s.table i) then
      some (({ s with cur := update s.cur c (some i) }.setProc i
        (dispatched tenth s.ticks (s.table i))).goto c
          (match s.saved i with
          | some (n, ticks0) => .sleepBack n ticks0
          | none => .resumed))
    else
      none

/-- Every CPU is idle and both locks are free; the process table is any table. -/
def Start (s : State F) : Prop :=
  (∀ l, s.locks l = initlock) ∧ ∀ c, s.pc c = .idle

def system [Add F] (tenth : F) : System (State F) Event where
  start := Start
  next := step tenth

end Step

/-! ## What a step does to the locks -/

/-- What CPU `c` may do to the locks in one step: nothing, take the free lock it wants, or drop a
lock it holds. Its program counter accounts for the change. -/
inductive Move (s s' : State F) (c : CpuId) : Prop where
  | keep (locks : s'.locks = s.locks) (holds : (s'.pc c).holds = (s.pc c).holds)
  | take (l : LockName) (free : (s.locks l).locked = false)
      (locks : s'.locks = update s.locks l (takenBy c))
      (holds : (s'.pc c).holds = update (s.pc c).holds l true)
  | drop (l : LockName) (held : (s.locks l).heldBy c = true)
      (locks : s'.locks = update s.locks l initlock)
      (holds : (s'.pc c).holds = update (s.pc c).holds l false)

/-- The nesting sections are entered through their own `acquire`, and `change_queue` nests only
after its scan. -/
def Pc.edge (old new : Pc) : Bool :=
  (!new.nesting || old.nesting || old.entering) && (!new.stamping || old.stamping || old.scanning)

theorem Pc.nesting_of_stamping {pc : Pc} (stamping : pc.stamping = true) : pc.nesting = false := by
  cases pc with
  | chqStamp i => rfl
  | _ => cases stamping

theorem Pc.eq_chqScan {pc : Pc} (scanning : pc.scanning = true) :
    ∃ pid queue, pc = .chqScan pid queue := by
  cases pc with
  | chqScan pid queue => exact ⟨pid, queue, rfl⟩
  | _ => cases scanning

theorem Pc.edge_self (pc : Pc) : pc.edge pc = true := by
  cases pc <;> rfl

/-- A step of CPU `c`: the other CPUs stay where they are. -/
structure Moves (s s' : State F) (c : CpuId) : Prop where
  others : ∀ d, d ≠ c → s'.pc d = s.pc d
  edge : (s.pc c).edge (s'.pc c) = true
  move : Move s s' c

section Moves

variable {s s' : State F} {c : CpuId} {l : LockName} {pc : Pc}

theorem moves_goto (locks : s'.locks = s.locks) (pcs : s'.pc = update s.pc c pc)
    (edge : (s.pc c).edge pc = true) (holds : pc.holds = (s.pc c).holds) : Moves s s' c := by
  refine ⟨fun d other => by simp [pcs, other], by simpa [pcs] using edge, .keep locks ?_⟩
  simpa [pcs] using holds

theorem State.take_eq_some (stepped : s.take c l pc = some s') :
    s' = s ∨ ((s.locks l).locked = false ∧
      s' = { s with locks := update s.locks l (takenBy c) }.goto c pc) := by
  unfold State.take attempt at stepped
  split at stepped
  · cases stepped
  · cases stepped
    exact .inl rfl
  · cases stepped
    rename_i took
    by_cases locked : (s.locks l).locked = true
    · split at took <;> cases took
    · exact .inr ⟨by simpa using locked, rfl⟩

theorem State.drop_eq_some (stepped : s.drop c l pc = some s') :
    (s.locks l).heldBy c = true ∧
      s' = { s with locks := update s.locks l initlock }.goto c pc := by
  unfold State.drop at stepped
  split at stepped
  · cases stepped
    exact ⟨‹_›, rfl⟩
  · cases stepped

theorem moves_take (stepped : s.take c l pc = some s') (edge : (s.pc c).edge pc = true)
    (holds : pc.holds = update (s.pc c).holds l true) : Moves s s' c := by
  rcases State.take_eq_some stepped with same | ⟨free, moved⟩
  · subst same
    exact ⟨fun _ _ => rfl, Pc.edge_self _, .keep rfl rfl⟩
  · subst moved
    refine ⟨fun d other => by simp [State.goto, other], by simpa [State.goto] using edge,
      .take l free rfl ?_⟩
    simpa [State.goto] using holds

/-- The table may have been updated in the same step, before the lock is dropped. -/
theorem moves_drop {t : State F} (stepped : t.drop c l pc = some s') (locks : t.locks = s.locks)
    (pcs : t.pc = s.pc) (edge : (s.pc c).edge pc = true)
    (holds : pc.holds = update (s.pc c).holds l false) : Moves s s' c := by
  obtain ⟨held, rfl⟩ := State.drop_eq_some stepped
  refine ⟨fun d other => by simp [State.goto, pcs, other], by simpa [State.goto] using edge,
    .drop l (locks ▸ held) (by simp [State.goto, locks]) ?_⟩
  simpa [State.goto] using holds

end Moves

section StepMoves

variable [Zero F] [One F] {s s' : State F} {c : CpuId}

theorem advance_moves (stepped : advance s c = some s') : Moves s s' c := by
  unfold advance at stepped
  cases here : s.pc c <;> simp only [here] at stepped
  case idle =>
      obtain ⟨-, ⟨⟩⟩ := ite_none_right_eq_some.mp stepped
      exact moves_goto rfl rfl (by rw [here]; rfl) (by rw [here]; funext l; cases l <;> rfl)
  case tick =>
      obtain ⟨mid, took, rest⟩ := map_eq_some_iff.mp stepped
      have moved : Moves s mid c :=
        moves_take took (by rw [here]; rfl) (by rw [here]; funext l; cases l <;> rfl)
      split at rest <;> subst rest
      · refine ⟨moved.others, moved.edge, ?_⟩
        cases moved.move with
        | keep locks holds => exact .keep locks holds
        | take l free locks holds => exact .take l free locks holds
        | drop l held locks holds => exact .drop l held locks holds
      · exact moved
  case aged | schedPick =>
      split at stepped
      · cases stepped
      · exact moves_drop stepped rfl rfl (by rw [here]; rfl)
          (by rw [here]; funext l; cases l <;> rfl)
  case chqScan pid queue =>
      split at stepped <;> cases stepped <;>
        exact moves_goto rfl rfl (by rw [here]; rfl) (by rw [here]; funext l; cases l <;> rfl)
  case forkCopy i =>
      cases stepped
      exact moves_goto rfl rfl (by rw [here]; rfl) (by rw [here]; funext l; cases l <;> rfl)
  case forkScan | forkQueued =>
      split at stepped <;>
        exact moves_drop stepped rfl rfl (by rw [here]; rfl)
          (by rw [here]; funext l; cases l <;> rfl)
  case forkStamp i =>
      refine moves_drop stepped rfl rfl ?_ ?_ <;> rw [here] <;> split
      · rfl
      · rfl
      · funext l; cases l <;> rfl
      · funext l; cases l <;> rfl
  case sleepTest n ticks0 =>
      obtain ⟨p, -, rest⟩ := map_eq_some_iff.mp stepped
      split at rest <;> subst rest
      · refine moves_goto rfl rfl ?_ ?_ <;> rw [here] <;> split
        · rfl
        · rfl
        · funext l; cases l <;> rfl
        · funext l; cases l <;> rfl
      · exact moves_goto rfl rfl (by rw [here]; rfl) (by rw [here]; funext l; cases l <;> rfl)
  case sleepSched | yieldSched =>
      obtain ⟨p, -, rfl⟩ := map_eq_some_iff.mp stepped
      exact moves_goto rfl rfl (by rw [here]; rfl) (by rw [here]; funext l; cases l <;> rfl)
  case sleepBack n ticks0 =>
      obtain ⟨p, -, dropped⟩ := bind_eq_some_iff.mp stepped
      exact moves_drop dropped rfl rfl (by rw [here]; rfl) (by rw [here]; funext l; cases l <;> rfl)
  case age | wake | chq | chqStamp | forkAlloc | forkReady | forkTicks | forkQueue | sleepStart |
      sleepLock | sleepRelock | yield | schedLock =>
      exact moves_take stepped (by rw [here]; rfl) (by rw [here]; funext l; cases l <;> rfl)
  case woken | tickEnd | chqStamped | chqEnd | forkRunnable | sleepEnd | sleepSwap | resumed |
      schedBack =>
      exact moves_drop stepped rfl rfl (by rw [here]; rfl) (by rw [here]; funext l; cases l <;> rfl)

/-- Every event moves one CPU, and only a CPU that goes on with its call enters a section. -/
theorem step_moves [Add F] {tenth : F} {e : Event} (stepped : step tenth s e = some s') :
    ∃ c, Moves s s' c ∧
      (e = .advance c ∨ ((s'.pc c).nesting = false ∧ (s'.pc c).stamping = false)) := by
  cases e with
  | timer =>
    obtain ⟨here, ⟨⟩⟩ := ite_none_right_eq_some.mp stepped
    exact ⟨0, moves_goto rfl rfl (by rw [here]; rfl)
      (by rw [here]; funext l; cases l <;> rfl), .inr (by simp [State.goto]; decide)⟩
  | call c call =>
    simp only [step] at stepped
    split at stepped
    · rename_i here
      cases stepped
      have quiet : call.entry.nesting = false ∧ call.entry.stamping = false ∧
          Pc.idle.edge call.entry = true ∧ call.entry.holds = Pc.idle.holds := by
        cases call <;> simp only [Call.entry] <;> (try split) <;>
          exact ⟨rfl, rfl, rfl, by funext l; cases l <;> rfl⟩
      exact ⟨c, moves_goto rfl rfl (by rw [here.1]; exact quiet.2.2.1)
        (by rw [here.1]; exact quiet.2.2.2), .inr (by simp [State.goto, quiet])⟩
    · cases stepped
  | advance c => exact ⟨c, advance_moves stepped, .inl rfl⟩
  | outOfMemory c =>
    simp only [step] at stepped
    split at stepped
    · rename_i here
      cases stepped
      exact ⟨c, moves_goto rfl rfl (by rw [here]; rfl)
        (by rw [here]; funext l; cases l <;> rfl), .inr (by simp [State.goto]; decide)⟩
    · cases stepped
  | dispatch c i =>
    obtain ⟨here, ⟨⟩⟩ := ite_none_right_eq_some.mp stepped
    refine ⟨c, moves_goto rfl rfl ?_ ?_, .inr ?_⟩
    · split <;> rfl
    · rw [here.1]
      split <;> (funext l; cases l <;> rfl)
    · simp only [State.goto, update_self]
      split <;> exact ⟨rfl, rfl⟩

end StepMoves

/-! ## Sections kept apart -/

/-- The program counters account for the locks: a CPU holds a lock exactly where its code does. -/
def Owned (s : State F) : Prop :=
  ∀ c l, (s.pc c).holds l = true ↔ s.locks l = takenBy c

variable {s : State F}

theorem Owned.moves {s' : State F} {c : CpuId} (owned : Owned s) (moves : Moves s s' c) :
    Owned s' := by
  intro d l
  cases moves.move with
  | keep locks holds =>
    rw [locks, ← owned d l]
    by_cases same : d = c
    · rw [same, holds]
    · rw [moves.others d same]
  | take m free locks holds =>
    by_cases same : d = c
    · rw [same, holds, locks]
      by_cases this : l = m
      · simp [this]
      · simpa [this] using owned c l
    · rw [moves.others d same, locks, owned d l]
      by_cases this : l = m
      · -- nobody held the lock before, and `c` holds it now
        subst this
        have unheld : s.locks l ≠ takenBy d := fun held => by simp [held, takenBy] at free
        have theirs : takenBy c ≠ takenBy d := fun held => same (takenBy_injective held).symm
        simp [unheld, theirs]
      · simp [this]
  | drop m held locks holds =>
    have mine : s.locks m = takenBy c := heldBy_iff.mp held
    have gone : ∀ e, initlock ≠ takenBy e := fun e => by simp [initlock, takenBy]
    by_cases same : d = c
    · rw [same, holds, locks]
      by_cases this : l = m
      · simp [this, gone]
      · simpa [this] using owned c l
    · rw [moves.others d same, locks, owned d l]
      by_cases this : l = m
      · subst this
        have theirs : takenBy c ≠ takenBy d := fun held => same (takenBy_injective held).symm
        simp [mine, theirs, gone]
      · simp [this]

/-- CPU `c` is about to find the process its `change_queue` looks for. -/
def State.finds (s : State F) (c : CpuId) : Bool :=
  match s.pc c with
  | .chqScan pid _ => (findPid s.table pid).isSome
  | _ => false

/-- The step does not make the two nesting orders overlap: `change_queue` finds a process only
while no CPU is inside the `tickslock` section of a tick or of `sys_sleep`, and such a section is
entered only while no `change_queue` is waiting for `tickslock`. -/
def Apart (s : State F) : Event → Prop
  | .advance c =>
    ((s.pc c).entering = true → ∀ d, (s.pc d).stamping = false) ∧
      (s.finds c = true → ∀ d, (s.pc d).nesting = false)
  | _ => True

instance (s : State F) : ∀ e, Decidable (Apart s e)
  | .advance _ => inferInstanceAs (Decidable (_ ∧ _))
  | .timer | .call _ _ | .outOfMemory _ | .dispatch _ _ => .isTrue trivial

/-- The invariant of runs that keep the sections apart. -/
structure Separated (s : State F) : Prop where
  owned : Owned s
  apart : ∀ c d, (s.pc c).stamping = true → (s.pc d).nesting = false

section Run

variable [Zero F] [One F] {s s' : State F} {e : Event}

/-- A CPU reaches the nested `acquire` of `change_queue` by finding its pid. -/
theorem finds_of_stamping {c : CpuId} (stepped : advance s c = some s')
    (scanning : (s.pc c).scanning = true) (stamps : (s'.pc c).stamping = true) :
    s.finds c = true := by
  obtain ⟨pid, queue, here⟩ := Pc.eq_chqScan scanning
  cases found : findPid s.table pid with
  | some i => simp [State.finds, here, found]
  | none =>
    simp only [advance, here, found, some.injEq] at stepped
    subst stepped
    simp [State.goto, Pc.stamping] at stamps

variable [Add F] {tenth : F}

theorem Separated.step (sep : Separated s) (admitted : Apart s e)
    (stepped : step tenth s e = some s') : Separated s' := by
  obtain ⟨c, moves, entered⟩ := step_moves stepped
  have edge := moves.edge
  simp only [Pc.edge, Bool.and_eq_true, Bool.or_eq_true, Bool.not_eq_true'] at edge
  obtain ⟨nests, stamps⟩ := edge
  refine ⟨sep.owned.moves moves, fun d f stamping => ?_⟩
  by_contra nesting
  rw [Bool.not_eq_false] at nesting
  have differ : d ≠ f := by
    intro same
    subst same
    rw [Pc.nesting_of_stamping stamping] at nesting
    cases nesting
  by_cases first : d = c
  · -- `c` is at the nested `acquire`; the other CPU was in its section before
    subst first
    have before : (s.pc f).nesting = true := by
      rw [← moves.others f (Ne.symm differ)]
      exact nesting
    rcases entered with rfl | ⟨-, not⟩
    · rcases stamps with (no | already) | scanning
      · rw [no] at stamping
        cases stamping
      · rw [sep.apart d f already] at before
        cases before
      · have finds := finds_of_stamping stepped scanning stamping
        rw [admitted.2 finds f] at before
        cases before
    · rw [not] at stamping
      cases stamping
  · have before : (s.pc d).stamping = true := by
      rw [← moves.others d first]
      exact stamping
    by_cases second : f = c
    · -- `c` is in its section; the other CPU was at the nested `acquire` before
      subst second
      rcases entered with rfl | ⟨not, -⟩
      · rcases nests with (no | already) | entering
        · rw [no] at nesting
          cases nesting
        · rw [sep.apart d f before] at already
          cases already
        · rw [admitted.1 entering d] at before
          cases before
      · rw [not] at nesting
        cases nesting
    · rw [moves.others f second, sep.apart d f before] at nesting
      cases nesting

theorem reach_separated (reached : (system tenth).Reach Apart s) : Separated s := by
  refine System.Reach.invariant ?_ (fun _ _ _ sep admitted stepped => sep.step admitted stepped)
    reached
  rintro s ⟨free, idle⟩
  refine ⟨fun c l => ?_, fun c d stamping => ?_⟩
  · have none : Pc.idle.holds l = false := by cases l <;> rfl
    rw [idle c, free l, none]
    simp [initlock, takenBy]
  · rw [idle c] at stamping
    cases stamping

end Run

/-! ## No circular wait -/

/-- Who holds what and who spins for what, as the machine sees it. -/
def locking (s : State F) : Locking CpuId LockName where
  holds c l := (s.locks l).heldBy c = true
  wants c := (s.pc c).wants

/-- Two CPUs each hold one of the two locks and spin for the other. -/
def Deadlock (s : State F) : Prop :=
  ∃ c d, c ≠ d ∧
    (s.locks .tickslock).heldBy c = true ∧ (s.pc c).wants = some .ptable ∧
    (s.locks .ptable).heldBy d = true ∧ (s.pc d).wants = some .tickslock

theorem Deadlock.circularWait (dead : Deadlock s) : ∃ c, (locking s).CircularWait c := by
  obtain ⟨c, d, -, ticks, wantsPtable, ptable, wantsTicks⟩ := dead
  exact ⟨c, Locking.circularWait_of_pair ⟨.ptable, wantsPtable, ptable⟩
    ⟨.tickslock, wantsTicks, ticks⟩⟩

/-- The order of the locks in a state: the one `change_queue` uses while one is nesting, and
otherwise that of the timer. -/
def rank (stamping : Prop) [Decidable stamping] : LockName → Nat
  | .tickslock => if stamping then 1 else 0
  | .ptable => if stamping then 0 else 1

theorem holds_wants {pc : Pc} {held wanted : LockName} (holds : pc.holds held = true)
    (wants : pc.wants = some wanted) :
    (held = .tickslock ∧ wanted = .ptable ∧ pc.nesting = true) ∨
      (held = .ptable ∧ wanted = .tickslock ∧ pc.stamping = true) := by
  -- only four places hold a lock and want another one
  cases pc
  case age | wake | sleepLock =>
      cases held <;> cases holds
      cases wants
      exact .inl ⟨rfl, rfl, rfl⟩
  case chqStamp i =>
      cases held <;> cases holds
      cases wants
      exact .inr ⟨rfl, rfl, rfl⟩
  all_goals first
    | (cases wants; done)
    | (cases held <;> cases holds)

theorem Separated.ordered (sep : Separated s) :
    (locking s).Ordered (rank (∃ c, (s.pc c).stamping = true)) := by
  intro c held wanted holds wants
  have here : (s.pc c).holds held = true := (sep.owned c held).mpr (heldBy_iff.mp holds)
  rcases holds_wants here wants with ⟨rfl, rfl, nesting⟩ | ⟨rfl, rfl, stamping⟩
  · have none : ¬ ∃ d, (s.pc d).stamping = true := by
      rintro ⟨d, stamping⟩
      rw [sep.apart d c stamping] at nesting
      cases nesting
    simp [rank, none]
  · have some : ∃ d, (s.pc d).stamping = true := ⟨c, stamping⟩
    simp [rank, some]

theorem Separated.no_circularWait (sep : Separated s) (c : CpuId) : ¬ (locking s).CircularWait c :=
  sep.ordered.not_circularWait c

/-- **Kept apart, the two orders never deadlock**, whatever else the CPUs do. -/
theorem no_deadlock_apart [Zero F] [One F] [Add F] {tenth : F} {s : State F}
    (reached : (system tenth).Reach Apart s) : ¬ Deadlock s := by
  intro dead
  obtain ⟨c, circular⟩ := dead.circularWait
  exact (reach_separated reached).no_circularWait c circular

/-! ## A tick meets a queue change -/

/-- Two processes run, on CPUs 0 and 1; the other two CPUs are in their scheduler. -/
def twoRunning : State Nat where
  locks := fun _ => initlock
  ticks := 0
  table := fun i =>
    if i = 0 then { waiting with state := .RUNNING, pid := 1 }
    else if i = 1 then { waiting with state := .RUNNING, pid := 2 }
    else unused
  nextpid := 3
  pc := fun _ => .idle
  cur := fun c => if c = 0 then some 0 else if c = 1 then some 1 else none
  saved := fun _ => none

theorem twoRunning_start : (system 1).start twoRunning := ⟨fun _ => rfl, fun _ => rfl⟩

/-- The tick has `tickslock` and goes for `ptable.lock`; the queue change has found pid 1 under
`ptable.lock` and goes for `tickslock`. -/
def tickMeetsChange : List Event :=
  [.timer, .advance 0, .call 1 (.changeQueue 1 LCFS), .advance 1, .advance 1]

def afterMeeting : State Nat := ((system 1).run twoRunning tickMeetsChange).getD twoRunning

theorem afterMeeting_deadlock : Deadlock afterMeeting :=
  ⟨0, 1, by decide, rfl, rfl, rfl, rfl⟩

theorem tick_and_change_deadlock : ∃ s, (system (1 : Nat)).Reachable s ∧ Deadlock s :=
  ⟨afterMeeting, System.reachable_of_run tickMeetsChange twoRunning_start rfl,
    afterMeeting_deadlock⟩

/-- The same two calls, one after the other; CPU 2 spins for its scheduler meanwhile. -/
def changeThenTick : List Event :=
  [.call 1 (.changeQueue 1 LCFS), .advance 1, .advance 2, .advance 1, .advance 1, .advance 1,
    .timer, .advance 0]

def afterTurn : State Nat := ((system 1).run twoRunning changeThenTick).getD twoRunning

theorem no_deadlock_afterTurn :
    afterTurn.pc 0 = .age ∧ afterTurn.pc 1 = .chqEnd ∧ ¬ Deadlock afterTurn := by
  have admitted : (system 1).Admits Apart twoRunning changeThenTick := by decide
  have reached : (system 1).Reach Apart afterTurn := .run (.start twoRunning_start) admitted rfl
  exact ⟨rfl, rfl, no_deadlock_apart reached⟩

end Xv6.Sched.Smp
