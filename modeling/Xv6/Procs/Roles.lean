/-
# Xv6.Procs.Roles -- sleepers and wakers that share a lock

A second spinlock `lk` guards a condition. Threads test the condition under `lk` and call
`sleep(chan, lk)` while it is false; whoever makes it true under `lk` calls `wakeup(chan)` before it
lets `lk` go. Everything else goes on around them: this is the whole machine of `Xv6.Procs.Machine`,
with what each thread, and each interrupt handler, is up to with `lk` beside it (`Role`).

* A holder of `lk` may make the condition true or false, wake any channel, kill, and sleep on other
  channels with `lk`, as `pipewrite` does. It does not give up its CPU otherwise: `pushcli` keeps
  interrupts off.
* Nobody sleeps on `chan` except with `lk` and after finding the condition false. Anybody may wake
  it, or kill its sleepers.
* A handler may hold `lk` and be a waker, as `ideintr` is, but does not sleep.
-/
import Xv6.Procs.Acts

namespace Xv6.Procs
open Lib Sched
set_option autoImplicit false

variable {C F : Type}

namespace Handover

/-- Who runs in the kernel: the thread of a process, or the interrupt handler of a CPU. -/
inductive Agent (C : Type) where
  | thread (i : Slot)
  | handler (c : C)
  deriving DecidableEq, Repr

/-- What an agent is up to with `lk`. -/
inductive Role where
  | away
  /-- Comes to `acquire(lk)`. -/
  | enter
  /-- Holds `lk`, and has a wakeup to do if it `owes` one. -/
  | inside (owes : Bool)
  -- in `sleep(chan, lk)`: before `acquire(&ptable.lock)`, before `release(lk)`, after it, and
  -- before the `acquire(lk)` at the end
  | commit (chan : Chan) | handing (chan : Chan) | asleep (chan : Chan) | relock
  deriving DecidableEq, Repr

def Role.holds : Role → Bool
  | .inside _ | .commit _ | .handing _ => true
  | _ => false

def Role.inSleep : Role → Bool
  | .commit _ | .handing _ | .asleep _ | .relock => true
  | _ => false

structure State (C F : Type) where
  base : Procs.State C F
  /-- The CPU that holds `lk`. -/
  lk : Option C
  cond : Bool
  role : Agent C → Role

/-- What an agent does with `lk` and the condition. -/
inductive Op where
  | acquire | set | clear | release
  deriving DecidableEq, Repr

inductive Event (C F : Type) where
  | base (e : Procs.Event C F)
  -- a thread, or the handler of an interrupt, comes to `acquire(lk)`
  | call (c : C)
  | trap (c : C)
  | op (c : C) (op : Op)
  /-- The test that fails, and the call. -/
  | sleep (c : C) (chan : Chan)
  /-- `release(lk)` in `sleep`. -/
  | handOver (c : C)
  deriving DecidableEq, Repr

variable [DecidableEq C]

/-- What the machine may do with a thread in this role: the calls it makes, no preemption while
`lk` is held, and `release(lk)` before `sched`. -/
def Role.allows (chan : Chan) : Role → Procs.Event C F → Bool
  | .away, .call _ (.sleep ch) => ch ≠ chan
  | .away, _ => true
  | .inside _, .call _ (.enter _) => true
  | .handing _, .advance _ => false
  | _, .advance _ => true
  | .enter, .preempt _ | .relock, .preempt _ => true
  | _, _ => false

/-- A thread's role after its point went from `p` to `q`. -/
def Role.follow (chan : Chan) (p q : Point F) : Role → Role
  | .commit ch =>
    match q with
    | .sleepBody _ => .handing ch
    | _ => .commit ch
  | .asleep ch =>
    match q with
    | .user => .relock
    | _ => .asleep ch
  | .inside owes =>
    match p, q with
    | .inside (.wakeup ch), .user => .inside (owes && ch ≠ chan)
    | _, _ => .inside owes
  | r => r

/-- The same for a handler. -/
def Role.followIrq (chan : Chan) (x y : Irq) : Role → Role
  | .inside owes =>
    match x, y with
    | .inside (.wakeup ch), .none => .inside (owes && ch ≠ chan)
    | _, _ => .inside owes
  | r => r

/-- What an operation does to `lk`, the condition and the role of the agent on CPU `c`. -/
def Op.run (c : C) (lk : Option C) (cond : Bool) : Op → Role → Option (Option C × Bool × Role)
  | .acquire, .enter | .acquire, .relock =>
    if lk = none then some (some c, cond, .inside false) else none
  | .set, .inside _ => some (lk, true, .inside true)
  | .clear, .inside _ => some (lk, false, .inside false)
  | .release, .inside false => if lk = some c then some (none, cond, .away) else none
  | _, _ => none

namespace State

/-- Whose code CPU `c` is executing, a call to `wakeup` by a handler apart. -/
def actor (s : State C F) (c : C) : Option (Agent C) :=
  if s.role (.handler c) = .away then (s.base.control.thread c).map .thread
  else if s.base.control.irq c = .none then some (.handler c)
  else none

/-- Not inside a call that deals with the table. -/
def rests (s : State C F) : Agent C → Bool
  | .thread i =>
    match s.base.control.pc i with
    | .user => true
    | _ => false
  | .handler _ => true

def allowsThread (chan : Chan) (s : State C F) (c : C) (e : Procs.Event C F) : Bool :=
  match s.base.control.thread c with
  | none => true
  | some i => (s.role (.thread i)).allows chan e

/-- What the machine may do. A CPU with a handler at work goes on with that handler only, and a
handler that holds `lk` may call `wakeup`. -/
def allows (chan : Chan) (s : State C F) : Procs.Event C F → Bool
  | .tick => true
  | .interrupt c duty =>
    match s.role (.handler c), duty with
    | .away, _ => s.lk ≠ some c
    | .inside _, .wakeup _ => true
    | _, _ => false
  | .advance c =>
    if s.role (.handler c) = .away then s.allowsThread chan c (.advance c)
    else s.base.control.irq c ≠ .none
  | .call c call => s.role (.handler c) = .away ∧ s.allowsThread chan c (.call c call)
  | .fault c => s.role (.handler c) = .away ∧ s.allowsThread chan c (.fault c)
  | .preempt c => s.role (.handler c) = .away ∧ s.allowsThread chan c (.preempt c)
  | .outOfMemory c => s.role (.handler c) = .away ∧ s.allowsThread chan c (.outOfMemory c)

/-- The roles after a step of the machine. -/
def follow (chan : Chan) (s : State C F) (k : Control C F) : Agent C → Role
  | .thread i => (s.role (.thread i)).follow chan (s.base.control.pc i) (k.pc i)
  | .handler c => (s.role (.handler c)).followIrq chan (s.base.control.irq c) (k.irq c)

def become (s : State C F) (a : Agent C) (r : Role) : State C F :=
  { s with role := Function.update s.role a r }

end State

section System

variable [Zero F] [One F] [Add F] [Mul F] [IntCast F] [LT F] [DecidableLT F]

def next (chan : Chan) (tenth : F) (s : State C F) : Event C F → Option (State C F)
  | .base e =>
    if s.allows chan e then
      (Procs.next tenth s.base e).map fun base =>
        { s with base := base, role := s.follow chan base.control }
    else
      none
  | .call c =>
    match s.actor c with
    | some (.thread i) =>
      if s.rests (.thread i) ∧ s.role (.thread i) = .away then
        some (s.become (.thread i) .enter)
      else
        none
    | _ => none
  | .trap c =>
    if s.role (.handler c) = .away ∧ s.base.control.irq c = .none ∧
        s.base.control.holds c = false ∧ s.lk ≠ some c then
      some (s.become (.handler c) .enter)
    else
      none
  | .op c op =>
    (s.actor c).bind fun a =>
      if s.rests a then
        (op.run c s.lk s.cond (s.role a)).map fun (lk, cond, r) =>
          { s.become a r with lk := lk, cond := cond }
      else
        none
  | .sleep c ch =>
    match s.actor c with
    | some (.thread i) =>
      if s.role (.thread i) = .inside false ∧ (ch = chan → s.cond = false) then
        (Procs.next tenth s.base (.call c (.sleep ch))).map fun base =>
          { s.become (.thread i) (.commit ch) with base := base }
      else
        none
    | _ => none
  | .handOver c =>
    match s.actor c with
    | some (.thread i) =>
      match s.role (.thread i) with
      | .handing ch =>
        if s.lk = some c then some { s.become (.thread i) (.asleep ch) with lk := none }
        else none
      | _ => none
    | _ => none

/-- The machine after `userinit`, with `lk` free and nobody near it. -/
structure Start (s : State C F) : Prop where
  base : Procs.Start s.base
  lk : s.lk = none
  role : ∀ a, s.role a = .away

def system (C : Type) [DecidableEq C] (tenth : F) (chan : Chan) :
    System (State C F) (Event C F) where
  start := Start
  next := next chan tenth

end System

/-! ## Roles and points -/

section Roles

/-- The channel a thread has been told to sleep on. -/
def target : Point F → Option Chan
  | .sleepLock ch | .sleepBody ch => some ch
  | .yieldLock rest | .yieldBody rest | .yieldBack rest => target rest
  | _ => none

/-- Where a thread is, preemption aside. -/
def outer : Point F → Point F
  | .yieldLock rest | .yieldBody rest | .yieldBack rest => outer rest
  | p => p

def Role.Fits (chan : Chan) (p : Point F) : Role → Prop
  | .away => target p ≠ some chan
  | .enter | .relock => outer p = .user
  | .inside _ => p = .user ∨ (∃ sec, p = .lock sec) ∨ ∃ sec, p = .inside sec
  | .commit ch => p = .sleepLock ch
  | .handing ch => p = .sleepBody ch
  | .asleep ch => p = .sleepBody ch ∨ p = .sleepBack

/-- On the way to sleep on `chan`. -/
def Role.Heading (chan : Chan) (p : Point F) (r : Role) : Prop :=
  r = .commit chan ∨ r = .handing chan ∨ r = .asleep chan ∧ p = .sleepBody chan

variable {chan : Chan} {p q : Point F} {r : Role}

theorem Role.follow_self (fits : r.Fits chan p) : r.follow chan p p = r := by
  cases r with
  | commit ch =>
    cases fits
    rfl
  | asleep ch =>
    rcases fits with rfl | rfl <;> rfl
  | inside owes =>
    rcases fits with rfl | ⟨sec, rfl⟩ | ⟨sec, rfl⟩
    · rfl
    · rfl
    · cases sec <;> rfl
  | _ => rfl

/-- A role changes in three ways: past `acquire(&ptable.lock)` in `sleep`, out of the hands of the
scheduler, and with the wakeup done. -/
theorem Role.follow_cases (chan : Chan) (p q : Point F) (r : Role) :
    r.follow chan p q = r ∨ (∃ ch, r = .commit ch ∧ r.follow chan p q = .handing ch) ∨
      (∃ ch, r = .asleep ch ∧ r.follow chan p q = .relock) ∨
      ∃ owes, r = .inside owes ∧ p = .inside (.wakeup chan) ∧ q = .user ∧
        r.follow chan p q = .inside false := by
  cases r with
  | commit ch =>
    simp only [Role.follow]
    split
    · exact .inr (.inl ⟨ch, rfl, rfl⟩)
    · exact .inl rfl
  | asleep ch =>
    simp only [Role.follow]
    split
    · exact .inr (.inr (.inl ⟨ch, rfl, rfl⟩))
    · exact .inl rfl
  | inside owes =>
    simp only [Role.follow]
    split
    next ch =>
      by_cases same : ch = chan
      · subst same
        exact .inr (.inr (.inr ⟨owes, rfl, rfl, rfl, by simp⟩))
      · exact .inl (by simp [same])
    next => exact .inl rfl
  | _ => exact .inl rfl

theorem Role.followIrq_cases (chan : Chan) (x y : Irq) (r : Role) :
    r.followIrq chan x y = r ∨ ∃ owes, r = .inside owes ∧ x = .inside (.wakeup chan) ∧ y = .none ∧
      r.followIrq chan x y = .inside false := by
  cases r with
  | inside owes =>
    simp only [Role.followIrq]
    split
    next ch =>
      by_cases same : ch = chan
      · subst same
        exact .inr ⟨owes, rfl, rfl, rfl, by simp⟩
      · exact .inl (by simp [same])
    next => exact .inl rfl
  | _ => exact .inl rfl

theorem Role.follow_holds : (r.follow chan p q).holds = r.holds := by
  rcases Role.follow_cases chan p q r with same | ⟨ch, rfl, follows⟩ | ⟨ch, rfl, follows⟩ |
    ⟨owes, rfl, -, -, follows⟩
  · rw [same]
  all_goals rw [follows]; rfl

theorem Role.follow_inSleep : (r.follow chan p q).inSleep = r.inSleep := by
  rcases Role.follow_cases chan p q r with same | ⟨ch, rfl, follows⟩ | ⟨ch, rfl, follows⟩ |
    ⟨owes, rfl, -, -, follows⟩
  · rw [same]
  all_goals rw [follows]; rfl

theorem Role.followIrq_holds {x y : Irq} : (r.followIrq chan x y).holds = r.holds := by
  rcases Role.followIrq_cases chan x y r with same | ⟨owes, rfl, -, -, follows⟩
  · rw [same]
  · rw [follows]
    rfl

theorem Role.away_of_follow (near : r.follow chan p q ≠ .away) : r ≠ .away := by
  rintro rfl
  exact near rfl

/-- Nobody starts on the way to sleep while following the machine. -/
theorem Role.heading_of_follow (fits : r.Fits chan p) (back : p = .sleepBack → q ≠ .sleepBody chan)
    (heading : (r.follow chan p q).Heading chan q) : r.Heading chan p := by
  rcases Role.follow_cases chan p q r with same | ⟨ch, rfl, follows⟩ | ⟨ch, rfl, follows⟩ |
    ⟨owes, rfl, -, -, follows⟩
  · rw [same] at heading
    rcases heading with commit | handing | ⟨rfl, here⟩
    · exact .inl commit
    · exact .inr (.inl handing)
    · rcases fits with before | before
      · exact .inr (.inr ⟨rfl, before⟩)
      · exact absurd here (back before)
  all_goals
    rw [follows] at heading
    simp only [Role.Heading, reduceCtorEq, Role.handing.injEq, false_and, or_false, false_or] at heading
  rw [heading]
  exact .inl rfl

theorem exits_of_outer (user : outer p = .user) : p.exits = false := by
  induction p with
  | yieldLock rest ih | yieldBody rest ih | yieldBack rest ih => exact ih user
  | exitLock | exitBody | dead => cases user
  | _ => rfl

/-- Whoever is in `exit` has nothing to do with `lk`. -/
theorem Role.Fits.exits (fits : r.Fits chan p) (near : r ≠ .away) : p.exits = false := by
  cases r with
  | away => exact absurd rfl near
  | enter | relock => exact exits_of_outer fits
  | inside owes => rcases fits with rfl | ⟨sec, rfl⟩ | ⟨sec, rfl⟩ <;> rfl
  | commit ch | handing ch =>
    cases fits
    rfl
  | asleep ch => rcases fits with rfl | rfl <;> rfl

theorem entry_enter (sec : Section F) :
    (Call.enter sec).entry = .user ∨ (Call.enter sec).entry = .lock sec := by
  cases sec with
  | changeQueue pid newQueue =>
    simp only [Call.entry]
    split
    · exact .inl rfl
    · exact .inr rfl
  | _ => exact .inr rfl

theorem entry_sleepLock {call : Call F} {ch : Chan} (told : call.entry = .sleepLock ch) :
    call = .sleep ch := by
  cases call with
  | sleep ch =>
    cases told
    rfl
  | enter sec => rcases entry_enter sec with user | lock <;> simp_all
  | _ => cases told

theorem turn_target {d : Ptable F} {i : Slot} {op : LockOp} {b : Body F}
    (turn : Turn d i p op q b) :
    target q = target p ∨ target q = none ∨ p = .user ∧ ∃ ch, q = .sleepLock ch := by
  cases turn with
  | call call allowed =>
    right
    exact Call.entry_elim
      (P := fun q => target q = none ∨ (Point.user : Point F) = .user ∧ ∃ ch, q = .sleepLock ch)
      allowed (.inl rfl) (fun _ => .inl rfl) (.inl rfl) (fun _ => .inl rfl) (.inl rfl)
      fun ch => .inr ⟨rfl, ch, rfl⟩
  | preempt p preemptible => exact .inl rfl
  | _ => first | exact .inl rfl | exact .inr (.inl rfl)

variable {d : Ptable F} {c : C} {i : Slot} {e : Procs.Event C F} {op : LockOp} {b : Body F}

theorem turn_sleep {x : Slot} {ch : Chan} (turn : Turn d i p op q (.sleep x ch)) :
    p = .sleepBody ch ∨ ch = .proc i := by
  cases turn with
  | waitSleep missing => exact .inr rfl
  | sleepBody ch => exact .inl rfl

/-- Whoever is about to sleep on `chan` came the right way. -/
theorem Role.Fits.heading (fits : r.Fits chan p) (body : p = .sleepBody chan) :
    r.Heading chan p := by
  subst body
  cases r with
  | away => exact absurd rfl fits
  | enter | relock | commit ch => cases fits
  | inside owes => rcases fits with here | ⟨sec, here⟩ | ⟨sec, here⟩ <;> cases here
  | handing ch =>
    cases fits
    exact .inr (.inl rfl)
  | asleep ch =>
    rcases fits with here | here
    · cases here
      exact .inr (.inr ⟨rfl, rfl⟩)
    · cases here

omit [DecidableEq C] in
/-- The role follows the thread. -/
theorem Role.Fits.acts (fits : r.Fits chan p) (acts : Acts d c i p e op q b)
    (allowed : r.allows chan e = true) : (r.follow chan p q).Fits chan q := by
  cases r with
  | away =>
    rcases turn_target acts.turn with same | none | ⟨rfl, ch, rfl⟩
    · exact fun here => fits (same.symm.trans here)
    · exact fun here => by cases none.symm.trans here
    · -- the call of `sleep` is on another channel
      intro here
      cases here
      generalize told : Point.sleepLock chan = q at acts
      cases acts with
      | call call here ok =>
        rw [entry_sleepLock told.symm] at allowed
        simp [Role.allows] at allowed
      | step stepped => cases stepped
      | _ => cases told
  | enter | relock =>
    cases acts with
    | call call here ok => cases allowed
    | preempt preemptible => exact fits
    | abandon np here => cases allowed
    | step stepped =>
      cases p with
      | yieldLock rest | yieldBody rest | yieldBack rest =>
        cases stepped
        exact fits
      | user => cases stepped
      | _ => cases fits
  | inside owes =>
    cases acts with
    | call call here ok =>
      cases call with
      | enter sec =>
        subst here
        rcases entry_enter sec with user | lock
        · exact .inl user
        · exact .inr (.inl ⟨sec, lock⟩)
      | _ => cases allowed
    | preempt preemptible => cases allowed
    | abandon np here => cases allowed
    | step stepped =>
      rcases fits with rfl | ⟨sec, rfl⟩ | ⟨sec, rfl⟩
      · cases stepped
      · cases stepped
        exact .inr (.inr ⟨sec, rfl⟩)
      · cases stepped
        cases sec <;> exact .inl rfl
  | commit ch =>
    cases acts with
    | step stepped =>
      cases fits
      cases stepped
      rfl
    | call call here ok => cases allowed
    | _ => cases allowed
  | handing ch => cases acts <;> cases allowed
  | asleep ch =>
    cases acts with
    | step stepped =>
      rcases fits with rfl | rfl
      · cases stepped
        exact .inr rfl
      · cases stepped
        rfl
    | call call here ok => cases allowed
    | _ => cases allowed

end Roles

end Handover

end Xv6.Procs
