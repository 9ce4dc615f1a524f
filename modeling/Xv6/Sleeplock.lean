/-
# Xv6.Sleeplock -- sleeplock.c under any interleaving

A sleep lock is a word `locked` and a pid, guarded by a spinlock. Processes are named by their pids,
which is all that the code reads of them. Each statement of the three routines that touches the lock is
one step of the calling process, and the steps of different processes interleave freely; `acquire` of
the inner lock is one attempt per step (`Xv6.attempt`). A process is bound to its CPU from the start
of `acquire` to the end of `release`, with interrupts off, so that this CPU runs nothing else.

`sleep(lk, &lk->lk)` lets go of the inner lock and marks the caller in one step, under `ptable.lock`;
`wakeup(lk)` wakes all sleepers, and `kill` wakes any of them.

`releasesleep` checks that its caller owns the lock. When it does not, the routine returns at once, and
the inner lock stays taken.

* `Inv` holds along every run: at most one owner, and `locked` and `pid` name it whenever the inner
  lock is free;
* under `OwnerReleases` the inner lock is never left behind, and whoever waits for it gets it.
-/
import Xv6.Lib.Transition
import Xv6.Spinlock

namespace Xv6.Sleeplock
open Lib Option Function
set_option autoImplicit false

abbrev Pid := Int

/-- `struct sleeplock` -/
structure Lock where
  lk : Spinlock
  locked : Bool
  pid : Pid
  deriving DecidableEq, Repr

def initsleeplock : Lock := ⟨initlock, false, 0⟩

inductive Routine where
  | acquiresleep | releasesleep | holdingsleep
  deriving DecidableEq, Repr

/-- The next statement of a process that has the inner lock. -/
inductive Point where
  /-- `while (lk->locked)` -/
  | test
  | setLocked | setPid
  /-- `if (lk->locked == 0 || lk->pid != myproc()->pid)` -/
  | check | checkPid
  | clearLocked | clearPid | wakeup
  /-- `lk->locked && (lk->pid == myproc()->pid)` -/
  | query | queryPid
  /-- `release(&lk->lk)` -/
  | release
  deriving DecidableEq, Repr

def Routine.entry : Routine → Point
  | .acquiresleep => .test
  | .releasesleep => .check
  | .holdingsleep => .query

/-- Where a process is. -/
inductive Phase where
  /-- in none of the routines -/
  | out
  /-- in `acquire(&lk->lk)`, on this CPU -/
  | spins (r : Routine) (c : CpuId)
  | inside (point : Point) (c : CpuId)
  /-- asleep in `acquiresleep` -/
  | sleeps
  /-- runnable again: the `acquire` at the end of `sleep` comes next -/
  | wakes
  deriving DecidableEq, Repr

structure State where
  lock : Lock
  phase : Pid → Phase
  /-- the process that has turned the interrupts of this CPU off -/
  off : CpuId → Option Pid
  /-- what the last `holdingsleep` of a process computed -/
  answer : Pid → Option Bool
  /-- ghost: from the store that takes the lock to the one that frees it -/
  owns : Pid → Bool

namespace State

def goto (s : State) (p : Pid) (phase : Phase) : State :=
  { s with phase := update s.phase p phase }

/-- `release(&lk->lk)`, which panics if this CPU does not hold it. -/
def release (s : State) (c : CpuId) : Option State :=
  if s.lock.lk.heldBy c then
    some { s with
      lock := { s.lock with lk := initlock }
      off := update s.off c none }
  else
    none

/-- `p` may run on CPU `c`: no other process has its interrupts off there, and `p` has none off
elsewhere. -/
def MayRun (s : State) (p : Pid) (c : CpuId) : Prop :=
  (s.off c = none ∨ s.off c = some p) ∧ ∀ c', s.off c' = some p → c' = c
deriving Decidable

/-- `p` enters `acquire(&lk->lk)` on CPU `c`: `pushcli` comes first. -/
def spin (s : State) (p : Pid) (r : Routine) (c : CpuId) : State :=
  { s with off := update s.off c (some p) }.goto p (.spins r c)

/-- `wakeup(lk)` -/
def wakeup (s : State) : State :=
  { s with phase := fun q => if s.phase q = .sleeps then .wakes else s.phase q }

end State

/-- One statement of `p`, which has the inner lock on CPU `c`. -/
def body (s : State) (p : Pid) (c : CpuId) : Point → Option State
  | .test =>
    if s.lock.locked then (s.release c).map fun s => s.goto p Phase.sleeps
    else some (s.goto p (.inside .setLocked c))
  | .setLocked =>
    some ({ s with
      lock := { s.lock with locked := true }
      owns := update s.owns p true }.goto p (.inside .setPid c))
  | .setPid => some ({ s with lock := { s.lock with pid := p } }.goto p (.inside .release c))
  -- the early return leaves the inner lock as it is
  | .check => some (s.goto p (if s.lock.locked then .inside .checkPid c else .out))
  | .checkPid => some (s.goto p (if s.lock.pid = p then .inside .clearLocked c else .out))
  | .clearLocked =>
    some ({ s with
      lock := { s.lock with locked := false }
      owns := update s.owns p false }.goto p (.inside .clearPid c))
  | .clearPid => some ({ s with lock := { s.lock with pid := 0 } }.goto p (.inside .wakeup c))
  | .wakeup => some (s.wakeup.goto p (.inside .release c))
  | .query =>
    if s.lock.locked then some (s.goto p (.inside .queryPid c))
    else some ({ s with answer := update s.answer p (some false) }.goto p
      (.inside .release c))
  | .queryPid =>
    some ({ s with answer := update s.answer p (some (decide (s.lock.pid = p))) }.goto p
      (.inside .release c))
  | .release => (s.release c).map fun s => s.goto p Phase.out

inductive Event where
  | call (p : Pid) (c : CpuId) (r : Routine)
  /-- a process that is in a routine goes on -/
  | go (p : Pid)
  /-- a process that was woken up is scheduled again -/
  | resume (p : Pid) (c : CpuId)
  | kill (p : Pid)
  deriving DecidableEq, Repr

def next (s : State) : Event → Option State
  | .call p c r => if s.phase p = .out ∧ s.MayRun p c then some (s.spin p r c) else none
  | .go p =>
    match s.phase p with
    | .spins r c =>
      match attempt c s.lock.lk with
      -- `panic("acquire")`
      | .panics => none
      | .spins => some s
      | .takes =>
        some ({ s with lock := { s.lock with lk := takenBy c } }.goto p (.inside r.entry c))
    | .inside point c => body s p c point
    | .out | .sleeps | .wakes => none
  | .resume p c =>
    if s.phase p = .wakes ∧ s.MayRun p c then some (s.spin p .acquiresleep c) else none
  | .kill p => if s.phase p = .sleeps then some (s.goto p .wakes) else none

structure Start (s : State) : Prop where
  lock : s.lock = initsleeplock
  phase : ∀ p, s.phase p = .out
  off : ∀ c, s.off c = none
  owns : ∀ p, s.owns p = false

def system : System State Event where
  start := Start
  next := next

/-- The condition on a step: `releasesleep` is called by the owner. -/
def OwnerReleases (s : State) : Event → Prop
  | .call p _ .releasesleep => s.owns p = true
  | _ => True

instance (s : State) : ∀ e, Decidable (OwnerReleases s e)
  | .call _ _ .releasesleep => inferInstanceAs (Decidable (_ = _))
  | .call _ _ .acquiresleep | .call _ _ .holdingsleep | .go _ | .resume _ _ | .kill _ => .isTrue trivial

theorem wakeup_goto_phase (s : State) {p q : Pid} (phase : Phase) (other : q ≠ p) :
    (s.wakeup.goto p phase).phase q = if s.phase q = .sleeps then .wakes else s.phase q :=
  update_of_ne other _ _

theorem goto_phase (s : State) (p : Pid) (phase : Phase) (q : Pid) :
    (s.goto p phase).phase q = if q = p then phase else s.phase q := update_apply ..

/-- What a step can be. -/
inductive Moves (s : State) : Event → State → Prop where
  | enters {e : Event} (p : Pid) (c : CpuId) (r : Routine) (outside : ∀ point c', s.phase p ≠ .inside point c')
      (mayRun : s.MayRun p c) (calls : r = .releasesleep → e = .call p c r) : Moves s e (s.spin p r c)
  | waits (p : Pid) (r : Routine) (c : CpuId) (here : s.phase p = .spins r c) : Moves s (.go p) s
  | takes (p : Pid) (r : Routine) (c : CpuId) (here : s.phase p = .spins r c)
      (takes : attempt c s.lock.lk = .takes) :
      Moves s (.go p) ({ s with lock := { s.lock with lk := takenBy c } }.goto p (.inside r.entry c))
  | goes {s' : State} (p : Pid) (point : Point) (c : CpuId) (here : s.phase p = .inside point c)
      (ran : body s p c point = some s') : Moves s (.go p) s'
  | woken (p : Pid) (asleep : s.phase p = .sleeps) : Moves s (.kill p) (s.goto p .wakes)

variable {e : Event} {r : Routine}

theorem moves_of_next {s s' : State} (stepped : next s e = some s') : Moves s e s' := by
  cases e with
  | call p c r =>
    obtain ⟨⟨out, mayRun⟩, ⟨⟩⟩ := ite_none_right_eq_some.mp stepped
    exact .enters p c r (by simp [out]) mayRun fun _ => rfl
  | resume p c =>
    obtain ⟨⟨awake, mayRun⟩, ⟨⟩⟩ := ite_none_right_eq_some.mp stepped
    exact .enters p c .acquiresleep (by simp [awake]) mayRun fun other => by cases other
  | kill p =>
    obtain ⟨asleep, ⟨⟩⟩ := ite_none_right_eq_some.mp stepped
    exact .woken p asleep
  | go p =>
    simp only [next] at stepped
    split at stepped
    next r c here =>
      split at stepped
      next => cases stepped
      next =>
        cases stepped
        exact .waits p r c here
      next taking =>
        cases stepped
        exact .takes p r c here taking
    next point c here => exact .goes p point c here stepped
    all_goals cases stepped

/-- `acquire` gets a lock that is free. -/
theorem free_of_takes {lk : Spinlock} {c : CpuId} (form : lk = initlock ∨ ∃ c', lk = takenBy c')
    (takes : attempt c lk = .takes) : lk = initlock := by
  rcases form with free | ⟨c', rfl⟩
  · exact free
  · simp only [attempt, takenBy] at takes
    split at takes <;> cases takes

theorem next_takes {s : State} {p : Pid} {c : CpuId} (free : s.lock.lk = initlock)
    (waits : s.phase p = .spins r c) : next s (.go p) =
      some ({ s with lock := { s.lock with lk := takenBy c } }.goto p (.inside r.entry c)) := by
  have takes : attempt c s.lock.lk = .takes := by rw [free]; rfl
  simp only [next, waits, takes]

/-! ## What holds along a run -/

/-- `locked` and `pid` name the owner. -/
def Settled (s : State) : Prop := ∀ q, s.owns q = true ↔ s.lock.locked = true ∧ s.lock.pid = q

/-- What `p` knows at each statement. -/
def Point.Fits (s : State) (p : Pid) : Point → Prop
  | .setLocked | .clearPid => Settled s ∧ s.lock.locked = false
  | .setPid => s.lock.locked = true ∧ ∀ q, s.owns q = true ↔ q = p
  | .checkPid | .queryPid => Settled s ∧ s.lock.locked = true
  | .clearLocked => Settled s ∧ s.lock.locked = true ∧ s.lock.pid = p
  | .test | .check | .wakeup | .query | .release => Settled s

/-- `p` has called `releasesleep` and has not found out yet whether it owns the lock. -/
def Phase.asks : Phase → Bool
  | .spins .releasesleep _ | .inside .check _ | .inside .checkPid _ => true
  | _ => false

/-- The invariant. Its last three parts are about runs in which only owners call `releasesleep`. -/
structure Inv (ok : Prop) (s : State) : Prop where
  form : s.lock.lk = initlock ∨ ∃ c, s.lock.lk = takenBy c
  spinning : ∀ p r c, s.phase p = .spins r c → s.off c = some p
  holder : ∀ p point c, s.phase p = .inside point c → s.lock.lk = takenBy c ∧ s.off c = some p
  fits : ∀ p point c, s.phase p = .inside point c → point.Fits s p
  settled : (∀ p point c, s.phase p ≠ .inside point c) → Settled s
  taken : ok → ∀ c, s.lock.lk = takenBy c → ∃ p point, s.phase p = .inside point c
  busy : ok → ∀ c p, s.off c = some p →
    (∃ r, s.phase p = .spins r c) ∨ ∃ point, s.phase p = .inside point c
  asked : ok → ∀ p, (s.phase p).asks = true → s.owns p = true

section Steps

variable {ok : Prop} {s s' : State} {p : Pid} {c : CpuId} {point point' : Point} {q : Pid}

/-- One process at most is inside. -/
theorem Inv.alone (inv : Inv ok s) {c' : CpuId} (here : s.phase p = .inside point c)
    (there : s.phase q = .inside point' c') : p = q := by
  obtain ⟨taken, off⟩ := inv.holder p point c here
  obtain ⟨taken', off'⟩ := inv.holder q point' c' there
  have same : c = c' := takenBy_injective (taken.symm.trans taken')
  subst same
  exact some.inj (off.symm.trans off')

/-- Nobody is inside when the inner lock is free. -/
theorem Inv.nobody (inv : Inv ok s) (free : s.lock.lk = initlock) :
    ∀ p point c, s.phase p ≠ .inside point c := fun p point c there => by
  cases free.symm.trans (inv.holder p point c there).1

/-- Nobody owns a lock that is not locked. -/
theorem Settled.unowned (settled : Settled s) (unlocked : s.lock.locked = false) (q : Pid) :
    ¬ s.owns q = true := fun owner => by simp [(settled q).mp owner] at unlocked

theorem Settled.stranger (settled : Settled s) (stranger : s.owns p = false)
    (locked : s.lock.locked = true) : s.lock.pid ≠ p := fun mine => by
  simpa [stranger] using (settled p).mpr ⟨locked, mine⟩

theorem fits_congr (locked : s'.lock.locked = s.lock.locked) (pid : s'.lock.pid = s.lock.pid)
    (owns : s'.owns = s.owns) (fits : point.Fits s p) : point.Fits s' p := by
  have settled : Settled s' ↔ Settled s := by simp only [Settled, locked, pid, owns]
  cases point with
  | setLocked | clearPid | checkPid | queryPid | clearLocked =>
    simpa only [Point.Fits, settled, locked, pid] using fits
  | setPid => simpa only [Point.Fits, locked, owns] using fits
  | test | check | wakeup | query | release => exact settled.mpr fits

/-- What a step of `p` leaves of the other processes: those that spin or are inside, and those that own
the lock. -/
structure Apart (p : Pid) (s s' : State) : Prop where
  spins : ∀ q, q ≠ p → ∀ r c, s'.phase q = .spins r c ↔ s.phase q = .spins r c
  inside : ∀ q, q ≠ p → ∀ point c, s'.phase q = .inside point c ↔ s.phase q = .inside point c
  owns : ∀ q, q ≠ p → s'.owns q = s.owns q

/-- The process alone moves. -/
theorem apart_goto {phase : Phase} (moved : s'.phase = update s.phase p phase)
    (owns : ∀ q, q ≠ p → s'.owns q = s.owns q) : Apart p s s' := by
  refine ⟨fun q other r c => ?_, fun q other point c => ?_, owns⟩
  all_goals rw [moved, update_of_ne other]

/-- A CPU whose interrupts are off runs a process that spins or is inside. -/
theorem Apart.busy (apart : Apart p s s') {c : CpuId} (other : q ≠ p)
    (busy : (∃ r, s.phase q = .spins r c) ∨ ∃ point, s.phase q = .inside point c) :
    (∃ r, s'.phase q = .spins r c) ∨ ∃ point, s'.phase q = .inside point c := by
  simpa only [apart.spins q other, apart.inside q other] using busy

theorem Apart.asks (apart : Apart p s s') (other : q ≠ p) (asks : (s'.phase q).asks = true) :
    (s.phase q).asks = true := by
  have spins := apart.spins q other
  have inside := apart.inside q other
  cases there : s'.phase q <;> grind [Phase.asks]

section

variable (inv : Inv ok s)
include inv

/-- A process enters `acquire(&lk->lk)`. -/
theorem Inv.spin (outside : ∀ point c, s.phase p ≠ .inside point c) (mayRun : s.MayRun p c)
    (owner : ok → r = .releasesleep → s.owns p = true) : Inv ok (s.spin p r c) := by
  have phase : ∀ q, (s.spin p r c).phase q = if q = p then .spins r c else s.phase q := fun q =>
    update_apply ..
  have off : ∀ c', (s.spin p r c).off c' = if c' = c then some p else s.off c' := fun c' =>
    update_apply ..
  have asks : (Phase.spins r c).asks = true → r = .releasesleep := by cases r <;> simp [Phase.asks]
  obtain ⟨form, spinning, holder, fits, settled, taken, busy, asked⟩ := inv
  obtain ⟨alone, here⟩ := mayRun
  refine ⟨form, by grind, ?_, fun q point c' there => ?_, fun nobody => settled (by grind), ?_, by grind, ?_⟩
  · change ∀ p point c', _ → s.lock.lk = takenBy c' ∧ _
    grind
  · exact fits_congr (s := s) rfl rfl rfl (fits q point c' (by grind))
  · change ok → ∀ c, s.lock.lk = takenBy c → _
    grind
  · change ok → ∀ q, _ → s.owns q = true
    grind

/-- A process inside goes on to its next statement. -/
theorem Inv.stays (here : s.phase p = .inside point c) (apart : Apart p s s')
    (moved : s'.phase p = .inside point' c) (lk : s'.lock.lk = s.lock.lk) (off : s'.off = s.off)
    (fits : point'.Fits s' p) (asks : ok → (s'.phase p).asks = true → s'.owns p = true) :
    Inv ok s' := by
  have only : ∀ q point c, s'.phase q = .inside point c → q = p := fun q point c there => by
    by_contra other
    exact other (inv.alone ((apart.inside q other point c).mp there) here)
  have asks' : ∀ q, q ≠ p → (s'.phase q).asks = true → (s.phase q).asks = true := fun q => apart.asks
  obtain ⟨form, spinning, holder, -, -, taken, busy, asked⟩ := inv
  have ⟨spins, inside, owns⟩ := apart
  have mine := holder p point c here
  refine ⟨lk ▸ form, by grind, by grind, by grind, by grind, fun _ c' its => ?_, fun guarded c' q off' => ?_, by grind⟩
  · have same : c = c' := takenBy_injective (mine.1.symm.trans (lk.symm.trans its))
    exact ⟨p, point', same ▸ moved⟩
  · have before := busy guarded c' q (off ▸ off')
    by_cases same : q = p
    · grind
    · exact apart.busy same before

/-- A process inside lets go of the inner lock. -/
theorem Inv.leaves (here : s.phase p = .inside point c) (apart : Apart p s s')
    (moved : s'.phase p = .out ∨ s'.phase p = .sleeps) (lk : s'.lock.lk = initlock)
    (off : s'.off = update s.off c none) (settled : Settled s') : Inv ok s' := by
  have nobody : ∀ q point c, s'.phase q ≠ .inside point c := by
    intro q point' c' there
    have other : q ≠ p := by grind
    exact other (inv.alone ((apart.inside q other point' c').mp there) here)
  have free : ∀ c', s'.lock.lk ≠ takenBy c' := fun c' taken => by cases lk.symm.trans taken
  have asks : ∀ q, (s'.phase q).asks = true → q ≠ p ∧ (s.phase q).asks = true := by
    intro q asks
    have other : q ≠ p := by grind [Phase.asks]
    exact ⟨other, apart.asks other asks⟩
  have cleared : ∀ c', s'.off c' = if c' = c then none else s.off c' := fun c' => by
    rw [off, update_apply]
  obtain ⟨-, spinning, holder, -, -, -, busy, asked⟩ := inv
  obtain ⟨spins, inside, owns⟩ := apart
  exact ⟨.inl lk, by grind, by grind, by grind, fun _ => settled, by grind, by grind, by grind⟩

/-- A process that finds the inner lock free takes it. -/
theorem Inv.takes (here : s.phase p = .spins r c) (free : s.lock.lk = initlock) :
    Inv ok ({ s with lock := { s.lock with lk := takenBy c } }.goto p (.inside r.entry c)) := by
  have nobody := inv.nobody free
  have settled : Settled s := inv.settled nobody
  have fits : r.entry.Fits s p := by cases r <;> exact settled
  have asks : (Phase.inside r.entry c).asks = true → (Phase.spins r c).asks = true := by
    cases r <;> simp [Phase.asks, Routine.entry]
  generalize r.entry = entry at *
  have phase := goto_phase { s with lock := { s.lock with lk := takenBy c } } p (.inside entry c)
  obtain ⟨-, spinning, -, -, -, -, busy, asked⟩ := inv
  refine ⟨.inr ⟨c, rfl⟩, ?_, fun q point c' there => ?_, fun q point c' there => ?_, by grind,
    fun _ c' taken => ?_, ?_, ?_⟩
  · change ∀ p r c, _ → s.off c = some p
    grind
  · obtain ⟨rfl, rfl⟩ : q = p ∧ c' = c := by grind
    exact ⟨rfl, spinning q r c' here⟩
  · obtain ⟨rfl, rfl⟩ : q = p ∧ point = entry := by grind
    exact fits_congr (s := s) rfl rfl rfl fits
  · obtain rfl : c = c' := takenBy_injective taken
    exact ⟨p, entry, by grind⟩
  · change ok → ∀ c p, s.off c = some p → _
    grind
  · change ok → ∀ q, _ → s.owns q = true
    grind

/-- A process is where the invariant says nothing about it: `kill` wakes a sleeper, or `releasesleep`
returns early. -/
theorem Inv.idles {idle : Phase} (isIdle : idle = .out ∨ idle = .wakes)
    (was : s.phase p = .sleeps ∨ (Settled s ∧ ¬ok)) : Inv ok (s.goto p idle) := by
  have phase := goto_phase s p idle
  have asks : idle.asks = false := by rcases isIdle with rfl | rfl <;> rfl
  obtain ⟨form, spinning, holder, fits, settled, taken, busy, asked⟩ := inv
  refine ⟨form, ?_, ?_, fun q point c' there => ?_, fun nobody => ?_, ?_, ?_, ?_⟩
  · change ∀ p r c, _ → s.off c = some p
    grind
  · change ∀ p point c, _ → s.lock.lk = takenBy c ∧ s.off c = some p
    grind
  · exact fits_congr (s := s) rfl rfl rfl (fits q point c' (by grind))
  · change Settled s
    grind
  · change ok → ∀ c, s.lock.lk = takenBy c → _
    grind
  · change ok → ∀ c p, s.off c = some p → _
    grind
  · change ok → ∀ q, _ → s.owns q = true
    grind

theorem release_eq (here : s.phase p = .inside point c) :
    s.release c = some { s with
      lock := { s.lock with lk := initlock }
      off := update s.off c none } := by
  have held : s.lock.lk.heldBy c = true := heldBy_iff.mpr (inv.holder p point c here).1
  rw [State.release, if_pos held]

/-- A statement that stores to `locked`, `pid` and the ghosts of `p`, and stays inside. -/
theorem Inv.onward (here : s.phase p = .inside point c) {t : State} (point' : Point)
    (phase : t.phase = s.phase) (lk : t.lock.lk = s.lock.lk) (off : t.off = s.off)
    (owns : ∀ q, q ≠ p → t.owns q = s.owns q) (fits : point'.Fits t p)
    (asks : ok → (Phase.inside point' c).asks = true → t.owns p = true) :
    Inv ok (t.goto p (.inside point' c)) := by
  have self : (t.goto p (.inside point' c)).phase p = .inside point' c := update_self ..
  have moved : (t.goto p (.inside point' c)).phase = update s.phase p (.inside point' c) := by
    rw [← phase]
    rfl
  refine inv.stays here (apart_goto moved owns) self lk off (fits_congr rfl rfl rfl fits) ?_
  rw [self]
  exact asks

/-- One statement inside. -/
theorem body_inv (here : s.phase p = .inside point c) (stepped : body s p c point = some s') :
    Inv ok s' := by
  have fits := inv.fits p point c here
  cases point with
  | test =>
    simp only [body] at stepped
    split at stepped
    · rw [release_eq inv here] at stepped
      cases stepped
      exact inv.leaves here (apart_goto rfl fun _ _ => rfl) (.inr (update_self ..)) rfl rfl
        fits
    · rename_i unlocked
      cases stepped
      exact inv.onward here .setLocked rfl rfl rfl (fun _ _ => rfl) ⟨fits, by simpa using unlocked⟩
        nofun
  | setLocked =>
    cases stepped
    obtain ⟨settled, unlocked⟩ := fits
    have owners : ∀ q, update s.owns p true q = true ↔ q = p := by
      intro q
      by_cases same : q = p
      · simp [same]
      · simp [same, settled.unowned unlocked]
    exact inv.onward here .setPid rfl rfl rfl (fun q other => update_of_ne other _ _)
      ⟨rfl, owners⟩ nofun
  | setPid =>
    cases stepped
    obtain ⟨locked, owners⟩ := fits
    refine inv.onward here .release rfl rfl rfl (fun _ _ => rfl) ?_ nofun
    intro q
    simp [owners, locked, eq_comm]
  | check =>
    simp only [body, some.injEq] at stepped
    subst stepped
    by_cases locked : s.lock.locked = true
    · rw [if_pos locked]
      exact inv.onward here .checkPid rfl rfl rfl (fun _ _ => rfl) ⟨fits, locked⟩
        fun guarded _ => inv.asked guarded p (by rw [here]; rfl)
    · rw [if_neg locked]
      refine inv.idles (.inl rfl) (.inr ⟨fits, fun guarded => locked ?_⟩)
      exact ((fits p).mp (inv.asked guarded p (by rw [here]; rfl))).1
  | checkPid =>
    simp only [body, some.injEq] at stepped
    subst stepped
    obtain ⟨settled, locked⟩ := fits
    by_cases mine : s.lock.pid = p
    · rw [if_pos mine]
      exact inv.onward here .clearLocked rfl rfl rfl (fun _ _ => rfl) ⟨settled, locked, mine⟩
        nofun
    · rw [if_neg mine]
      refine inv.idles (.inl rfl) (.inr ⟨settled, fun guarded => mine ?_⟩)
      exact ((settled p).mp (inv.asked guarded p (by rw [here]; rfl))).2
  | clearLocked =>
    cases stepped
    obtain ⟨settled, locked, mine⟩ := fits
    refine inv.onward here .clearPid rfl rfl rfl (fun q other => update_of_ne other _ _)
      ⟨?_, rfl⟩ nofun
    intro q
    by_cases same : q = p
    · simp [same]
    · have other : ¬ s.owns q = true := fun owner =>
        same (((settled q).mp owner).2.symm.trans mine)
      simp [update_of_ne same, other]
  | clearPid =>
    cases stepped
    obtain ⟨settled, unlocked⟩ := fits
    refine inv.onward here .wakeup rfl rfl rfl (fun _ _ => rfl) ?_ nofun
    intro q
    simp [settled.unowned unlocked, unlocked]
  | wakeup =>
    cases stepped
    have self : (s.wakeup.goto p (.inside .release c)).phase p = .inside .release c :=
      update_self ..
    have apart : Apart p s (s.wakeup.goto p (.inside .release c)) := by
      refine ⟨fun q other r c' => ?_, fun q other point c' => ?_, fun _ _ => rfl⟩
      all_goals
        rw [wakeup_goto_phase s _ other]
        split
        · rename_i asleep
          simp [asleep]
        · rfl
    refine inv.stays here apart self rfl rfl fits fun _ asks => ?_
    rw [self] at asks
    cases asks
  | query =>
    simp only [body] at stepped
    split at stepped
    · rename_i locked
      cases stepped
      exact inv.onward here .queryPid rfl rfl rfl (fun _ _ => rfl) ⟨fits, locked⟩
        nofun
    · cases stepped
      exact inv.onward here .release rfl rfl rfl (fun _ _ => rfl) fits nofun
  | queryPid =>
    cases stepped
    exact inv.onward here .release rfl rfl rfl (fun _ _ => rfl) fits.1 nofun
  | release =>
    simp only [body] at stepped
    rw [release_eq inv here] at stepped
    cases stepped
    exact inv.leaves here (apart_goto rfl fun _ _ => rfl) (.inl (update_self ..)) rfl rfl
      fits

/-- **One step keeps the invariant.** -/
theorem step_inv (admitted : ok → OwnerReleases s e) (stepped : next s e = some s') :
    Inv ok s' := by
  cases moves_of_next stepped with
  | enters p c r outside mayRun calls =>
    refine inv.spin outside mayRun fun guarded isRelease => ?_
    cases calls isRelease
    subst isRelease
    exact admitted guarded
  | waits => exact inv
  | takes p r c here takes => exact inv.takes here (free_of_takes inv.form takes)
  | goes p point c here ran => exact body_inv inv here ran
  | woken p asleep => exact inv.idles (.inr rfl) (.inl asleep)

end

theorem start_inv (initial : Start s) : Inv ok s := by
  have nobody : ∀ p point c, s.phase p ≠ .inside point c := by
    intro p point c there
    cases (initial.phase p).symm.trans there
  have free : s.lock.lk = initlock := by rw [initial.lock]; rfl
  refine ⟨.inl free, ?_, fun p point c there => absurd there (nobody p point c),
    fun p point c there => absurd there (nobody p point c), ?_, ?_, ?_, ?_⟩
  · intro p r c there
    cases (initial.phase p).symm.trans there
  · intro _ q
    simp [initial.owns, initial.lock, initsleeplock]
  · intro _ c taken
    cases free.symm.trans taken
  · intro _ c p off
    cases (initial.off c).symm.trans off
  · intro _ p asks
    rw [initial.phase p] at asks
    cases asks

theorem reach_inv {admits : State → Event → Prop} (guards : ok → ∀ s e, admits s e → OwnerReleases s e)
    (reached : system.Reach admits s) : Inv ok s := by
  refine System.Reach.invariant ?_ ?_ reached
  · intro s initial
    exact start_inv initial
  · intro s e s' inv admitted stepped
    exact step_inv inv (fun guarded => guards guarded s e admitted) stepped

end Steps

section Owners

variable {ok : Prop} {s s' : State} {p q : Pid} {c : CpuId}

theorem Settled.unique (settled : Settled s) (first : s.owns p = true) (second : s.owns q = true) :
    p = q :=
  ((settled p).mp first).2.symm.trans ((settled q).mp second).2

/-- At most one process owns the lock. -/
theorem Inv.unique (inv : Inv ok s) (first : s.owns p = true) (second : s.owns q = true) : p = q := by
  by_cases someone : ∃ r point c, s.phase r = .inside point c
  · obtain ⟨r, point, c, here⟩ := someone
    have fits := inv.fits r point c here
    cases point with
    | setPid => exact ((fits.2 p).mp first).trans ((fits.2 q).mp second).symm
    | setLocked | clearPid | checkPid | queryPid | clearLocked => exact fits.1.unique first second
    | test | check | wakeup | query | release => exact Settled.unique fits first second
  · have nobody : ∀ r point c, s.phase r ≠ .inside point c := fun r point c here =>
      someone ⟨r, point, c, here⟩
    exact (inv.settled nobody).unique first second

/-- What `releasesleep` does for a process that does not own the lock. -/
theorem stranger_returns (inv : Inv ok s)
    (asks : s.phase p = .inside .check c ∨ s.phase p = .inside .checkPid c)
    (stranger : s.owns p = false) (stepped : next s (.go p) = some s') :
    s' = s.goto p .out ∨ s' = s.goto p (.inside .checkPid c) := by
  rcases asks with here | here
  · simp only [next, here, body, some.injEq] at stepped
    subst stepped
    split
    · exact .inr rfl
    · exact .inl rfl
  · obtain ⟨settled, locked⟩ := inv.fits p .checkPid c here
    simp only [next, here, body, if_neg (settled.stranger stranger locked), some.injEq] at stepped
    exact .inl stepped.symm

end Owners

/-! ## The inner lock comes free -/

/-- The number of statements left, at most. -/
def Point.rank : Point → Nat
  | .release => 1
  | .setPid | .wakeup | .queryPid => 2
  | .setLocked | .clearPid | .query => 3
  | .test | .clearLocked => 4
  | .checkPid => 5
  | .check => 6

section Guarded

variable {s s' : State} {p q : Pid} {c : CpuId} {point : Point}

/-- A process inside can always go on, and is then closer to letting go of the inner lock. -/
theorem go_closer (inv : Inv True s) (here : s.phase p = .inside point c) :
    ∃ s', next s (.go p) = some s' ∧
      (∀ q, q ≠ p → s'.phase q = s.phase q ∨ s.phase q = .sleeps ∧ s'.phase q = .wakes) ∧
      (s'.lock.lk = initlock ∨ ∃ point', s'.phase p = .inside point' c ∧ point'.rank < point.rank) := by
  have fits := inv.fits p point c here
  have went : next s (.go p) = body s p c point := by simp only [next, here]
  have kept : ∀ (t : State) phase, t.phase = s.phase → ∀ q, q ≠ p →
      (t.goto p phase).phase q = s.phase q ∨
        s.phase q = .sleeps ∧ (t.goto p phase).phase q = .wakes := by
    intro t phase same q other
    rw [← same]
    exact .inl (update_of_ne other _ _)
  rw [went]
  cases point with
  | test =>
    by_cases locked : s.lock.locked = true
    · rw [body, if_pos locked, release_eq inv here]
      exact ⟨_, rfl, kept _ _ rfl, .inl rfl⟩
    · rw [body, if_neg locked]
      exact ⟨_, rfl, kept _ _ rfl, .inr ⟨.setLocked, update_self .., by decide⟩⟩
  | setLocked | setPid | queryPid | clearLocked | clearPid =>
    exact ⟨_, rfl, kept _ _ rfl, .inr ⟨_, update_self .., by decide⟩⟩
  | check =>
    have locked := ((fits p).mp (inv.asked trivial p (by rw [here]; rfl))).1
    rw [body, if_pos locked]
    exact ⟨_, rfl, kept _ _ rfl, .inr ⟨.checkPid, update_self .., by decide⟩⟩
  | checkPid =>
    have mine := ((fits.1 p).mp (inv.asked trivial p (by rw [here]; rfl))).2
    rw [body, if_pos mine]
    exact ⟨_, rfl, kept _ _ rfl, .inr ⟨.clearLocked, update_self .., by decide⟩⟩
  | wakeup =>
    refine ⟨_, rfl, ?_, .inr ⟨.release, update_self .., by decide⟩⟩
    intro q other
    rw [wakeup_goto_phase s _ other]
    by_cases asleep : s.phase q = .sleeps
    · rw [if_pos asleep]
      exact .inr ⟨asleep, rfl⟩
    · rw [if_neg asleep]
      exact .inl rfl
  | query =>
    by_cases locked : s.lock.locked = true
    · rw [body, if_pos locked]
      exact ⟨_, rfl, kept _ _ rfl, .inr ⟨.queryPid, update_self .., by decide⟩⟩
    · rw [body, if_neg locked]
      exact ⟨_, rfl, kept _ _ rfl, .inr ⟨.release, update_self .., by decide⟩⟩
  | release =>
    rw [body, release_eq inv here]
    exact ⟨_, rfl, kept _ _ rfl, .inl rfl⟩

theorem run_cons (stepped : next s e = some s') (events : List Event) :
    system.run s (e :: events) = system.run s' events := by
  show (next s e).bind _ = _
  rw [stepped]
  rfl

/-- Within as many steps of its own, a process inside has let go of the inner lock. -/
theorem inside_frees (n : Nat) (inv : Inv True s) (here : s.phase p = .inside point c)
    (near : point.rank ≤ n) :
    ∃ m ≤ n, ∃ s', system.run s (List.replicate m (.go p)) = some s' ∧ s'.lock.lk = initlock ∧
      ∀ q r c', q ≠ p → s.phase q = .spins r c' → s'.phase q = .spins r c' := by
  induction n generalizing s point with
  | zero => cases point <;> exact absurd near (by decide)
  | succ n ih =>
    obtain ⟨s', went, others, freed⟩ := go_closer inv here
    have kept : ∀ q r c', q ≠ p → s.phase q = .spins r c' → s'.phase q = .spins r c' := by
      intro q r c' other spins
      rcases others q other with same | ⟨asleep, -⟩
      · exact same.trans spins
      · cases asleep.symm.trans spins
    rcases freed with free | ⟨point', there, closer⟩
    · exact ⟨1, by omega, s', run_cons went [], free, kept⟩
    · have inv' : Inv True s' := step_inv (e := .go p) inv (fun _ => trivial) went
      obtain ⟨m, few, s'', ran, free, kept'⟩ := ih inv' there (by omega)
      refine ⟨m + 1, by omega, s'', (run_cons went _).trans ran, free, ?_⟩
      intro q r c' other spins
      exact kept' q r c' other (kept q r c' other spins)

/-- Whoever waits for the inner lock gets it, as soon as its holder has run on. -/
theorem spinner_enters (inv : Inv True s) (waits : s.phase p = .spins r c) :
    ∃ q n s', n ≤ 6 ∧ system.run s (List.replicate n (.go q) ++ [.go p]) = some s' ∧
      s'.phase p = .inside r.entry c := by
  rcases inv.form with free | ⟨c', taken⟩
  · exact ⟨p, 0, _, by omega, run_cons (next_takes free waits) [], update_self ..⟩
  · obtain ⟨q, point, there⟩ := inv.taken trivial c' taken
    have other : p ≠ q := by
      rintro rfl
      cases waits.symm.trans there
    have near : point.rank ≤ 6 := by cases point <;> decide
    obtain ⟨n, few, s', ran, free, kept⟩ := inside_frees 6 inv there near
    have went := run_cons (next_takes free (kept p r c other waits)) []
    exact ⟨q, n, _, few, by rw [System.run_append, ran]; exact went, update_self ..⟩

/-- A call returns where it lets go of the inner lock. -/
theorem returns_free (inv : Inv True s) (stepped : next s e = some s') (called : s.phase p ≠ .out)
    (returned : s'.phase p = .out) : s'.lock.lk = initlock := by
  -- a step that sets the phase of one process to something else than `out`
  have moves : ∀ (t : State) q phase, t.phase p = s.phase p → phase ≠ .out → (t.goto q phase).phase p ≠ .out := by
    intro t q phase same other
    rw [goto_phase]
    grind
  cases moves_of_next stepped with
  | enters q c r =>
    exact absurd returned (moves { s with off := update s.off c (some q) } q _ rfl (by simp))
  | waits => exact absurd returned called
  | takes q r c =>
    exact absurd returned (moves { s with lock := { s.lock with lk := takenBy c } } q _ rfl (by simp))
  | woken q => exact absurd returned (moves s q _ rfl (by simp))
  | goes q point c here ran =>
    obtain ⟨s'', went', others, freed⟩ := go_closer inv here
    cases some.inj (stepped.symm.trans went')
    rcases freed with free | ⟨point', there, -⟩
    · exact free
    · have other : p ≠ q := by
        rintro rfl
        cases returned.symm.trans there
      rcases others p other with same | ⟨-, awake⟩
      · exact absurd (same.symm.trans returned) called
      · cases returned.symm.trans awake

/-! ## A lock that is left behind -/

/-- The inner lock is taken, and nobody is there to let go of it. -/
structure Stuck (c : CpuId) (s : State) : Prop where
  taken : s.lock.lk = takenBy c
  nobody : ∀ p point c', s.phase p ≠ .inside point c'

theorem Stuck.step (stuck : Stuck c s) (stepped : next s e = some s') : Stuck c s' := by
  obtain ⟨taken, nobody⟩ := stuck
  have moves : ∀ (t : State) q phase, t.phase = s.phase → (∀ point c', phase ≠ .inside point c') →
      ∀ p point c', (t.goto q phase).phase p ≠ .inside point c' := by
    intro t q phase same outside p point c'
    rw [goto_phase, same]
    grind
  cases moves_of_next stepped with
  | enters q c' r => exact ⟨taken, moves _ q _ rfl (by simp)⟩
  | waits => exact ⟨taken, nobody⟩
  | takes q r c' here takes => cases taken.symm.trans (free_of_takes (.inr ⟨c, taken⟩) takes)
  | goes q point c' here => exact absurd here (nobody q point c')
  | woken q => exact ⟨taken, moves s q _ rfl (by simp)⟩

theorem Stuck.run (stuck : Stuck c s) {events : List Event} (ran : system.run s events = some s') :
    Stuck c s' := by
  induction events generalizing s with
  | nil =>
    cases ran
    exact stuck
  | cons e rest ih =>
    obtain ⟨mid, stepped, ran⟩ := bind_eq_some_iff.mp ran
    exact ih (stuck.step stepped) ran

/-- A process that does not own the lock calls `releasesleep` while the inner lock is free, and returns
with it. -/
theorem stray_release (inv : Inv True s) (outside : s.phase p = .out) (mayRun : s.MayRun p c)
    (free : s.lock.lk = initlock) (stranger : s.owns p = false) :
    ∃ n s', system.run s (.call p c .releasesleep :: List.replicate n (.go p)) = some s' ∧
      s'.phase p = .out ∧ Stuck c s' := by
  have nobody := inv.nobody free
  have settled := inv.settled nobody
  let entered : State :=
    { s.spin p .releasesleep c with lock := { s.lock with lk := takenBy c } }.goto p (.inside .check c)
  have called : next s (.call p c .releasesleep) = some (s.spin p .releasesleep c) := by
    simp only [next, outside, mayRun, and_self, if_true]
  have enters : next (s.spin p .releasesleep c) (.go p) = some entered :=
    next_takes (s := s.spin p .releasesleep c) free (update_self ..)
  -- wherever it returns from, only its own phase has changed since
  have ends : ∀ t : State, t.lock.lk = takenBy c → (∀ q, q ≠ p → t.phase q = s.phase q) →
      (t.goto p .out).phase p = .out ∧ Stuck c (t.goto p .out) := by
    intro t taken same
    have self : (t.goto p .out).phase p = .out := update_self ..
    refine ⟨self, taken, ?_⟩
    intro q point c' there
    by_cases mine : q = p
    · subst mine
      cases self.symm.trans there
    · have before : t.phase q = .inside point c' := (update_of_ne mine _ _).symm.trans there
      exact nobody q point c' ((same q mine).symm.trans before)
  have rest : ∀ q, q ≠ p → entered.phase q = s.phase q := fun q other =>
    (update_of_ne other _ _).trans (update_of_ne other _ _)
  have inside : entered.phase p = .inside .check c := update_self ..
  by_cases locked : s.lock.locked = true
  · have other : s.lock.pid ≠ p := settled.stranger stranger locked
    have checks : next entered (.go p) = some (entered.goto p (.inside .checkPid c)) := by
      simp only [next, inside, body]
      rw [if_pos (show entered.lock.locked = true from locked)]
    have leaves : next (entered.goto p (.inside .checkPid c)) (.go p) =
        some ((entered.goto p (.inside .checkPid c)).goto p .out) := by
      have there : (entered.goto p (.inside .checkPid c)).phase p = .inside .checkPid c :=
        update_self ..
      simp only [next, there, body]
      rw [if_neg (show ¬ (entered.goto p (.inside .checkPid c)).lock.pid = p from other)]
    refine ⟨3, _, ?_, ends (entered.goto p (.inside .checkPid c)) rfl fun q other =>
      (update_of_ne other _ _).trans (rest q other)⟩
    simp only [List.replicate, System.run, system, called, enters, checks, leaves, bind_some]
  · have leaves : next entered (.go p) = some (entered.goto p .out) := by
      simp only [next, inside, body]
      rw [if_neg (show ¬ entered.lock.locked = true from locked)]
    refine ⟨2, _, ?_, ends entered rfl rest⟩
    simp only [List.replicate, System.run, system, called, enters, leaves, bind_some]

end Guarded

/-! ## The protocol -/

/-- **The sleep lock.** In every run, at most one process owns the lock, `locked` and `pid` name it
whenever the inner lock is free, and a `releasesleep` by another process changes nothing but where
that process is.

In every run in which only owners call `releasesleep`, the inner lock is held by processes that are
inside a routine only, a call that returns leaves it free, and a process that waits for it gets it
after at most six steps of its holder. The condition is exact: a call of `releasesleep` by another
process that gets the inner lock returns with it, and from then on it is never free again. -/
theorem sleep_lock_protocol (s : State) :
    (system.Reachable s →
      (∀ p q, s.owns p = true → s.owns q = true → p = q) ∧
      (s.lock.lk = initlock →
        ∀ p, s.owns p = true ↔ s.lock.locked = true ∧ s.lock.pid = p) ∧
      ∀ p c s', s.phase p = .inside .check c ∨ s.phase p = .inside .checkPid c →
        s.owns p = false → next s (.go p) = some s' →
          s' = s.goto p .out ∨ s' = s.goto p (.inside .checkPid c)) ∧
    (system.Reach OwnerReleases s →
      (∀ c, s.lock.lk.heldBy c = true → ∃ p point, s.phase p = .inside point c) ∧
      (∀ e s' p, OwnerReleases s e → next s e = some s' → s.phase p ≠ .out → s'.phase p = .out →
        s'.lock.lk = initlock) ∧
      (∀ p r c, s.phase p = .spins r c →
        ∃ q n s', n ≤ 6 ∧ system.run s (List.replicate n (.go q) ++ [.go p]) = some s' ∧
          s'.phase p = .inside r.entry c) ∧
      ∀ p c, s.phase p = .out → s.MayRun p c → s.lock.lk = initlock →
        ¬ OwnerReleases s (.call p c .releasesleep) →
          ∃ n s', system.run s (.call p c .releasesleep :: List.replicate n (.go p)) = some s' ∧
            s'.phase p = .out ∧
            ∀ events s'', system.run s' events = some s'' → s''.lock.lk = takenBy c) := by
  constructor
  · intro reached
    have inv : Inv False s := reach_inv (fun impossible => impossible.elim) reached
    refine ⟨fun p q first second => inv.unique first second, ?_, ?_⟩
    · intro free
      exact inv.settled (inv.nobody free)
    · intro p c s' asks stranger stepped
      exact stranger_returns inv asks stranger stepped
  · intro reached
    have inv : Inv True s := reach_inv (fun _ _ _ admitted => admitted) reached
    refine ⟨?_, ?_, ?_, ?_⟩
    · intro c held
      exact inv.taken trivial c (heldBy_iff.mp held)
    · intro e s' p _ stepped called returned
      exact returns_free inv stepped called returned
    · intro p r c waits
      exact spinner_enters inv waits
    · intro p c outside mayRun free stranger
      have stranger : s.owns p = false := by simpa [OwnerReleases] using stranger
      obtain ⟨n, s', ran, returned, stuck⟩ := stray_release inv outside mayRun free stranger
      exact ⟨n, s', ran, returned, fun events s'' later => (stuck.run later).taken⟩

/-! ## A run from boot -/

def boot : State := ⟨initsleeplock, fun _ => .out, fun _ => none, fun _ => none, fun _ => false⟩

theorem boot_start : system.start boot := ⟨rfl, fun _ => rfl, fun _ => rfl, fun _ => rfl⟩

/-- Process 1 takes the lock and is about to give it back on CPU 0, when process 2 calls `acquiresleep`
on CPU 1. -/
def ownRelease : List Event :=
  .call 1 0 .acquiresleep :: List.replicate 5 (.go 1) ++
    [.call 1 0 .releasesleep, .go 1, .call 2 1 .acquiresleep, .go 2]

def afterOwn : State := (system.run boot ownRelease).getD boot

/-- Process 2 spins, and comes in when process 1 has gone on. -/
theorem sleep_lock_protocol_own : system.Reach OwnerReleases afterOwn ∧ afterOwn.owns 1 = true ∧
    ∃ q n s', n ≤ 6 ∧ system.run afterOwn (List.replicate n (.go q) ++ [.go 2]) = some s' ∧
      s'.phase 2 = .inside .test 1 := by
  have reached : system.Reach OwnerReleases afterOwn := by
    apply System.Reach.run_getD (.start boot_start)
    · decide
    · decide
  have enters := ((sleep_lock_protocol afterOwn).2 reached).2.2.1 2 .acquiresleep 1 (by decide)
  exact ⟨reached, by decide, enters⟩

/-- Process 1 calls `releasesleep` on the free lock, on CPU 0. -/
def strayRelease : List Event := [.call 1 0 .releasesleep, .go 1, .go 1]

def afterStray : State := (system.run boot strayRelease).getD boot

/-- The call has returned and the inner lock is taken: on CPU 0 the next call panics, and on CPU 1 it
spins for ever. -/
theorem stray_release_keeps_inner_lock :
    system.Reachable afterStray ∧ afterStray.phase 1 = .out ∧ afterStray.lock = ⟨takenBy 0, false, 0⟩ ∧
      system.run afterStray [.call 1 0 .acquiresleep, .go 1] = none ∧
      ∃ s, system.run afterStray [.call 2 1 .acquiresleep] = some s ∧
        s.phase 2 = .spins .acquiresleep 1 ∧ next s (.go 2) = some s := by
  refine ⟨System.reachable_of_run strayRelease boot_start rfl, ?_, ?_, ?_, ?_⟩
  · decide +kernel
  · decide +kernel
  · rfl
  · exact ⟨_, rfl, rfl, rfl⟩

end Xv6.Sleeplock
