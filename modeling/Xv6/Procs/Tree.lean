/-
# Xv6.Procs.Tree -- the process table is a family

The machine refines `Xv6.Procs.Family`: every step is one event of the family or none at all. What
`proc.c` has instead of process numbers are pids, which are numbers modulo 2^32; below that many
forks they tell processes apart.

* `Effect` says what a step may do to the family, with what it found when it did it. That the
  entries are in the right state is `Placed`; that `exit` is never `initproc`'s and that an embryo's
  parent is the `fork` that made it is `Kin`.
* `Waits`: nobody sleeps in `wait` who has a zombie child. `exit` wakes its parent before it becomes
  a zombie, under one lock with it, and `initproc` when that inherits one.
-/
import Xv6.Procs.Cpus

namespace Xv6.Procs
open Lib Sched Ptable Function
open Sched.Smp (Pickable)
set_option autoImplicit false

variable {F : Type}

/-! ## Points of `exit` and `fork` -/

/-- In `exit`, past the check for `initproc`. -/
def Point.exits : Point F → Bool
  | .exitLock | .exitBody | .dead => true
  | .yieldLock rest | .yieldBody rest | .yieldBack rest => rest.exits
  | _ => false

/-- The embryo, once `fork` has made itself its parent. -/
def Point.adopted : Point F → Option Slot
  | .forkReady np | .forkRunnable np => some np
  | .yieldLock rest | .yieldBody rest | .yieldBack rest => rest.adopted
  | _ => none

variable {np i : Slot} {x : Proc F}

theorem Point.made_of_adopted {p : Point F} (adopted : p.adopted = some np) : p.made = some np := by
  induction p with
  | forkReady np | forkRunnable np => exact adopted
  | yieldLock rest ih | yieldBody rest ih | yieldBack rest ih => exact ih adopted
  | _ => cases adopted

section Turn

variable {d : Ptable F} {me np : Slot} {p q : Point F} {op : LockOp} {b : Body F}

/-- `exit` begins with the check for `initproc`. -/
theorem Turn.exits (turn : Turn d me p op q b) (exits : q.exits = true) :
    p.exits = true ∨ me ≠ initproc := by
  cases turn with
  | call call allowed =>
    right
    exact Call.entry_elim (P := fun q => q.exits = true → me ≠ initproc) allowed
      (by simp [Point.exits]) (by simp [Point.exits]) (by simp [Point.exits])
      (fun other _ => other) (by simp [Point.exits]) (by simp [Point.exits]) exits
  | _ => first | cases exits; done | exact .inl exits

/-- Between `np->parent = curproc` and `np->state = RUNNABLE` a thread stores nothing, except to
give up its CPU. -/
theorem Turn.adopted (turn : Turn d me p op q b) (adopted : q.adopted = some np) :
    b = .adopt np me ∨ p.adopted = some np ∧ (b = .skip ∨ b = .yield me) := by
  cases turn with
  | call call allowed =>
    have none : call.entry.adopted = none :=
      Call.entry_elim (P := fun q => q.adopted = none) allowed rfl (fun _ => rfl) rfl
        (fun _ => rfl) rfl (fun _ => rfl)
    rw [none] at adopted
    cases adopted
  | forkCopy np' =>
    cases adopted
    exact .inl rfl
  | preempt p preemptible | forkReady np' | yieldLock rest | yieldBack rest =>
    exact .inr ⟨adopted, .inl rfl⟩
  | yieldBody rest => exact .inr ⟨adopted, .inr rfl⟩
  | _ => cases adopted

/-- A thread goes to sleep in `wait` when its scan found no zombie. -/
theorem Turn.waits (turn : Turn d me p op .waitBack b) (sane : p.sane = true) :
    b = .sleep me (.proc me) ∧ zombieChild d me = none := by
  generalize here : Point.waitBack = q at turn
  cases turn with
  | call call allowed =>
    have away : call.entry ≠ .waitBack :=
      Call.entry_elim (P := fun q => q ≠ .waitBack) allowed (by simp) (by simp) (by simp)
        (by simp) (by simp) (by simp)
    exact absurd here.symm away
  | waitSleep missing => exact ⟨rfl, missing⟩
  | yieldBack rest =>
    subst here
    cases sane
  | _ => cases here

theorem Turn.adopts {x : Slot} (turn : Turn d me p op q (.adopt np x)) :
    x = me ∧ p.owns = some np := by
  cases turn
  exact ⟨rfl, rfl⟩

theorem Turn.actor_exit {x : Slot} (turn : Turn d me p op q (.exit x)) : x = me := by
  cases turn
  rfl

theorem Turn.actor_sleep {x : Slot} {chan : Chan} (turn : Turn d me p op q (.sleep x chan)) :
    x = me ∧ p ≠ .waitBack := by
  cases turn <;> exact ⟨rfl, by simp⟩

end Turn

/-! ## What a step does to the family -/

variable {C : Type}

/-- What the points of `exit` and `fork` say about the table. -/
structure Kin (k : Control C F) (d : Ptable F) : Prop where
  exits : ∀ i, (k.pc i).exits = true → i ≠ initproc
  adopted : ∀ i np, (k.pc i).adopted = some np → d.parent np = some i

/-- The stores that make or end a process, or move it on or off a CPU, and what they find. -/
inductive Effect (d : Ptable F) : Body F → Prop where
  | mild {b : Body F} (mild : b.mild = true) : Effect d b
  | tidy (me : Slot) (running : (d.proc me).state = .RUNNING) : Effect d (.tidy me)
  | sleep (me : Slot) (chan : Chan) (running : (d.proc me).state = .RUNNING) :
      Effect d (.sleep me chan)
  | yield (me : Slot) (running : (d.proc me).state = .RUNNING) : Effect d (.yield me)
  | dispatch (p : Slot) (runnable : (d.proc p).state = .RUNNABLE) : Effect d (.dispatch p)
  | alloc (np : Slot) (unused : (d.proc np).state = .UNUSED) : Effect d (.alloc np)
  | abandon (np : Slot) (embryo : (d.proc np).state = .EMBRYO) : Effect d (.abandon np)
  | adopt (np me : Slot) (embryo : (d.proc np).state = .EMBRYO)
      (running : (d.proc me).state = .RUNNING) : Effect d (.adopt np me)
  | ready (np me : Slot) (embryo : (d.proc np).state = .EMBRYO)
      (running : (d.proc me).state = .RUNNING) (mine : d.parent np = some me) :
      Effect d (.ready np me)
  | exit (me : Slot) (running : (d.proc me).state = .RUNNING) (other : me ≠ initproc) :
      Effect d (.exit me)
  | reap (me child : Slot) (running : (d.proc me).state = .RUNNING)
      (zombie : (d.proc child).state = .ZOMBIE) (mine : d.parent child = some me) :
      Effect d (.reap me child)

variable {d e : Ptable F} {j : Slot}

theorem Walks.effect {k k' : Control C F} {b : Body F} (walks : Walks k k' d b)
    (placed : Placed k d) (kin : Kin k d) : Effect d b := by
  cases walks with
  | still pc body =>
    cases body with
    | dispatch p pickable => exact .dispatch p pickable.1
    | _ => exact .mild rfl
  | turn me running turn self others =>
    have embryo : ∀ np, (k.pc me).owns = some np → (d.proc np).state = .EMBRYO :=
      placed.owners.embryo me
    generalize here : k.pc me = p at turn
    rw [here] at embryo
    cases turn with
    | forkScan np found => exact .alloc np (unusedSlot_some found)
    | noStack np | noMemory np => exact .abandon np (embryo np rfl)
    | forkCopy np => exact .adopt np me (embryo np rfl) running
    | forkRunnable np =>
      exact .ready np me (embryo np rfl) running (kin.adopted me np (by rw [here]; rfl))
    | exitBody => exact .exit me running (kin.exits me (by rw [here]; rfl))
    | waitReap child found =>
      obtain ⟨mine, zombie⟩ := zombieChild_some found
      exact .reap me child running zombie mine
    | waitSleep missing => exact .sleep me _ running
    | waitBack | sleepBack => exact .tidy me running
    | sleepBody chan => exact .sleep me chan running
    | yieldBody rest => exact .yield me running
    | _ => exact .mild rfl

/-- A state in the table after a step that writes one entry. -/
theorem state_of_set {state : ProcState} (same : e.proc = (d.setProc np x).proc)
    (written : x.state ≠ state) (after : (e.proc i).state = state) :
    i ≠ np ∧ e.proc i = d.proc i := by
  rw [same, setProc_proc] at after
  split at after
  next => exact absurd after written
  next other =>
    refine ⟨other, ?_⟩
    rw [same, setProc_proc, if_neg other]

section Effect

variable [Zero F] [One F] [Add F] {tenth : F} {d d' : Ptable F} {b : Body F}

section

variable (effect : Effect d b) (ran : b.run tenth d = some d')
include effect ran

/-- Who gets a new parent. -/
theorem Effect.parent (j : Slot) :
    d'.parent j = d.parent j ∨ (∃ me, b = .adopt j me) ∨
      (∃ me, b = .exit me ∧ d.parent j = some me ∧ d'.parent j = some initproc) ∨
      ∃ me, b = .reap me j ∧ d'.parent j = none := by
  cases effect with
  | mild mild => exact .inl (congrFun (Body.run_mild mild ran).parent j)
  | adopt np me embryo running =>
    cases ran
    by_cases same : j = np
    · exact .inr (.inl ⟨me, by rw [same]⟩)
    · exact .inl (update_of_ne same _ _)
  | exit me running other =>
    cases ran
    by_cases child : d.parent j = some me
    · exact .inr (.inr (.inl ⟨me, rfl, child, by simp [child]⟩))
    · exact .inl (by simp [child])
  | reap me child running zombie mine =>
    cases ran
    by_cases same : j = child
    · subst same
      exact .inr (.inr (.inr ⟨me, rfl, update_self ..⟩))
    · exact .inl (update_of_ne same _ _)
  | _ =>
    cases ran
    exact .inl rfl

theorem Effect.zombie (zombie : (d'.proc j).state = .ZOMBIE) :
    (d.proc j).state = .ZOMBIE ∨ b = .exit j := by
  have kept : ∀ {np : Slot} {x : Proc F}, d'.proc = (d.setProc np x).proc → x.state ≠ .ZOMBIE →
      (d.proc j).state = .ZOMBIE := by
    intro np x same written
    rw [← (state_of_set same written zombie).2]
    exact zombie
  cases effect with
  | mild mild =>
    rcases ((Body.run_mild mild ran).proc j).state with same | ⟨-, awake⟩
    · exact .inl (same ▸ zombie)
    · rw [awake] at zombie
      cases zombie
  | adopt np me embryo running =>
    cases ran
    exact .inl zombie
  | exit me running other =>
    cases ran
    by_cases same : j = me
    · exact .inr (by rw [same])
    · rcases (exit_other (d := d) same).state with kept | ⟨-, awake⟩
      · exact .inl (kept ▸ zombie)
      · rw [awake] at zombie
        cases zombie
  | tidy me running =>
    cases ran
    exact .inl (kept rfl (by simp [running]))
  | _ =>
    cases ran
    exact .inl (kept rfl (by simp [Smp.dispatched]))

theorem Effect.asleep (asleep : (d'.proc i).state = .SLEEPING) :
    (d.proc i).state = .SLEEPING ∧ (d'.proc i).chan = (d.proc i).chan ∨
      ∃ chan, b = .sleep i chan := by
  have kept : ∀ {np : Slot} {x : Proc F}, d'.proc = (d.setProc np x).proc → x.state ≠ .SLEEPING →
      (d.proc i).state = .SLEEPING ∧ (d'.proc i).chan = (d.proc i).chan := by
    intro np x same written
    rw [← (state_of_set same written asleep).2]
    exact ⟨asleep, rfl⟩
  cases effect with
  | mild mild =>
    have mild := (Body.run_mild mild ran).proc i
    rcases mild.state with same | ⟨-, awake⟩
    · exact .inl ⟨same ▸ asleep, mild.chan⟩
    · rw [awake] at asleep
      cases asleep
  | adopt np me embryo running =>
    cases ran
    exact .inl ⟨asleep, rfl⟩
  | exit me running other =>
    cases ran
    by_cases same : i = me
    · rw [same, exit_state_self] at asleep
      cases asleep
    · have kept := (exit_other (d := d) same).asleep asleep
      rw [kept] at asleep ⊢
      exact .inl ⟨asleep, rfl⟩
  | sleep me chan running =>
    cases ran
    by_cases same : i = me
    · exact .inr ⟨chan, by rw [same]⟩
    · rw [setProc_proc, if_neg same] at asleep ⊢
      exact .inl ⟨asleep, rfl⟩
  | tidy me running =>
    cases ran
    exact .inl (kept rfl (by simp [running]))
  | _ =>
    cases ran
    exact .inl (kept rfl (by simp [Smp.dispatched]))

end

end Effect

/-! ## Steps -/

/-- Nobody who sleeps in `wait` has a zombie child. -/
def Waits (k : Control C F) (d : Ptable F) : Prop :=
  ∀ i, k.pc i = .waitBack → (d.proc i).state = .SLEEPING →
    (d.proc i).chan = some (.proc i) ∧ ∀ j, d.parent j = some i → (d.proc j).state ≠ .ZOMBIE

section Step

variable [Zero F] [One F] [Add F] {tenth : F} {k k' : Control C F} {d d' : Ptable F} {b : Body F}

theorem Walks.kin (walks : Walks k k' d b) (placed : Placed k d) (kin : Kin k d)
    (ran : b.run tenth d = some d') : Kin k' d' := by
  have effect := walks.effect placed kin
  constructor
  · intro i exits
    cases walks with
    | still pc body =>
      rw [pc] at exits
      exact kin.exits i exits
    | turn me running turn self others =>
      by_cases same : i = me
      · rw [same, self] at exits
        rw [same]
        rcases turn.exits exits with before | other
        · exact kin.exits me before
        · exact other
      · rcases others i same with kept | ⟨-, started⟩
        · rw [kept] at exits
          exact kin.exits i exits
        · rw [started] at exits
          cases exits
  · intro i np adopted
    -- the embryo of a thread that does not move keeps its parent
    have unmoved : (k.pc i).adopted = some np → (∀ x, b ≠ .adopt np x) → b ≠ .exit i →
        d'.parent np = some i := by
      intro before unadopted stays
      have mine := kin.adopted i np before
      have owns := Point.owns_of_made (Point.made_of_adopted before)
      rcases effect.parent ran np with same | ⟨x, rfl⟩ | ⟨x, rfl, child, -⟩ | ⟨x, rfl, -⟩
      · rw [same]
        exact mine
      · exact absurd rfl (unadopted x)
      · rw [mine] at child
        cases child
        exact absurd rfl stays
      · cases effect with
        | mild mild => cases mild
        | reap _ _ _ zombie _ =>
          rw [placed.owners.embryo i np owns] at zombie
          cases zombie
    cases walks with
    | still pc body =>
      rw [pc] at adopted
      apply unmoved adopted
      · rintro x rfl
        cases body
      · rintro rfl
        cases body
    | turn me running turn self others =>
      by_cases same : i = me
      · subst same
        rw [self] at adopted
        rcases turn.adopted adopted with rfl | ⟨before, rfl | rfl⟩
        · cases ran
          exact update_self ..
        · cases ran
          exact kin.adopted i np before
        · cases ran
          exact kin.adopted i np before
      · rcases others i same with kept | ⟨-, started⟩
        · rw [kept] at adopted
          have owns := Point.owns_of_made (Point.made_of_adopted adopted)
          apply unmoved adopted
          · rintro x rfl
            obtain ⟨rfl, owns'⟩ := turn.adopts
            exact same (placed.owners.single i x np owns owns')
          · rintro rfl
            exact same turn.actor_exit
        · rw [started] at adopted
          cases adopted

theorem Walks.waits (walks : Walks k k' d b) (placed : Placed k d) (kin : Kin k d)
    (loopless : ∀ i, d.parent i ≠ some i) (waits : Waits k d) (ran : b.run tenth d = some d') :
    Waits k' d' := by
  have effect := walks.effect placed kin
  intro i here asleep
  by_cases slept : b = .sleep i (.proc i) ∧ zombieChild d i = none
  · obtain ⟨rfl, missing⟩ := slept
    constructor
    · cases ran
      rw [setProc_proc, if_pos rfl]
    · intro j child zombie
      rcases effect.zombie ran zombie with before | same
      · cases ran
        exact zombieChild_none missing child before
      · cases same
  · -- the thread was asleep in `wait` before
    have old : k.pc i = .waitBack := by
      cases walks with
      | still pc body => rwa [pc] at here
      | turn me running turn self others =>
        by_cases same : i = me
        · subst same
          rw [self] at here
          subst here
          exact absurd (turn.waits (placed.seats.sane i)) slept
        · rcases others i same with kept | ⟨-, started⟩
          · rwa [kept] at here
          · rw [started] at here
            cases here
    have before : (d.proc i).state = .SLEEPING ∧ (d'.proc i).chan = (d.proc i).chan := by
      rcases effect.asleep ran asleep with before | ⟨chan, rfl⟩
      · exact before
      · cases walks with
        | still pc body => cases body
        | turn me running turn self others =>
          obtain ⟨rfl, away⟩ := turn.actor_sleep
          exact absurd old away
    obtain ⟨chan, children⟩ := waits i old before.1
    have chan' : (d'.proc i).chan = some (.proc i) := before.2.trans chan
    refine ⟨chan', fun j child zombie => ?_⟩
    rcases effect.parent ran j with same | ⟨x, rfl⟩ | ⟨x, rfl, mine, heir⟩ | ⟨x, rfl, none⟩
    · rw [same] at child
      rcases effect.zombie ran zombie with dead | rfl
      · exact children j child dead
      · -- a child of `i` exits, and has woken `i` first
        cases effect with
        | mild mild => cases mild
        | exit _ running other =>
          cases ran
          have apart : i ≠ j := by
            rintro rfl
            rw [before.1] at running
            cases running
          exact exit_wakes_parent apart child ⟨asleep, chan'⟩
    · cases effect with
      | mild mild => cases mild
      | adopt _ _ embryo running =>
        cases ran
        have self : x = i := by
          simpa using (update_self (f := d.parent) j (some x)).symm.trans child
        rw [self, before.1] at running
        cases running
    · -- `initproc` inherits `j` from the process that exits
      rw [heir] at child
      cases child
      rcases effect.zombie ran zombie with dead | same
      · cases effect with
        | mild mild => cases mild
        | exit _ running other =>
          cases ran
          exact exit_wakes_init (Ne.symm other) mine dead ⟨asleep, chan'⟩
      · cases same
        exact loopless j mine
    · rw [none] at child
      cases child

end Step

/-! ## The family of a table -/

def stageOf : ProcState → Stage
  | .UNUSED => .free
  | .EMBRYO => .embryo
  | .ZOMBIE => .zombie
  | .SLEEPING | .RUNNABLE | .RUNNING => .alive

/-- The pid of the process with number `n`: an `int` that `nextpid++` has reached. -/
def pidOf (n : ℕ) : Int := (BitVec.ofNat 32 n).toInt

theorem pidOf_injOn : Set.InjOn pidOf {n | n < 2 ^ 32} := by
  intro n small m small' same
  have words : BitVec.ofNat 32 n = BitVec.ofNat 32 m := BitVec.toInt_inj.mp same
  have numbers := congrArg BitVec.toNat words
  simp only [BitVec.toNat_ofNat] at numbers
  rwa [Nat.mod_eq_of_lt small, Nat.mod_eq_of_lt small'] at numbers

/-- The table holds the family. The pids of free slots mean nothing. -/
structure Matches (d : Ptable F) (a : Family.State Slot) : Prop where
  stage : ∀ i, a.stage i = stageOf (d.proc i).state
  parent : a.parent = d.parent
  next : a.next = d.born + 2
  nextpid : d.nextpid = BitVec.ofNat 32 a.next
  pid : ∀ i, a.stage i ≠ .free → (d.proc i).pid = pidOf (a.name i)
  log : d.log = a.log.map (Deed.map pidOf)

theorem Mild.stage {p p' : Proc F} (mild : Mild p p') : stageOf p'.state = stageOf p.state := by
  rcases mild.state with same | ⟨asleep, awake⟩
  · rw [same]
  · rw [asleep, awake]
    rfl

section Matches

variable {d d' : Ptable F} {a : Family.State Slot}

/-- A store that leaves every process at its stage. -/
theorem Matches.calm (matched : Matches d a)
    (entry : ∀ i, stageOf (d'.proc i).state = stageOf (d.proc i).state ∧
      (d'.proc i).pid = (d.proc i).pid)
    (parent : d'.parent = d.parent) (nextpid : d'.nextpid = d.nextpid) (born : d'.born = d.born)
    (log : d'.log = d.log) : Matches d' a := by
  constructor
  · intro i
    rw [(entry i).1]
    exact matched.stage i
  · rw [parent]
    exact matched.parent
  · rw [born]
    exact matched.next
  · rw [nextpid]
    exact matched.nextpid
  · intro i used
    rw [(entry i).2]
    exact matched.pid i used
  · rw [log]
    exact matched.log

variable {me : Slot}

section

variable (matched : Matches d a)
include matched

theorem Matches.set_calm (stage : stageOf x.state = stageOf (d.proc me).state)
    (pid : x.pid = (d.proc me).pid) : Matches (d.setProc me x) a := by
  have entry : ∀ i, stageOf ((d.setProc me x).proc i).state = stageOf (d.proc i).state ∧
      ((d.setProc me x).proc i).pid = (d.proc i).pid := by
    intro i
    rw [setProc_proc]
    split
    next same =>
      rw [same]
      exact ⟨stage, pid⟩
    next => exact ⟨rfl, rfl⟩
  exact matched.calm entry rfl rfl rfl rfl

/-- The stage of every slot after one entry is written. -/
theorem Matches.stage_set {stage : Stage} (i : Slot) (same : e.proc = (d.setProc np x).proc)
    (written : stageOf x.state = stage) : update a.stage np stage i = stageOf (e.proc i).state := by
  rw [same, setProc_proc, update_apply]
  split
  · exact written.symm
  · exact matched.stage i

/-- The pids after one entry is written, in a slot that keeps its name or is free from now on. -/
theorem Matches.pid_set {stage : Stage} (i : Slot) (pid : stage ≠ .free → x.pid = pidOf (a.name np))
    (used : update a.stage np stage i ≠ .free) :
    ((d.setProc np x).proc i).pid = pidOf (a.name i) := by
  rw [update_apply] at used
  rw [setProc_proc]
  split
  next same =>
    rw [if_pos same] at used
    rw [same]
    exact pid used
  next other =>
    rw [if_neg other] at used
    exact matched.pid i used

theorem Matches.alloc (unused : (d.proc np).state = .UNUSED) :
    ∃ a', Family.step initproc a (.alloc np) = some a' ∧ Matches (d.alloc np) a' := by
  have free : a.stage np = .free := by rw [matched.stage, unused]; rfl
  refine ⟨_, if_pos free, ?_⟩
  constructor
  · intro i
    exact matched.stage_set i rfl rfl
  · exact matched.parent
  · show a.next + 1 = d.born + 1 + 2
    rw [matched.next]
  · show d.nextpid + 1 = BitVec.ofNat 32 (a.next + 1)
    rw [matched.nextpid, BitVec.ofNat_add]
    rfl
  · intro i used
    show ((d.setProc np _).proc i).pid = pidOf (update a.name np a.next i)
    rw [setProc_proc, update_apply]
    split
    · rw [matched.nextpid]
      rfl
    next other =>
      apply matched.pid i
      rwa [← update_of_ne other Stage.embryo a.stage]
  · exact matched.log

section

variable (embryo : (d.proc np).state = .EMBRYO)
include embryo

theorem Matches.abandon :
    ∃ a', Family.step initproc a (.abandon np) = some a' ∧
      Matches (d.setProc np { d.proc np with state := .UNUSED }) a' := by
  have stage : a.stage np = .embryo := by rw [matched.stage, embryo]; rfl
  refine ⟨_, if_pos stage, ?_⟩
  constructor
  · intro i
    exact matched.stage_set i rfl rfl
  · exact matched.parent
  · exact matched.next
  · exact matched.nextpid
  · intro i used
    exact matched.pid_set i (fun inUse => absurd rfl inUse) used
  · exact matched.log

theorem Matches.adopt (running : (d.proc me).state = .RUNNING) :
    ∃ a', Family.step initproc a (.adopt np me) = some a' ∧
      Matches { d with parent := update d.parent np (some me) } a' := by
  have stage : a.stage np = .embryo := by rw [matched.stage, embryo]; rfl
  have alive : a.stage me = .alive := by rw [matched.stage, running]; rfl
  refine ⟨_, if_pos ⟨stage, alive⟩, ?_⟩
  refine { matched with parent := ?_ }
  rw [matched.parent]

theorem Matches.ready (running : (d.proc me).state = .RUNNING) (mine : d.parent np = some me) :
    ∃ a', Family.step initproc a (.ready np me) = some a' ∧
      Matches { d.setProc np { d.proc np with state := .RUNNABLE } with
        log := .fork (d.proc me).pid (d.proc np).pid :: d.log } a' := by
  have stage : a.stage np = .embryo := by rw [matched.stage, embryo]; rfl
  have alive : a.stage me = .alive := by rw [matched.stage, running]; rfl
  refine ⟨_, if_pos ⟨stage, alive, by rw [matched.parent, mine]⟩, ?_⟩
  constructor
  · intro i
    exact matched.stage_set i rfl rfl
  · exact matched.parent
  · exact matched.next
  · exact matched.nextpid
  · intro i used
    exact matched.pid_set i (fun _ => matched.pid np (by simp [stage])) used
  · rw [List.map_cons, matched.log, matched.pid me (by simp [alive]),
      matched.pid np (by simp [stage])]
    rfl

end

theorem Matches.exit (running : (d.proc me).state = .RUNNING) (other : me ≠ initproc) :
    ∃ a', Family.step initproc a (.exit me) = some a' ∧ Matches (d.exit me) a' := by
  have alive : a.stage me = .alive := by rw [matched.stage, running]; rfl
  refine ⟨_, if_pos ⟨alive, other⟩, ?_⟩
  have stages : ∀ i, update a.stage me .zombie i = stageOf ((d.exit me).proc i).state := by
    intro i
    by_cases same : i = me
    · subst same
      rw [update_self, exit_state_self]
      rfl
    · rw [update_of_ne same, (exit_other same).mild.stage]
      exact matched.stage i
  constructor
  · exact stages
  · ext1 j
    rw [exit_parent, matched.parent]
  · exact matched.next
  · exact matched.nextpid
  · intro i used
    rw [exit_pid]
    apply matched.pid i
    by_cases same : i = me
    · simp [same, alive]
    · rwa [← update_of_ne same Stage.zombie a.stage]
  · rw [exit_log, matched.log, matched.pid me (by simp [alive])]
    rfl

theorem Matches.reap {child : Slot} (running : (d.proc me).state = .RUNNING)
    (zombie : (d.proc child).state = .ZOMBIE) (mine : d.parent child = some me) :
    ∃ a', Family.step initproc a (.reap me child) = some a' ∧ Matches (d.reap me child) a' := by
  have stage : a.stage child = .zombie := by rw [matched.stage, zombie]; rfl
  have alive : a.stage me = .alive := by rw [matched.stage, running]; rfl
  refine ⟨_, if_pos ⟨stage, alive, by rw [matched.parent, mine]⟩, ?_⟩
  constructor
  · intro i
    exact matched.stage_set i rfl rfl
  · rw [matched.parent]
    rfl
  · exact matched.next
  · exact matched.nextpid
  · intro i used
    exact matched.pid_set i (fun inUse => absurd rfl inUse) used
  · show _ :: d.log = List.map _ (_ :: a.log)
    rw [List.map_cons, matched.log, matched.pid me (by simp [alive]),
      matched.pid child (by simp [stage])]
    rfl

end

variable [Zero F] [One F] [Add F] {tenth : F} {b : Body F}

/-- **Every step is one event of the family, or none.** -/
theorem Effect.matches (effect : Effect d b) (ran : b.run tenth d = some d')
    (matched : Matches d a) :
    Matches d' a ∨ ∃ e a', Family.step initproc a e = some a' ∧ Matches d' a' := by
  cases effect with
  | mild mild =>
    have mild := Body.run_mild mild ran
    exact .inl (matched.calm (fun i => ⟨(mild.proc i).stage, (mild.proc i).pid⟩) mild.parent
      mild.nextpid mild.born mild.log)
  | tidy me running =>
    cases ran
    exact .inl (matched.set_calm rfl rfl)
  | sleep me chan running | yield me running =>
    cases ran
    exact .inl (matched.set_calm (by rw [running]; rfl) rfl)
  | dispatch p runnable =>
    cases ran
    exact .inl (matched.set_calm (by rw [runnable]; rfl) rfl)
  | alloc np unused =>
    cases ran
    exact .inr ⟨_, matched.alloc unused⟩
  | abandon np embryo =>
    cases ran
    exact .inr ⟨_, matched.abandon embryo⟩
  | adopt np me embryo running =>
    cases ran
    exact .inr ⟨_, matched.adopt embryo running⟩
  | ready np me embryo running mine =>
    cases ran
    exact .inr ⟨_, matched.ready embryo running mine⟩
  | exit me running other =>
    cases ran
    exact .inr ⟨_, matched.exit running other⟩
  | reap me child running zombie mine =>
    cases ran
    exact .inr ⟨_, matched.reap running zombie mine⟩

end Matches

/-! ## Runs -/

section Runs

/-- The machine and the family it stands for. -/
structure Refines (s : State C F) (a : Family.State Slot) : Prop where
  placed : Placed s.control s.data
  kin : Kin s.control s.data
  waits : Waits s.control s.data
  matched : Matches s.data a

variable {s : State C F}

theorem Refines.pid_injective {a : Family.State Slot} (refines : Refines s a)
    (tree : Family.Tree initproc a) (few : s.data.born < 2 ^ 31)
    (used : (s.data.proc i).state ≠ .UNUSED) (used' : (s.data.proc j).state ≠ .UNUSED)
    (same : (s.data.proc i).pid = (s.data.proc j).pid) : i = j := by
  have matched := refines.matched
  have busy : ∀ {i}, (s.data.proc i).state ≠ .UNUSED → a.stage i ≠ .free := by
    intro i used
    rw [matched.stage]
    cases state : (s.data.proc i).state with
    | UNUSED => exact absurd state used
    | _ => simp [stageOf]
  have small : ∀ {i}, (s.data.proc i).state ≠ .UNUSED → a.name i < 2 ^ 32 := by
    intro i used
    have below := tree.below i (busy used)
    have next := matched.next
    omega
  rw [matched.pid i (busy used), matched.pid j (busy used')] at same
  exact tree.distinct i j (busy used) (busy used') (pidOf_injOn (small used) (small used') same)

variable [DecidableEq C] [Zero F] [One F] [Add F]

omit [DecidableEq C] [Add F] in
theorem Start.refines (start : Start s) : ∃ a, (Family.system initproc).start a ∧ Refines s a := by
  have points : ∀ i, s.control.pc i = .forkret ∧ i = initproc ∨
      s.control.pc i = .dead ∧ i ≠ initproc := by
    intro i
    by_cases first : i = initproc
    · exact .inl ⟨first ▸ start.init, first⟩
    · exact .inr ⟨start.others i first, first⟩
  refine ⟨⟨fun i => if i = initproc then .alive else .free, fun _ => 1, fun _ => none, 2, []⟩,
    ⟨by simp, fun i other => by simp [other], fun _ => rfl, rfl, rfl⟩, start.placed, ?_, ?_, ?_⟩
  · constructor
    · intro i exits
      rcases points i with ⟨here, -⟩ | ⟨-, other⟩
      · rw [here] at exits
        cases exits
      · exact other
    · intro i np adopted
      rcases points i with ⟨here, -⟩ | ⟨here, -⟩ <;> rw [here] at adopted <;> cases adopted
  · intro i waiting
    rcases points i with ⟨here, -⟩ | ⟨here, -⟩ <;> rw [here] at waiting <;> cases waiting
  · rw [start.data]
    constructor
    · intro i
      by_cases first : i = initproc
      · simp [booted, first, stageOf]
      · simp [booted, first, stageOf]
    · rfl
    · rfl
    · rfl
    · intro i used
      have first : i = initproc := by
        by_contra other
        simp [other] at used
      rw [first]
      rfl
    · rfl

variable [Mul F] [IntCast F] [LT F] [DecidableLT F]

/-- **The machine refines the family**, whatever the run. -/
theorem reach_refines {tenth : F} {ok : State C F → Event C F → Prop}
    (reached : (system C tenth).Reach ok s) :
    ∃ a, (Family.system initproc).Reachable a ∧ Refines s a := by
  refine System.Reach.simulate ?_ ?_ reached
  · intro s initial
    exact Start.refines initial
  intro s e s' a reachedA refines _ stepped
  obtain ⟨b, moved, ran⟩ := next_eq_some stepped
  have moves := moves_of_move moved
  have walks := moves.walks refines.placed
  have tree := Family.reach_tree reachedA
  have loopless : ∀ i, s.data.parent i ≠ some i := by
    rw [← refines.matched.parent]
    exact tree.loopless
  have placed := moves.placed ran refines.placed
  have kin := walks.kin refines.placed refines.kin ran
  have waits := walks.waits refines.placed refines.kin loopless refines.waits ran
  rcases (walks.effect refines.placed refines.kin).matches ran refines.matched with
    same | ⟨event, a', next, matched⟩
  · exact .inl ⟨placed, kin, waits, same⟩
  · exact .inr ⟨event, a', next, placed, kin, waits, matched⟩

/-- **The process tree.** In every state that runs of fewer than 2^31 forks reach, whatever their
order and on any number of CPUs:

* the pids of the entries in use are distinct;
* every process but `initproc` has a parent that is neither UNUSED nor ZOMBIE;
* nobody who sleeps in `wait` has a zombie child;
* the log is lawful: a process that exits is reported at most once, by its parent or, if that
  exited first, by `initproc`, whose pid is 1. -/
theorem process_tree_runs {tenth : F} {s : State C F} (reached : (system C tenth).Reachable s)
    (few : s.data.born < 2 ^ 31) :
    (∀ i j, (s.data.proc i).state ≠ .UNUSED → (s.data.proc j).state ≠ .UNUSED →
        (s.data.proc i).pid = (s.data.proc j).pid → i = j) ∧
      (∀ i, i ≠ initproc → (s.data.proc i).state ≠ .UNUSED → (s.data.proc i).state ≠ .EMBRYO →
        ∃ p, s.data.parent i = some p ∧
          (s.data.proc p).state ≠ .UNUSED ∧ (s.data.proc p).state ≠ .ZOMBIE) ∧
      (∀ i, s.control.pc i = .waitBack → (s.data.proc i).state = .SLEEPING →
        ∀ j, s.data.parent j = some i → (s.data.proc j).state ≠ .ZOMBIE) ∧
      (s.data.proc initproc).pid = 1 ∧ Lawful 1 s.data.log := by
  obtain ⟨a, reachedA, refines⟩ := reach_refines reached
  have tree := Family.reach_tree reachedA
  have matched := refines.matched
  refine ⟨fun i j => refines.pid_injective tree few, ?_, ?_, ?_, ?_⟩
  · intro i other used grown
    have formed : Family.Formed a i := by
      unfold Family.Formed
      rw [matched.stage]
      cases state : (s.data.proc i).state with
      | UNUSED => exact absurd state used
      | EMBRYO => exact absurd state grown
      | ZOMBIE => exact .inr rfl
      | _ => exact .inl rfl
    obtain ⟨p, parent, alive, -⟩ := tree.lineage i other formed
    refine ⟨p, matched.parent ▸ parent, ?_, ?_⟩
    · intro unused
      rw [matched.stage, unused] at alive
      cases alive
    · intro zombie
      rw [matched.stage, zombie] at alive
      cases alive
  · intro i here asleep
    exact (refines.waits i here asleep).2
  · rw [matched.pid initproc (by simp [tree.first.1]), tree.first.2]
    rfl
  · have known : ∀ deed ∈ a.log, deed.All (· ∈ {n | n < 2 ^ 32}) := by
      intro deed inside
      refine (tree.known deed inside).mono fun n small => ?_
      have next := matched.next
      show n < 2 ^ 32
      omega
    rw [matched.log]
    exact tree.lawful.map pidOf_injOn known

end Runs

/-! ## A run -/

/-- After `forkEvents`, `init` waits on CPU 1 while the child exits on CPU 2. -/
def exitEvents : List (Event (Fin NCPU) ℚ) :=
  forkEvents ++ [.call 1 .wait, .advance 1, .advance 1, .advance 1, .call 2 .exit, .advance 2,
    .advance 2, .advance 2, .advance 1, .advance 1, .advance 1, .advance 1]

@[irreducible] def reported : State (Fin NCPU) ℚ :=
  ((system (Fin NCPU) (1 / 10)).run atBoot exitEvents).getD atBoot

theorem process_tree_reported :
    reported.data.log = [.report 1 2, .exit 2, .fork 1 2] ∧ Lawful 1 reported.data.log := by
  have reached : (system (Fin NCPU) (1 / 10 : ℚ)).Reachable reported := by
    unfold reported
    apply System.Reach.run_getD (.start atBoot_start) (System.admits_true _ _ _)
    decide +kernel
  have few : reported.data.born < 2 ^ 31 := by decide +kernel
  obtain ⟨-, -, -, -, lawful⟩ := process_tree_runs reached few
  exact ⟨by decide +kernel, lawful⟩

end Xv6.Procs
