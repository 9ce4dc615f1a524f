/-
# Xv6.Procs.Queues -- the scheduler sees every runnable process

The selectors look at three queues. Between the store that makes a child RUNNABLE and `init_queue`
the child is in none of them, and the `fork` that made it owes it a queue; otherwise a live process
is in one of the three (`Queued`), as long as `sys_chqueue` is not asked to put one anywhere else.
It stores whatever integer it is given, and no selector looks at a fourth queue.

`init_queue` finds the child by its pid. It refuses a pid that is not positive, and would stop at
another entry with the same one, so this also needs that `nextpid` has not wrapped.
-/
import Xv6.Procs.Pids

namespace Xv6.Procs
open Lib Sched
open Sched.Smp (freshSched Pickable)
set_option autoImplicit false

variable {F : Type}

/-- One of the three queues of the scheduler. -/
def ValidQueue (queue : Int) : Prop := queue = ROUND_ROBIN ∨ queue = LCFS ∨ queue = BJF
deriving Decidable

/-- Inside `fork`. -/
def Point.inFork : Point F → Bool
  | .forkAlloc | .forkScan | .forkKalloc _ | .forkCopy _ | .forkReady _ | .forkRunnable _
  | .forkStamp _ | .forkQueue _ | .forkQueued _ => true
  | .yieldLock rest | .yieldBody rest | .yieldBack rest => rest.inFork
  | _ => false

/-- The thread is in the `fork` that still has to put `j` in a queue. -/
def Point.Owes (d : Ptable F) (j : Slot) : Point F → Prop
  | .forkStamp np => np = j
  | .forkQueue pid | .forkQueued pid => pid = (d.proc j).pid
  | .yieldLock rest | .yieldBody rest | .yieldBack rest => rest.Owes d j
  | _ => False

variable {j : Slot} {d : Ptable F} {p : Point F}

theorem Point.Owes.inFork (owes : p.Owes d j) : p.inFork = true := by
  induction p with
  | forkStamp np | forkQueue pid | forkQueued pid => rfl
  | yieldLock rest ih | yieldBody rest ih | yieldBack rest ih => exact ih owes
  | _ => cases owes

/-- Only the pid matters. -/
theorem Point.Owes.congr {d' : Ptable F} (same : (d'.proc j).pid = (d.proc j).pid)
    (owes : p.Owes d j) : p.Owes d' j := by
  induction p with
  | forkStamp np => exact owes
  | forkQueue pid | forkQueued pid => exact Eq.trans owes same.symm
  | yieldLock rest ih | yieldBody rest ih | yieldBack rest ih => exact ih owes
  | _ => cases owes

/-- A `fork` pays what it owes, or goes on owing it. -/
theorem Turn.owes {me : Slot} {q : Point F} {op : LockOp} {b : Body F} (turn : Turn d me p op q b)
    (owes : p.Owes d j) (positive : 0 < (d.proc j).pid) :
    (q.Owes d j ∧ ∀ x, b ≠ .exit x) ∨ b = .initQueue (d.proc j).pid := by
  cases turn with
  | forkStamp np positive' =>
    cases owes
    exact .inl ⟨rfl, by simp⟩
  | forkStray np negative =>
    cases owes
    exact absurd positive negative
  | forkQueued pid =>
    cases owes
    exact .inr rfl
  | forkQueue pid | yieldLock rest | yieldBody rest | yieldBack rest =>
    exact .inl ⟨owes, by simp⟩
  | preempt p preemptible => exact .inl ⟨owes, by simp⟩
  | _ => cases owes

/-! ## What a step does to the queues -/

section Effect

variable [Zero F] [One F] [Add F] {tenth : F} {d d' : Ptable F} {b : Body F}

/-- Which stores move a process between queues. -/
theorem Body.queue (ran : b.run tenth d = some d') (j : Slot) :
    (d'.proc j).sched.queue = (d.proc j).sched.queue ∨
      (∃ pid newQueue, b = .enter (.changeQueue pid newQueue) ∧ newQueue ≠ UNSET ∧
        findPid d.proc pid = some j ∧ (d'.proc j).sched.queue = newQueue) ∨
      b = .fresh j ∨ (d'.proc j).sched.queue = ROUND_ROBIN := by
  let queue (p : Proc F) : Int := p.sched.queue
  cases b with
  | enter sec =>
    cases sec with
    | wakeup chan =>
      cases ran
      exact .inl (congrArg SchedParams.queue (wakeup1_woken d.proc chan j).sched)
    | kill pid =>
      cases ran
      exact .inl (atPid_keeps queue d.proc pid markKilled j fun _ => rfl)
    | changeQueue pid newQueue =>
      cases ran
      by_cases unset : newQueue = UNSET
      · left
        rw [Procs.changeQueue, if_pos unset]
      · have entry := changeQueue_apply d.ticks d.proc pid unset j
        by_cases found : findPid d.proc pid = some j
        · right; left
          refine ⟨pid, newQueue, rfl, unset, found, ?_⟩
          show ((Procs.changeQueue d.ticks d.proc pid newQueue).1 j).sched.queue = _
          rw [entry, if_pos found]
          rfl
        · left
          show ((Procs.changeQueue d.ticks d.proc pid newQueue).1 j).sched.queue = _
          rw [entry, if_neg found]
    | setBjsProc pid ratios =>
      cases ran
      exact .inl (atPid_keeps queue d.proc pid (weigh ratios) j fun _ => rfl)
    | setBjsSys ratios =>
      cases ran
      exact .inl rfl
    | aging =>
      simp only [Body.run, Ptable.enter] at ran
      split at ran
      · cases ran
      · cases ran
        exact .inl rfl
  | fresh np =>
    cases ran
    by_cases here : j = np
    · exact .inr (.inr (.inl (by rw [here])))
    · exact .inl (congrArg queue (Ptable.elsewhere rfl here))
  | initQueue pid =>
    cases ran
    by_cases positive : 0 < pid
    · have entry := initQueue_apply d.proc positive j
      by_cases found : findPid d.proc pid = some j
      · right; right; right
        show ((Procs.initQueue d.proc pid).1 j).sched.queue = _
        rw [entry, if_pos found]
      · left
        show ((Procs.initQueue d.proc pid).1 j).sched.queue = _
        rw [entry, if_neg found]
    · left
      rw [Procs.initQueue, if_neg positive]
  | exit me =>
    cases ran
    left
    by_cases self : j = me
    · subst self
      have woken := congrArg SchedParams.queue (Ptable.orphaned_woken d j j).sched
      simpa [Ptable.exit_eq, Table.set] using woken
    · exact congrArg SchedParams.queue (Ptable.exit_other self).sched
  | skip | tick | adopt np me =>
    cases ran
    exact .inl rfl
  | _ =>
    cases ran
    exact .inl (Ptable.keeps queue rfl rfl)

end Effect

/-! ## The invariant -/

variable {C : Type}

/-- A live process is in one of the three queues, or a live `fork` owes it one. -/
def Queued (k : Control C F) (d : Ptable F) : Prop :=
  ∀ j, Alive (d.proc j) →
    ValidQueue (d.proc j).sched.queue ∨ ∃ i, Alive (d.proc i) ∧ (k.pc i).Owes d j

/-- What `sys_chqueue` and `allocproc` have to find: a live process is moved to one of the three
queues only, and the next pid is positive. -/
def Listed (d : Ptable F) : Body F → Bool
  | .enter (.changeQueue pid newQueue) =>
    newQueue = UNSET ∨ ValidQueue newQueue ∨ ∀ i, findPid d.proc pid = some i → ¬ Alive (d.proc i)
  | .alloc _ => 0 < d.nextpid.toInt
  | _ => true

section Step

variable [Zero F] [One F] [Add F] {tenth : F} {k k' : Control C F} {d d' : Ptable F} {b : Body F}

/-- A process in a queue stays in one. -/
theorem Walks.valid (walks : Walks k k' d b) (placed : Placed k d) (ran : b.run tenth d = some d')
    (listed : Listed d b = true) (alive : Alive (d.proc j))
    (valid : ValidQueue (d.proc j).sched.queue) : ValidQueue (d'.proc j).sched.queue := by
  rcases Body.queue ran j with same | ⟨pid, newQueue, rfl, set, found, queue⟩ | rfl | first
  · rwa [same]
  · rw [queue]
    rcases of_decide_eq_true listed with unset | valid | dead
    · exact absurd unset set
    · exact valid
    · exact absurd alive (dead j found)
  · -- `allocproc` resets an embryo
    cases walks with
    | still pc body => cases body
    | turn me running turn self others =>
      have embryo := placed.owners.fresh turn rfl
      rw [Alive, embryo] at alive
      cases alive
  · exact .inl first

/-- `init_queue` finds the process it is called for. -/
theorem initQueue_valid (apart : Apart d.proc) (positive : 0 < (d.proc j).pid)
    (ran : (Body.initQueue (d.proc j).pid).run tenth d = some d') :
    ValidQueue (d'.proc j).sched.queue := by
  have found : findPid d.proc (d.proc j).pid = some j := by
    obtain ⟨i, found⟩ := Option.isSome_iff_exists.mp (findPid_isSome_iff.mpr ⟨j, rfl⟩)
    have same := findPid_some found
    rwa [apart.distinct i j (by omega) same] at found
  cases ran
  left
  show ((Procs.initQueue d.proc (d.proc j).pid).1 j).sched.queue = _
  rw [initQueue_apply d.proc positive, if_pos found]

theorem Walks.queued (walks : Walks k k' d b) (placed : Placed k d) (kin : Kin k d)
    (numbered : Numbered d) (ran : b.run tenth d = some d') (listed : Listed d b = true)
    (queued : Queued k d) : Queued k' d' := by
  have effect := walks.effect placed kin
  intro j alive'
  rcases effect.alive ran alive' with alive | ⟨me, rfl⟩
  · rcases queued j alive with valid | ⟨i, aliveI, owes⟩
    · exact .inl (walks.valid placed ran listed alive valid)
    · have pid := effect.pid_of_alive ran alive
      have positive : 0 < (d.proc j).pid := by
        have issued := (numbered.issued j).1
        have used : (d.proc j).state ≠ .UNUSED := by
          intro unused
          rw [Alive, unused] at alive
          cases alive
        have nonzero := numbered.apart.used j used
        omega
      cases walks with
      | still pc body =>
        refine .inr ⟨i, effect.stays ran aliveI ?_, ?_⟩
        · rintro rfl
          cases body
        · rw [pc]
          exact owes.congr pid
      | turn me running turn self others =>
        by_cases same : i = me
        · subst same
          rcases turn.owes owes positive with ⟨owes', stays⟩ | rfl
          · refine .inr ⟨i, effect.stays ran aliveI (stays i), ?_⟩
            rw [self]
            exact owes'.congr pid
          · exact .inl (initQueue_valid numbered.apart positive ran)
        · rcases others i same with kept | ⟨rfl, -⟩
          · refine .inr ⟨i, effect.stays ran aliveI ?_, ?_⟩
            · rintro rfl
              exact same turn.actor_exit
            · rw [kept]
              exact owes.congr pid
          · have embryo := placed.owners.fresh turn rfl
            rw [Alive, embryo] at aliveI
            cases aliveI
  · -- the new process is owed its queue by the thread that just made it runnable
    cases walks with
    | still pc body => cases body
    | turn me' running turn self others =>
      have actor : me = me' ∧ k'.pc me' = .forkStamp j := by
        generalize k.pc me' = p at turn
        cases turn
        exact ⟨rfl, self⟩
      have alive : Alive (d.proc me') := by
        rw [Alive, running]
        rfl
      refine .inr ⟨me', effect.stays ran alive (by simp), ?_⟩
      rw [actor.2]
      rfl

end Step

/-! ## Runs -/

section Runs

variable [DecidableEq C] [Zero F] [One F] [Add F] [Mul F] [IntCast F] [LT F] [DecidableLT F]

theorem reach_queued {tenth : F} {s : State C F}
    (reached : (system C tenth).Reach (Storing Listed) s) : Queued s.control s.data := by
  induction reached with
  | start initial =>
    intro j alive
    left
    rw [Start.data initial] at alive ⊢
    by_cases first : j = initproc
    · exact .inl (by simp [booted, first])
    · simp [Alive, booted, first, stageOf] at alive
  | step before admitted stepped ih =>
    obtain ⟨a, -, refines⟩ := reach_refines before
    have numbered := reach_numbered (fun d np => of_decide_eq_true) before
    obtain ⟨b, moved, ran⟩ := next_eq_some stepped
    have walks := (moves_of_move moved).walks refines.placed
    exact walks.queued refines.placed refines.kin numbered ran (admitted.of_move moved) ih

/-- **The scheduler sees every runnable process.** In every state of a run whose `sys_chqueue`
calls move live processes to the three queues only, and whose pids stay positive: with no `fork`
under way every RUNNABLE process is in one of the three queues, and if there is one, the scheduler
finds a process whatever it ran last. -/
theorem scheduler_sees_runnable {tenth : F} {s : State C F}
    (reached : (system C tenth).Reach (Storing Listed) s)
    (outside : ∀ i, (s.control.pc i).inFork = false) :
    (∀ i, (s.data.proc i).state = .RUNNABLE → ValidQueue (s.data.proc i).sched.queue) ∧
      ((∃ i, (s.data.proc i).state = .RUNNABLE) →
        ∀ last, (select s.data.proc last).1.isSome = true) := by
  have valid : ∀ i, (s.data.proc i).state = .RUNNABLE →
      ValidQueue (s.data.proc i).sched.queue := by
    intro i runnable
    have alive : Alive (s.data.proc i) := by
      rw [Alive, runnable]
      rfl
    rcases reach_queued reached i alive with valid | ⟨j, -, owes⟩
    · exact valid
    · have inside := owes.inFork
      rw [outside j] at inside
      cases inside
  refine ⟨valid, ?_⟩
  rintro ⟨i, runnable⟩ last
  exact select_isSome_iff.mpr ⟨i, runnable, valid i runnable⟩

end Runs

/-! ## Two runs -/

/-- `init` moves itself to `queue` and is preempted. -/
def requeueEvents (queue : Int) : List (Event (Fin NCPU) ℚ) :=
  [.advance 1, .advance 1, .advance 1, .call 1 (.enter (.changeQueue 1 queue)), .advance 1,
    .advance 1, .preempt 1, .advance 1, .advance 1, .advance 1]

@[irreducible] def requeued (queue : Int) : State (Fin NCPU) ℚ :=
  ((system (Fin NCPU) (1 / 10)).run atBoot (requeueEvents queue)).getD atBoot

theorem scheduler_sees_requeued : ((requeued LCFS).data.proc 0).state = .RUNNABLE ∧
    ∀ last, (select (requeued LCFS).data.proc last).1.isSome = true := by
  have reached : (system (Fin NCPU) (1 / 10 : ℚ)).Reach (Storing Listed) (requeued LCFS) := by
    unfold requeued
    have admitted : (system (Fin NCPU) (1 / 10 : ℚ)).Admits (Storing Listed) atBoot
        (requeueEvents LCFS) := by
      decide +kernel
    apply System.Reach.run_getD (.start atBoot_start) admitted
    decide +kernel
  have outside : ∀ i, ((requeued LCFS).control.pc i).inFork = false := by decide +kernel
  have runnable : ((requeued LCFS).data.proc 0).state = .RUNNABLE := by decide +kernel
  exact ⟨runnable, (scheduler_sees_runnable reached outside).2 ⟨0, runnable⟩⟩

/-- In queue 7, `init` is runnable and the scheduler does not find it. -/
theorem requeue_hides_process :
    (system (Fin NCPU) (1 / 10 : ℚ)).Reachable (requeued 7) ∧
      (requeued 7).control.lock = none ∧ (∀ i, ((requeued 7).control.pc i).inFork = false) ∧
      ((requeued 7).data.proc 0).state = .RUNNABLE ∧
      ∀ last, (select (requeued 7).data.proc last).1 = none := by
  refine ⟨?_, by decide +kernel, by decide +kernel, by decide +kernel, by decide +kernel⟩
  unfold requeued
  apply System.Reach.run_getD (.start atBoot_start) (System.admits_true _ _ _)
  decide +kernel

end Xv6.Procs
