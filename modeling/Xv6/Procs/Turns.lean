/-
# Xv6.Procs.Turns -- what a thread does to the lock, its embryo and the states

A turn of a thread is read here in three ways, each by one pass over the points: whether the lock
goes with it (`Turn.fits`), what becomes of the embryo the thread owns (`Turn.custody`), and which
processes start or stop running (`Turn.running`, `Turn.parked`). The invariants of the machine use
these and never look at a point again.
-/
import Xv6.Procs.Machine

namespace Xv6.Procs
open Lib Sched
open Sched.Smp (Pickable)
set_option autoImplicit false

variable {F : Type}

/-! ## Points -/

/-- The embryo a thread in `fork` has to give back or to set running. -/
def Point.owns : Point F → Option Slot
  | .forkKalloc np | .forkCopy np | .forkReady np | .forkRunnable np => some np
  | .yieldLock rest | .yieldBody rest | .yieldBack rest => rest.owns
  | _ => none

/-- The embryo, once it has a kernel stack to start on. -/
def Point.made : Point F → Option Slot
  | .forkCopy np | .forkReady np | .forkRunnable np => some np
  | .yieldLock rest | .yieldBody rest | .yieldBack rest => rest.made
  | _ => none

/-- A trap is taken only where interrupts are on. -/
def Point.sane : Point F → Bool
  | .yieldLock rest | .yieldBody rest | .yieldBack rest => rest.preemptible
  | _ => true

variable {p : Point F} {me : Slot} {p' : Proc F} {d : Ptable F}

theorem Point.owns_of_made {np : Slot} (made : p.made = some np) : p.owns = some np := by
  induction p with
  | forkCopy np | forkReady np | forkRunnable np => exact made
  | yieldLock rest ih | yieldBody rest ih | yieldBack rest ih => exact ih made
  | _ => cases made

theorem Point.preemptible_holds (preemptible : p.preemptible = true) : p.holds = false := by
  cases p <;> first | rfl | cases preemptible

theorem Point.preemptible_sane (preemptible : p.preemptible = true) : p.sane = true := by
  cases p <;> first | rfl | cases preemptible

/-- What holds of the few points a call can start at holds of the one it does start at. -/
theorem Call.entry_elim {P : Point F → Prop} {call : Call F} (allowed : call.allowed me = true)
    (user : P .user) (lock : ∀ sec, P (.lock sec)) (fork : P .forkAlloc)
    (exit : me ≠ initproc → P .exitLock) (wait : P .waitLock) (sleep : ∀ chan, P (.sleepLock chan)) :
    P call.entry := by
  cases call with
  | enter sec =>
    cases sec with
    | changeQueue pid newQueue =>
      simp only [Call.entry]
      split
      · exact user
      · exact lock _
    | _ => exact lock _
  | fork => exact fork
  | exit => exact exit (by simpa [Call.allowed] using allowed)
  | wait => exact wait
  | sleep chan => exact sleep chan

/-- The lock operation of a step accounts for the locks its points hold. -/
def LockOp.Fits : LockOp → Bool → Bool → Prop
  | .keep, before, after => after = before
  | .take, before, after => before = false ∧ after = true
  | .drop, before, after => before = true ∧ after = false
  | .swtch, before, after => before = true ∧ after = true

/-- The stores that move no embryo. -/
def Body.plain : Body F → Bool
  | .alloc _ | .fresh _ | .abandon _ | .ready _ _ => false
  | _ => true

/-- What a turn does to the embryo its thread owns goes with what it stores. -/
inductive Custody (d : Ptable F) (me : Slot) (p q : Point F) : Body F → Prop where
  | alloc (np : Slot) (unused : (d.proc np).state = .UNUSED) (owns' : q.owns = some np)
      (made' : q.made = none) : Custody d me p q (.alloc np)
  | fresh (np : Slot) (owns : p.owns = some np) (owns' : q.owns = some np)
      (made' : q.made = some np) : Custody d me p q (.fresh np)
  | abandon (np : Slot) (owns : p.owns = some np) (owns' : q.owns = none) :
      Custody d me p q (.abandon np)
  | ready (np : Slot) (made : p.made = some np) (owns' : q.owns = none) :
      Custody d me p q (.ready np me)
  | keeps {b : Body F} (plain : b.plain = true) (owns : q.owns = p.owns) (made : q.made = p.made) :
      Custody d me p q b

section Turn

variable {d : Ptable F} {me : Slot} {p q : Point F} {op : LockOp} {b : Body F}

theorem Turn.fits (turn : Turn d me p op q b) (sane : p.sane = true) :
    op.Fits p.holds q.holds := by
  cases turn with
  | call call allowed =>
    exact Call.entry_elim (P := fun q => q.holds = false) allowed rfl (fun _ => rfl) rfl
      (fun _ => rfl) rfl (fun _ => rfl)
  | preempt p preemptible => exact (Point.preemptible_holds preemptible).symm
  | yieldBack rest => exact ⟨rfl, Point.preemptible_holds sane⟩
  | _ => first | rfl | exact ⟨rfl, rfl⟩

theorem Turn.sane (turn : Turn d me p op q b) (sane : p.sane = true) : q.sane = true := by
  cases turn with
  | call call allowed =>
    exact Call.entry_elim (P := fun q => q.sane = true) allowed rfl (fun _ => rfl) rfl
      (fun _ => rfl) rfl (fun _ => rfl)
  | preempt p preemptible => exact preemptible
  | yieldLock rest | yieldBody rest => exact sane
  | yieldBack rest => exact Point.preemptible_sane sane
  | _ => rfl

theorem Turn.custody (turn : Turn d me p op q b) : Custody d me p q b := by
  cases turn with
  | call call allowed =>
    have light : call.entry.owns = none ∧ call.entry.made = none :=
      Call.entry_elim (P := fun q => q.owns = none ∧ q.made = none) allowed ⟨rfl, rfl⟩
        (fun _ => ⟨rfl, rfl⟩) ⟨rfl, rfl⟩ (fun _ => ⟨rfl, rfl⟩) ⟨rfl, rfl⟩ (fun _ => ⟨rfl, rfl⟩)
    exact .keeps rfl light.1 light.2
  | forkScan np found => exact .alloc np (unusedSlot_some found) rfl rfl
  | noStack np | noMemory np => exact .abandon np rfl rfl
  | forkKalloc np => exact .fresh np rfl rfl rfl
  | forkRunnable np => exact .ready np rfl rfl
  | _ => exact .keeps rfl rfl rfl

end Turn

/-! ## What a store does to the states -/

/-- The process could be picked, now or once it is woken. -/
def Parked (p : Proc F) : Prop := p.state = .RUNNABLE ∨ p.state = .SLEEPING

/-- No process starts or stops running, and no embryo comes or goes. -/
structure Quiet (d d' : Ptable F) : Prop where
  running : ∀ i, (d'.proc i).state = .RUNNING ↔ (d.proc i).state = .RUNNING
  embryo : ∀ i, (d'.proc i).state = .EMBRYO ↔ (d.proc i).state = .EMBRYO
  parked : ∀ i, Parked (d'.proc i) → Parked (d.proc i)

theorem Mild.running {p : Proc F} (mild : Mild p p') :
    p'.state = .RUNNING ↔ p.state = .RUNNING := by
  rcases mild.state with same | ⟨asleep, awake⟩
  · rw [same]
  · simp [asleep, awake]

theorem Mild.embryo {p : Proc F} (mild : Mild p p') : p'.state = .EMBRYO ↔ p.state = .EMBRYO := by
  rcases mild.state with same | ⟨asleep, awake⟩
  · rw [same]
  · simp [asleep, awake]

theorem Mild.parked {p : Proc F} (mild : Mild p p') (parked : Parked p') : Parked p := by
  rcases mild.state with same | ⟨asleep, awake⟩
  · rwa [Parked, same] at parked
  · exact .inr asleep

theorem Ptable.Mild.quiet {d' : Ptable F} (mild : d.Mild d') : Quiet d d' :=
  ⟨fun i => (mild.proc i).running, fun i => (mild.proc i).embryo, fun i => (mild.proc i).parked⟩

/-- The process `me` gives up its CPU. -/
structure Off (d d' : Ptable F) (me : Slot) : Prop where
  self : (d'.proc me).state ≠ .RUNNING ∧ (d'.proc me).state ≠ .EMBRYO
  others : ∀ i, i ≠ me → Mild (d.proc i) (d'.proc i)

theorem off_set {p : Proc F} (stopped : p.state ≠ .RUNNING) (grown : p.state ≠ .EMBRYO) :
    Off d (d.setProc me p) me := by
  constructor
  · rw [Ptable.setProc_proc, if_pos rfl]
    exact ⟨stopped, grown⟩
  · intro i other
    rw [Ptable.setProc_proc, if_neg other]
    exact .refl _

/-- A store that leaves the states as they are. -/
theorem quiet_of_state {d' : Ptable F} (same : ∀ i, (d'.proc i).state = (d.proc i).state) :
    Quiet d d' := by
  constructor
  · intro i
    rw [same]
  · intro i
    rw [same]
  · intro i parked
    rwa [Parked, same] at parked

theorem quiet_reap {child : Slot} (zombie : (d.proc child).state = .ZOMBIE) :
    Quiet d (d.reap me child) := by
  have entry : ∀ i, ((d.reap me child).proc i).state =
      if i = child then .UNUSED else (d.proc i).state := by
    intro i
    change ((d.setProc child _).proc i).state = _
    rw [Ptable.setProc_proc]
    split <;> rfl
  constructor
  · intro i
    rw [entry]
    split
    next same => simp [same, zombie]
    next => rfl
  · intro i
    rw [entry]
    split
    next same => simp [same, zombie]
    next => rfl
  · intro i
    rw [Parked, entry]
    split
    next same => simp
    next => exact id

section Turn

variable [Zero F] [One F] [Add F] {tenth : F} {d d' : Ptable F} {me : Slot} {p q : Point F}
  {op : LockOp} {b : Body F}

/-- A turn that keeps its CPU changes no process between running and not running. -/
theorem Turn.quiet (turn : Turn d me p op q b) (stays : op ≠ .swtch) (plain : b.plain = true)
    (ran : b.run tenth d = some d') : Quiet d d' := by
  have mild : b.mild = true → Quiet d d' := fun mild => (Body.run_mild mild ran).quiet
  cases turn with
  | forkCopy np =>
    cases ran
    exact quiet_of_state fun i => rfl
  | waitReap child found =>
    cases ran
    exact quiet_reap (zombieChild_some found).2
  | waitBack | sleepBack =>
    cases ran
    apply quiet_of_state
    intro i
    rw [Ptable.setProc_proc]
    split
    next same => rw [same]
    next => rfl
  | _ => first | exact mild rfl | exact absurd rfl stays | cases plain

/-- A turn that goes through `sched` leaves its own process not running. -/
theorem Turn.off (turn : Turn d me p .swtch q b) (ran : b.run tenth d = some d') :
    b.plain = true ∧ Off d d' me := by
  cases turn with
  | exitBody =>
    cases ran
    refine ⟨rfl, ?_, fun i other => (Ptable.exit_other other).mild⟩
    simp
  | waitSleep missing | sleepBody chan | yieldBody rest =>
    cases ran
    exact ⟨rfl, off_set (by simp) (by simp)⟩

variable {i : Slot}

section

variable (turn : Turn d me p op q b) (ran : b.run tenth d = some d')
include turn ran

/-- A turn starts or stops no process, its own apart when it gives up its CPU. -/
theorem Turn.running (embryo : ∀ np, p.owns = some np → (d.proc np).state = .EMBRYO)
    (stays : op = .swtch → i ≠ me) :
    (d'.proc i).state = .RUNNING ↔ (d.proc i).state = .RUNNING := by
  -- an entry that was and is not running
  have store : ∀ {np : Slot} {x : Proc F} {e : Ptable F}, e.proc = (d.setProc np x).proc →
      (d.proc np).state ≠ .RUNNING → x.state ≠ .RUNNING →
      ((e.proc i).state = .RUNNING ↔ (d.proc i).state = .RUNNING) := by
    intro np x e same before after
    rw [same, Ptable.setProc_proc]
    split
    next here => simp [here, before, after]
    next => rfl
  cases turn.custody with
  | alloc np unused owns' made' =>
    cases ran
    exact store rfl (by simp [unused]) (by simp)
  | fresh np owns owns' made' => exact ((Body.run_mild rfl ran).proc i).running
  | abandon np owns owns' =>
    cases ran
    exact store rfl (by simp [embryo np owns]) (by simp)
  | ready np made owns' =>
    cases ran
    exact store rfl (by simp [embryo np (Point.owns_of_made made)]) (by simp)
  | keeps plain owns made =>
    by_cases leaves : op = .swtch
    · subst leaves
      exact ((turn.off ran).2.others i (stays rfl)).running
    · exact (turn.quiet leaves plain ran).running i

/-- A turn that moves no embryo leaves every embryo one. -/
theorem Turn.embryo (plain : b.plain = true) (embryo : (d.proc i).state = .EMBRYO)
    (running : (d.proc me).state = .RUNNING) : (d'.proc i).state = .EMBRYO := by
  by_cases leaves : op = .swtch
  · subst leaves
    have other : i ≠ me := by
      rintro rfl
      rw [running] at embryo
      cases embryo
    exact ((turn.off ran).2.others i other).embryo.mpr embryo
  · exact ((turn.quiet leaves plain ran).embryo i).mpr embryo

/-- A process that a turn makes fit to be picked was so before, or is the embryo of a `fork`. -/
theorem Turn.parked (other : i ≠ me) (parked : Parked (d'.proc i)) :
    Parked (d.proc i) ∨ p.made = some i := by
  cases turn.custody with
  | alloc np unused owns' made' =>
    cases ran
    change Parked ((d.setProc np _).proc i) at parked
    rw [Ptable.setProc_proc] at parked
    split at parked
    · simp [Parked] at parked
    · exact .inl parked
  | fresh np owns owns' made' => exact .inl (((Body.run_mild rfl ran).proc i).parked parked)
  | abandon np owns owns' =>
    cases ran
    rw [Ptable.setProc_proc] at parked
    split at parked
    · simp [Parked] at parked
    · exact .inl parked
  | ready np made owns' =>
    cases ran
    rw [Ptable.setProc_proc] at parked
    split at parked
    next here =>
      subst here
      exact .inr made
    next => exact .inl parked
  | keeps plain owns made =>
    by_cases leaves : op = .swtch
    · subst leaves
      exact .inl (((turn.off ran).2.others i other).parked parked)
    · exact .inl ((turn.quiet leaves plain ran).parked i parked)

end

end Turn

end Xv6.Procs
