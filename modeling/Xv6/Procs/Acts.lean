/-
# Xv6.Procs.Acts -- what an event does to one thread

`Paces` follows a single thread through an event of the machine: it stays where it is, it is the new
thread of a `fork`, or it runs, and the event is its own (`Acts`). A CPU keeps its thread until that
goes to the scheduler.
-/
import Xv6.Procs.Pids

namespace Xv6.Procs
open Lib Sched Option Function
set_option autoImplicit false

variable {C F : Type}

section Acts

variable {k k' : Control C F} {d : Ptable F} {e : Event C F} {b : Body F} {c : C} {i : Slot}

/-- Where a thread is after an event. -/
inductive Paces (k k' : Control C F) (d : Ptable F) (e : Event C F) (b : Body F) (i : Slot) :
    Prop where
  | kept (same : k'.pc i = k.pc i)
  | started (fresh : b = .fresh i) (embryo : (d.proc i).state = .EMBRYO) (first : k'.pc i = .forkret)
  | acts {c : C} {op : LockOp} (running : k.thread c = some i)
      (acts : Acts d c i (k.pc i) e op (k'.pc i) b)

variable [DecidableEq C]

theorem Acts.paces {me : Slot} {op : LockOp} {q : Point F} (placed : Placed k d)
    (running : k.thread c = some me) (acts : Acts d c me (k.pc me) e op q b)
    (turned : k.turn c me op q b = some k') (i : Slot) : Paces k k' d e b i := by
  have shape := Control.turn_turned turned
  obtain ⟨self, others⟩ := shape.pc placed.seats placed.owners running acts.turn
  by_cases same : i = me
  · subst same
    rw [← self] at acts
    exact .acts running acts
  · rcases others i same with kept | ⟨fresh, first⟩
    · exact .kept kept
    · exact .started fresh (placed.owners.fresh acts.turn fresh) first

variable [Add F] [Mul F] [IntCast F] [LT F] [DecidableLT F]

theorem paces_of_move (placed : Placed k d) (moved : move k d e = some (k', b)) (i : Slot) :
    Paces k k' d e b i := by
  rcases move_cases moved with ⟨-, kept, -⟩ | ⟨c, me, op, q, running, acts, turned⟩
  · exact .kept (congrFun kept i)
  · exact Acts.paces placed running acts turned i

omit [Add F] [Mul F] [IntCast F] [LT F] [DecidableLT F] in
/-- A CPU keeps its thread, unless that gives it up. -/
theorem Moves.stays (moves : Moves k d k' b) (placed : Placed k d) (run : k.ctx c = .run)
    (cur : k.cur c = some i) :
    (k'.ctx c = .run ∧ k'.cur c = some i) ∨ Turn d i (k.pc i) .swtch (k'.pc i) b := by
  have apart : ∀ {e : C} {x : Ctx}, k.ctx e = x → x ≠ .run → c ≠ e := by
    rintro e x here other rfl
    exact other (here.symm.trans run)
  cases moves with
  | schedLock e idle here free | schedIdle e last idle here held =>
    exact .inl ⟨(update_of_ne (apart here (by simp)) _ _).trans run, cur⟩
  | dispatch e p last idle here pickable | schedBack e idle here held =>
    have other := apart here (by simp)
    exact .inl ⟨(update_of_ne other _ _).trans run,
      (update_of_ne other _ _).trans cur⟩
  | thread e me running turn turned =>
    have shape := Control.turn_turned turned
    by_cases same : c = e
    · subst same
      have mine := (Control.thread_eq_some running).2.2
      rw [cur] at mine
      cases mine
      rcases Control.turn_lock turned with ⟨-, -, ctx⟩ | ⟨-, -, -, ctx⟩ | ⟨-, -, -, ctx⟩ | ⟨rfl, -⟩
      · exact .inl ⟨(congrFun ctx c).trans run, (congrFun shape.cur c).trans cur⟩
      · exact .inl ⟨(congrFun ctx c).trans run, (congrFun shape.cur c).trans cur⟩
      · exact .inl ⟨(congrFun ctx c).trans run, (congrFun shape.cur c).trans cur⟩
      · rw [(shape.pc placed.seats placed.owners running turn).1]
        exact .inr turn
    · exact .inl ⟨(shape.ctx c same).trans run, (congrFun shape.cur c).trans cur⟩
  | _ => exact .inl ⟨run, cur⟩

omit [Add F] [Mul F] [IntCast F] [LT F] [DecidableLT F] in
/-- A handler ends with its section. -/
theorem Moves.irq_done (moves : Moves k d k' b) {duty : Duty} (here : k.irq c = .inside duty)
    (done : k'.irq c = .none) : b = .enter duty.work ∧ k.lock = some c := by
  cases moves with
  | interrupt e duty' idle free | irqLock e duty' at' free =>
    simp only [update_apply] at done
    split at done
    · cases done
    · rw [here] at done
      cases done
  | irqDone e duty' at' held =>
    by_cases same : c = e
    · subst same
      rw [here] at at'
      cases at'
      exact ⟨rfl, held⟩
    · have kept : update k.irq e .none c = k.irq c := update_of_ne same _ _
      cases here.symm.trans (kept.symm.trans done)
  | thread e me running turn turned =>
    rw [(Control.turn_turned turned).irq, here] at done
    cases done
  | _ =>
    rw [here] at done
    cases done

omit [DecidableEq C] [Add F] [Mul F] [IntCast F] [LT F] [DecidableLT F] in
/-- A running thread inside a section of `ptable.lock` has the lock. -/
theorem Seats.locked (seats : Seats k d) (run : k.ctx c = .run) (cur : k.cur c = some i)
    (holds : (k.pc i).holds = true) : k.irq c = .none ∧ k.lock = some c := by
  have base : k.base c = true := by simp [Control.base, run, cur, holds]
  have idle : k.irq c = .none := by
    by_contra busy
    rw [seats.under c busy] at base
    cases base
  refine ⟨idle, (seats.lock c).mpr ?_⟩
  rw [Control.holds_of_idle idle, base]

end Acts

end Xv6.Procs
