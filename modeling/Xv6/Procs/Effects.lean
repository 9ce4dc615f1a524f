/-
# Xv6.Procs.Effects -- what each store of `proc.c` keeps

The invariants of the process table read the state, pid, parent and channel of an entry. Most
stores touch none of these except to wake a sleeper: they are `Mild`, and one lemma per invariant
covers them all (`Body.run_mild`). What is left are the ten stores that make a process, end one, or
move it on or off a CPU.

`exit` is the one long section: `exit_eq` gives it in closed form, and `exit_wakes_parent` and
`exit_wakes_init` are what `wait` relies on.
-/
import Xv6.Procs.Table

namespace Xv6.Procs
open Sched Function
open Sched.Smp (freshSched stampFork dispatched Pickable)
set_option autoImplicit false

variable {F : Type}

/-! ## Waking -/

/-- What `wakeup1` may do to an entry. -/
def Woken (p p' : Proc F) : Prop :=
  p' = p ∨ p.state = .SLEEPING ∧ p' = { p with state := .RUNNABLE }

section Woken

variable {p p' p'' : Proc F}

theorem Woken.trans (first : Woken p p') (second : Woken p' p'') : Woken p p'' := by
  rcases first with rfl | ⟨asleep, rfl⟩
  · exact second
  · rcases second with rfl | ⟨again, rfl⟩
    · exact .inr ⟨asleep, rfl⟩
    · cases again

theorem Woken.pid (woken : Woken p p') : p'.pid = p.pid := by
  rcases woken with rfl | ⟨-, rfl⟩ <;> rfl

theorem Woken.chan (woken : Woken p p') : p'.chan = p.chan := by
  rcases woken with rfl | ⟨-, rfl⟩ <;> rfl

theorem Woken.killed (woken : Woken p p') : p'.killed = p.killed := by
  rcases woken with rfl | ⟨-, rfl⟩ <;> rfl

theorem Woken.sched (woken : Woken p p') : p'.sched = p.sched := by
  rcases woken with rfl | ⟨-, rfl⟩ <;> rfl

theorem Woken.state (woken : Woken p p') :
    p'.state = p.state ∨ p.state = .SLEEPING ∧ p'.state = .RUNNABLE := by
  rcases woken with rfl | ⟨asleep, rfl⟩
  · exact .inl rfl
  · exact .inr ⟨asleep, rfl⟩

theorem Woken.asleep (woken : Woken p p') (asleep : p'.state = .SLEEPING) : p' = p := by
  rcases woken with same | ⟨-, rfl⟩
  · exact same
  · cases asleep

end Woken

variable (t : Table F)

theorem wakeupAt_woken (chan : Option Chan) (i : Slot) : Woken (t i) (wakeupAt t chan i) := by
  unfold wakeupAt
  split
  next asleep => exact .inr ⟨asleep.1, rfl⟩
  next => exact .inl rfl

theorem wakeup1_woken (chan : Chan) (i : Slot) : Woken (t i) (wakeup1 t chan i) :=
  wakeupAt_woken t (some chan) i

/-- Nobody is left sleeping on the address. -/
theorem wakeupAt_clears (chan : Option Chan) (i : Slot) :
    ¬ ((wakeupAt t chan i).state = .SLEEPING ∧ (wakeupAt t chan i).chan = chan) := by
  unfold wakeupAt
  split
  next => simp
  next awake => exact awake

theorem wakeup1_idem (chan : Chan) : wakeup1 (wakeup1 t chan) chan = wakeup1 t chan := by
  ext1 i
  have clear := wakeupAt_clears t (some chan) i
  exact if_neg clear

theorem wakeupAt_zombie (chan : Option Chan) (i : Slot) :
    (wakeupAt t chan i).state = .ZOMBIE ↔ (t i).state = .ZOMBIE := by
  rcases (wakeupAt_woken t chan i).state with same | ⟨asleep, awake⟩
  · rw [same]
  · simp [asleep, awake]

/-! ## What `exit` does -/

/-- The loop of `exit` over any part of the table. -/
theorem foldl_reparent (me : Slot) (slots : List Slot) (t : Table F)
    (parent : Slot → Option Slot) :
    slots.foldl (reparent me) (t, parent) =
      (if ∃ p ∈ slots, parent p = some me ∧ (t p).state = .ZOMBIE then
          wakeup1 t (.proc initproc) else t,
        fun j => if j ∈ slots ∧ parent j = some me then some initproc else parent j) := by
  induction slots generalizing t parent with
  | nil => simp
  | cons p rest ih =>
    rw [List.foldl_cons]
    by_cases child : parent p = some me
    · have parents : ∀ j, (if j ∈ rest ∧ update parent p (some initproc) j = some me
          then some initproc else update parent p (some initproc) j) =
          if j ∈ p :: rest ∧ parent j = some me then some initproc else parent j := by
        intro j
        by_cases same : j = p
        · subst same
          simp [child]
        · simp [same]
      by_cases zombie : (t p).state = .ZOMBIE
      · have first : ∃ q ∈ p :: rest, parent q = some me ∧ (t q).state = .ZOMBIE :=
          ⟨p, List.mem_cons_self, child, zombie⟩
        simp only [reparent, if_pos child, if_pos zombie, ih, parents, wakeup1_idem, ite_self,
          if_pos first]
      · have later : (∃ q ∈ rest, update parent p (some initproc) q = some me ∧
            (t q).state = .ZOMBIE) ↔
            ∃ q ∈ p :: rest, parent q = some me ∧ (t q).state = .ZOMBIE := by
          constructor
          · rintro ⟨q, inside, mine, dead⟩
            have other : q ≠ p := fun same => zombie (same ▸ dead)
            rw [update_of_ne other] at mine
            exact ⟨q, List.mem_cons_of_mem p inside, mine, dead⟩
          · rintro ⟨q, inside, mine, dead⟩
            have other : q ≠ p := fun same => zombie (same ▸ dead)
            have inside : q ∈ rest := (List.mem_cons.mp inside).resolve_left other
            rw [← update_of_ne other (some initproc) parent] at mine
            exact ⟨q, inside, mine, dead⟩
        simp only [reparent, if_pos child, if_neg zombie, ih, parents, later]
    · simp only [reparent, if_neg child, ih]
      simp only [List.mem_cons, exists_eq_or_imp, child, false_and, false_or]
      congr 1
      ext1 j
      by_cases same : j = p
      · subst same
        simp [child]
      · simp [same]

namespace Ptable

variable {d : Ptable F} {me j : Slot}

/-- The table after `exit`'s two wake-ups, before its last store. -/
def orphaned (d : Ptable F) (me : Slot) : Table F :=
  let woken := wakeupAt d.proc ((d.parent me).map .proc)
  if ∃ p, d.parent p = some me ∧ (d.proc p).state = .ZOMBIE then
    wakeup1 woken (.proc initproc)
  else
    woken

theorem exit_eq (d : Ptable F) (me : Slot) :
    d.exit me =
      { d with
        proc := (d.orphaned me).set me { d.orphaned me me with state := .ZOMBIE }
        parent := fun j => if d.parent j = some me then some initproc else d.parent j
        log := .exit (d.proc me).pid :: d.log } := by
  simp only [exit, foldl_reparent, List.mem_finRange, true_and, wakeupAt_zombie, orphaned]

theorem orphaned_after (d : Ptable F) (me j : Slot) :
    Woken (wakeupAt d.proc ((d.parent me).map .proc) j) (d.orphaned me j) := by
  unfold orphaned
  split
  · exact wakeup1_woken ..
  · exact .inl rfl

theorem orphaned_woken (d : Ptable F) (me j : Slot) : Woken (d.proc j) (d.orphaned me j) :=
  (wakeupAt_woken ..).trans (orphaned_after d me j)

@[simp] theorem exit_parent (d : Ptable F) (me j : Slot) :
    (d.exit me).parent j = if d.parent j = some me then some initproc else d.parent j := by
  rw [exit_eq]

@[simp] theorem exit_log (d : Ptable F) (me : Slot) :
    (d.exit me).log = .exit (d.proc me).pid :: d.log := rfl

@[simp] theorem exit_state_self (d : Ptable F) (me : Slot) :
    ((d.exit me).proc me).state = .ZOMBIE := by
  simp [exit_eq, Table.set]

theorem exit_other (other : j ≠ me) : Woken (d.proc j) ((d.exit me).proc j) := by
  have kept : (d.exit me).proc j = d.orphaned me j := by simp [exit_eq, Table.set, other]
  rw [kept]
  exact orphaned_woken d me j

@[simp] theorem exit_pid (d : Ptable F) (me j : Slot) :
    ((d.exit me).proc j).pid = (d.proc j).pid := by
  by_cases self : j = me
  · subst self
    simpa [exit_eq, Table.set] using (orphaned_woken d j j).pid
  · exact (exit_other self).pid

/-- The parent of the exiting process no longer sleeps in `wait`. -/
theorem exit_wakes_parent (other : j ≠ me) (parent : d.parent me = some j) :
    ¬ (((d.exit me).proc j).state = .SLEEPING ∧ ((d.exit me).proc j).chan = some (.proc j)) := by
  have kept : (d.exit me).proc j = d.orphaned me j := by simp [exit_eq, Table.set, other]
  rintro ⟨asleep, chan⟩
  rw [kept] at asleep chan
  have same := (orphaned_after d me j).asleep asleep
  rw [same] at asleep chan
  apply wakeupAt_clears d.proc ((d.parent me).map .proc) j
  exact ⟨asleep, by rw [chan, parent, Option.map_some]⟩

/-- `initproc` no longer sleeps in `wait` if it inherits a zombie. -/
theorem exit_wakes_init (other : initproc ≠ me) {p : Slot} (child : d.parent p = some me)
    (zombie : (d.proc p).state = .ZOMBIE) :
    ¬ (((d.exit me).proc initproc).state = .SLEEPING ∧
      ((d.exit me).proc initproc).chan = some (.proc initproc)) := by
  have orphan : ∃ p, d.parent p = some me ∧ (d.proc p).state = .ZOMBIE := ⟨p, child, zombie⟩
  have kept : (d.exit me).proc initproc = d.orphaned me initproc := by
    simp only [exit_eq, Table.set, update_of_ne other]
  rw [kept, orphaned, if_pos orphan]
  exact wakeupAt_clears (wakeupAt d.proc ((d.parent me).map .proc)) (some (.proc initproc)) initproc

end Ptable

/-! ## Mild stores -/

theorem Ptable.setProc_proc (d : Ptable F) (i : Slot) (p : Proc F) (j : Slot) :
    (d.setProc i p).proc j = if j = i then p else d.proc j := by
  simp [Ptable.setProc, Table.set, update_apply]

section Keeps

variable {d e : Ptable F} {np j : Slot} {x : Proc F}

theorem Ptable.elsewhere (stored : e.proc = (d.setProc np x).proc) (other : j ≠ np) :
    e.proc j = d.proc j := by
  rw [stored, Ptable.setProc_proc, if_neg other]

/-- What a store of one entry does not change stays as it is everywhere. -/
theorem Ptable.keeps {α : Type} (part : Proc F → α) (stored : e.proc = (d.setProc np x).proc)
    (written : part x = part (d.proc np)) : part (e.proc j) = part (d.proc j) := by
  by_cases here : j = np
  · rw [stored, Ptable.setProc_proc, if_pos here, written, here]
  · rw [Ptable.elsewhere stored here]

/-- The same for a scan that writes. -/
theorem atPid_keeps {α : Type} (part : Proc F → α) (t : Table F) (pid : Int)
    (write : Proc F → Proc F) (j : Slot) (same : ∀ p, part (write p) = part p) :
    part ((atPid t pid write).1 j) = part (t j) := by
  rw [atPid_apply]
  split
  · exact same _
  · rfl

end Keeps

/-- At most a sleeper is woken. -/
structure Mild (p p' : Proc F) : Prop where
  pid : p'.pid = p.pid
  chan : p'.chan = p.chan
  state : p'.state = p.state ∨ p.state = .SLEEPING ∧ p'.state = .RUNNABLE

theorem Mild.refl (p : Proc F) : Mild p p := ⟨rfl, rfl, .inl rfl⟩

theorem Woken.mild {p p' : Proc F} (woken : Woken p p') : Mild p p' :=
  ⟨woken.pid, woken.chan, woken.state⟩

theorem mild_markKilled (p : Proc F) : Mild p (markKilled p) := by
  refine ⟨rfl, rfl, ?_⟩
  by_cases asleep : p.state = .SLEEPING
  · exact .inr ⟨asleep, by simp [markKilled, asleep]⟩
  · exact .inl (by simp [markKilled, asleep])

theorem mild_atPid (pid : Int) {write : Proc F → Proc F} (mild : ∀ p, Mild p (write p)) (j : Slot) :
    Mild (t j) ((atPid t pid write).1 j) := by
  rw [atPid_apply]
  split
  · exact mild _
  · exact .refl _

theorem mild_set {i : Slot} {p : Proc F} (mild : Mild (t i) p) (j : Slot) :
    Mild (t j) (t.set i p j) := by
  by_cases same : j = i
  · subst same
    simpa [Table.set] using mild
  · simpa [Table.set, same] using Mild.refl (t j)

/-- A mild change of the whole table. -/
structure Ptable.Mild (d d' : Ptable F) : Prop where
  proc : ∀ i, Procs.Mild (d.proc i) (d'.proc i)
  parent : d'.parent = d.parent
  nextpid : d'.nextpid = d.nextpid
  born : d'.born = d.born
  log : d'.log = d.log

variable {d : Ptable F}

theorem Ptable.Mild.of_proc {t : Table F} (mild : ∀ i, Procs.Mild (d.proc i) (t i)) :
    d.Mild { d with proc := t } :=
  ⟨mild, rfl, rfl, rfl, rfl⟩

theorem Ptable.enter_mild {d' : Ptable F} {sec : Section F} (entered : d.enter sec = some d') :
    d.Mild d' := by
  cases sec with
  | wakeup chan =>
    cases entered
    exact .of_proc fun i => (wakeup1_woken d.proc chan i).mild
  | kill pid =>
    cases entered
    exact .of_proc (mild_atPid d.proc pid mild_markKilled)
  | changeQueue pid newQueue =>
    cases entered
    apply Mild.of_proc
    intro i
    by_cases unset : newQueue = UNSET
    · simpa [Procs.changeQueue, unset] using Procs.Mild.refl (d.proc i)
    · rw [Procs.changeQueue, if_neg unset]
      apply mild_atPid
      intro p
      exact ⟨rfl, rfl, .inl rfl⟩
  | setBjsProc pid ratios =>
    cases entered
    exact .of_proc (mild_atPid d.proc pid fun p => ⟨rfl, rfl, .inl rfl⟩)
  | setBjsSys ratios =>
    cases entered
    exact .of_proc fun i => ⟨rfl, rfl, .inl rfl⟩
  | aging =>
    simp only [Ptable.enter] at entered
    split at entered
    · cases entered
    · cases entered
      exact .of_proc fun i => .refl _

/-- The stores that neither make a process, nor end one, nor move it on or off a CPU. -/
def Body.mild : Body F → Bool
  | .skip | .tick | .enter _ | .fresh _ | .stamp _ | .initQueue _ | .fault _ => true
  | _ => false

theorem Body.run_mild [Zero F] [One F] [Add F] {tenth : F} {d' : Ptable F} {b : Body F}
    (mild : b.mild = true) (ran : b.run tenth d = some d') : d.Mild d' := by
  cases b with
  | skip =>
    cases ran
    exact .of_proc fun i => .refl _
  | tick =>
    cases ran
    exact ⟨fun i => .refl _, rfl, rfl, rfl, rfl⟩
  | enter sec => exact Ptable.enter_mild ran
  | fresh np | stamp np | fault me =>
    cases ran
    exact .of_proc (mild_set d.proc ⟨rfl, rfl, .inl rfl⟩)
  | initQueue pid =>
    cases ran
    apply Ptable.Mild.of_proc
    intro i
    by_cases positive : 0 < pid
    · rw [Procs.initQueue, if_pos positive]
      apply mild_atPid
      intro p
      exact ⟨rfl, rfl, .inl rfl⟩
    · simpa [Procs.initQueue, positive] using Procs.Mild.refl (d.proc i)
  | _ => cases mild

end Xv6.Procs
