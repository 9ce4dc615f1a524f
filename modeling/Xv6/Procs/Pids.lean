/-
# Xv6.Procs.Pids -- what `kill`, `change_queue` and `set_bjs_proc` hit

The three scans compare pids and look at nothing else. An UNUSED entry has a pid too: 0 before its
first use and after `wait`, or the pid of a `fork` that ran out of memory. So a call with such a pid
returns 0 and writes an entry nobody uses, and `allocproc` resets all of it except `killed`.

* `Numbered`: while `nextpid` is positive, no two entries share a pid other than 0, and entries in
  use have one.
* `PidOp.spec_iff`: on such a table a call does what its caller expects exactly when the first
  entry with that pid is in use, or there is none (`change_queue` to UNSET apart, which always
  refuses).
* `Unkilled`: as long as no `kill` hits an unused entry, and no `fork` gives up an embryo that has
  been killed, unused entries are not killed and neither are new processes.
-/
import Xv6.Procs.Tree

namespace Xv6.Procs
open Lib Sched Ptable
open Sched.Smp (freshSched)
set_option autoImplicit false

variable {F : Type}

/-! ## One call -/

/-- The operations addressed by pid. -/
inductive PidOp (F : Type) where
  | kill
  | changeQueue (newQueue : Int)
  | setBjsProc (ratios : Ratios F)
  deriving DecidableEq, Repr

/-- The table after the call, and the value returned. -/
def PidOp.run (now : BitVec 32) (t : Table F) (pid : Int) : PidOp F → Table F × Int
  | .kill => Procs.kill t pid
  | .changeQueue newQueue => Procs.changeQueue now t pid newQueue
  | .setBjsProc ratios => Procs.setBjsProc t pid ratios

/-- What a caller expects of a call that returns `r`: 0 exactly when an entry in use has the pid,
and then only that entry changes; otherwise -1, and nothing changes. -/
structure HitsLive (t : Table F) (pid : Int) (r : Table F × Int) : Prop where
  returns : r.2 = 0 ↔ ∃ i, (t i).state ≠ .UNUSED ∧ (t i).pid = pid
  changes : ∀ i, (t i).state ≠ .UNUSED → (t i).pid = pid → ∀ j, j ≠ i → r.1 j = t j
  fails : (∀ i, (t i).pid = pid → (t i).state = .UNUSED) → r = (t, -1)

/-- The first entry with the pid, if there is one, is in use. -/
def FindsLive (t : Table F) (pid : Int) : Prop :=
  ∀ i, findPid t pid = some i → (t i).state ≠ .UNUSED
deriving Decidable

/-- When the call does what its caller expects: `change_queue` refuses UNSET whatever the pid. -/
def PidOp.Aimed (t : Table F) (pid : Int) : PidOp F → Prop
  | .changeQueue newQueue =>
    if newQueue = UNSET then ∀ i, (t i).pid = pid → (t i).state = .UNUSED else FindsLive t pid
  | _ => FindsLive t pid

/-- No two entries share a pid other than 0, and an entry in use has one. -/
structure Apart (t : Table F) : Prop where
  used : ∀ i, (t i).state ≠ .UNUSED → (t i).pid ≠ 0
  distinct : ∀ i j, (t i).pid ≠ 0 → (t i).pid = (t j).pid → i = j

section Call

variable {t : Table F} {pid : Int}

theorem atPid_hitsLive_iff (apart : Apart t) (write : Proc F → Proc F) :
    HitsLive t pid (atPid t pid write) ↔ FindsLive t pid := by
  unfold FindsLive
  cases found : findPid t pid with
  | none =>
    have fails : atPid t pid write = (t, -1) := by simp [atPid, found]
    rw [fails]
    refine ⟨fun _ i same => (by cases same), fun _ => ⟨?_, fun _ _ _ _ _ => rfl, fun _ => rfl⟩⟩
    constructor
    · rintro ⟨⟩
    · rintro ⟨i, -, same⟩
      exact absurd same (findPid_none found i)
  | some i =>
    have here := findPid_some found
    have hits : atPid t pid write = (t.set i (write (t i)), 0) := by simp [atPid, found]
    rw [hits]
    constructor
    · intro spec j same
      cases same
      obtain ⟨k, used, same⟩ := spec.returns.mp rfl
      -- the entry in use is the one the scan stopped at
      have nonzero := apart.used k used
      rw [apart.distinct k i nonzero (same.trans here.symm)] at used
      exact used
    · intro live
      have used := live i rfl
      refine ⟨⟨fun _ => ⟨i, used, here⟩, fun _ => rfl⟩, ?_, ?_⟩
      · intro k used' same j other
        have self : k = i := apart.distinct k i (apart.used k used') (same.trans here.symm)
        rw [self] at other
        exact Function.update_of_ne other _ _
      · intro unused
        exact absurd (unused i here) used

/-- **A call hits what it should exactly when its pid is aimed at an entry in use.** -/
theorem PidOp.spec_iff (apart : Apart t) (now : BitVec 32) (op : PidOp F) :
    HitsLive t pid (op.run now t pid) ↔ op.Aimed t pid := by
  cases op with
  | kill | setBjsProc ratios => exact atPid_hitsLive_iff apart _
  | changeQueue newQueue =>
    by_cases unset : newQueue = UNSET
    · simp only [PidOp.run, PidOp.Aimed, Procs.changeQueue, if_pos unset]
      constructor
      · intro spec i same
        by_contra used
        have zero := spec.returns.mpr ⟨i, used, same⟩
        cases zero
      · intro unused
        refine ⟨?_, fun _ _ _ _ _ => rfl, fun _ => rfl⟩
        constructor
        · rintro ⟨⟩
        · rintro ⟨i, used, same⟩
          exact absurd (unused i same) used
    · simp only [PidOp.run, PidOp.Aimed, Procs.changeQueue, if_neg unset]
      exact atPid_hitsLive_iff apart _

end Call

/-! ## Pids along a run -/

/-- The pids handed out so far. -/
structure Numbered (d : Ptable F) : Prop where
  few : d.born + 2 ≤ 2 ^ 31
  next : d.nextpid = BitVec.ofNat 32 (d.born + 2)
  issued : ∀ i, 0 ≤ (d.proc i).pid ∧ (d.proc i).pid < d.born + 2
  apart : Apart d.proc

/-- While it is positive, `nextpid` is the next number. -/
theorem toInt_ofNat_of_pos {n : ℕ} (few : n ≤ 2 ^ 31)
    (positive : 0 < (BitVec.ofNat 32 n).toInt) : (BitVec.ofNat 32 n).toInt = n ∧ n < 2 ^ 31 := by
  have small : n % 2 ^ 32 = n := Nat.mod_eq_of_lt (by omega)
  rw [BitVec.toInt_eq_toNat_cond, BitVec.toNat_ofNat, small] at positive ⊢
  split at positive
  next low => exact ⟨if_pos low, by omega⟩
  next => omega

theorem Numbered.alloc {d : Ptable F} (numbered : Numbered d) (positive : 0 < d.nextpid.toInt) (np : Slot) :
    Numbered (d.alloc np) := by
  rw [numbered.next] at positive
  obtain ⟨number, small⟩ := toInt_ofNat_of_pos numbered.few positive
  have entry : ∀ i, ((d.alloc np).proc i).pid =
      if i = np then ((d.born + 2 : ℕ) : Int) else (d.proc i).pid := by
    intro i
    show ((d.setProc np _).proc i).pid = _
    rw [setProc_proc]
    split
    · rw [numbered.next, number]
    · rfl
  have issued := numbered.issued
  constructor
  case few =>
    show d.born + 1 + 2 ≤ 2 ^ 31
    omega
  case next =>
    show d.nextpid + 1 = BitVec.ofNat 32 (d.born + 1 + 2)
    rw [numbered.next]
    exact (BitVec.ofNat_add (d.born + 2) 1).symm
  case issued =>
    intro i
    rw [entry]
    show _ ∧ _ < ((d.born + 1 : ℕ) : Int) + 2
    split
    · omega
    · have bounds := issued i
      omega
  case apart =>
    constructor
    · intro i used
      rw [entry]
      split
      · omega
      next other =>
        apply numbered.apart.used i
        intro unused
        apply used
        show ((d.setProc np _).proc i).state = _
        rw [setProc_proc, if_neg other]
        exact unused
    · intro i j nonzero same
      rw [entry] at nonzero same
      rw [entry] at same
      have boundsI := issued i
      have boundsJ := issued j
      by_cases hereI : i = np <;> by_cases hereJ : j = np
      · rw [hereI, hereJ]
      · omega
      · omega
      · rw [if_neg hereI] at nonzero same
        rw [if_neg hereJ] at same
        exact numbered.apart.distinct i j nonzero same

theorem stageOf_free {state : ProcState} : stageOf state = .free ↔ state = .UNUSED := by
  cases state <;> simp [stageOf]

def Alive (p : Proc F) : Prop := stageOf p.state = .alive
deriving Decidable

section Effect

variable [Zero F] [One F] [Add F] {tenth : F} {d d' : Ptable F} {b : Body F}

theorem Effect.pid (effect : Effect d b) (ran : b.run tenth d = some d') (j : Slot) :
    (d'.proc j).pid = (d.proc j).pid ∨ b = .alloc j ∨ ∃ me, b = .reap me j := by
  cases effect with
  | mild mild => exact .inl ((Body.run_mild mild ran).proc j).pid
  | adopt np me embryo running =>
    cases ran
    exact .inl rfl
  | exit me running other =>
    cases ran
    exact .inl (exit_pid d me j)
  | alloc np unused =>
    cases ran
    by_cases same : j = np
    · exact .inr (.inl (by rw [same]))
    · exact .inl (congrArg Proc.pid (elsewhere rfl same))
  | reap me child running zombie mine =>
    cases ran
    by_cases same : j = child
    · exact .inr (.inr ⟨me, by rw [same]⟩)
    · exact .inl (congrArg Proc.pid (elsewhere rfl same))
  | _ =>
    cases ran
    exact .inl (keeps Proc.pid rfl rfl)

/-- What changes the stage of an entry. -/
theorem Effect.stage (effect : Effect d b) (ran : b.run tenth d = some d') (j : Slot) :
    stageOf (d'.proc j).state = stageOf (d.proc j).state ∨ b = .alloc j ∨ b = .abandon j ∨
      (∃ me, b = .ready j me) ∨ b = .exit j ∨ ∃ me, b = .reap me j := by
  have elsewhere : ∀ {np : Slot} {x : Proc F}, d'.proc = (d.setProc np x).proc → j ≠ np →
      stageOf (d'.proc j).state = stageOf (d.proc j).state := by
    intro np x stored other
    rw [elsewhere stored other]
  have kept : ∀ {np : Slot} {x : Proc F}, d'.proc = (d.setProc np x).proc →
      stageOf x.state = stageOf (d.proc np).state →
      stageOf (d'.proc j).state = stageOf (d.proc j).state :=
    keeps fun p => stageOf p.state
  cases effect with
  | mild mild => exact .inl ((Body.run_mild mild ran).proc j).stage
  | tidy me running =>
    cases ran
    exact .inl (kept rfl rfl)
  | sleep me chan running | yield me running =>
    cases ran
    exact .inl (kept rfl (by rw [running]; rfl))
  | dispatch p runnable =>
    cases ran
    exact .inl (kept rfl (by rw [runnable]; rfl))
  | adopt np me embryo running =>
    cases ran
    exact .inl rfl
  | alloc np unused =>
    cases ran
    by_cases here : j = np
    · exact .inr (.inl (by rw [here]))
    · exact .inl (elsewhere rfl here)
  | abandon np embryo =>
    cases ran
    by_cases here : j = np
    · exact .inr (.inr (.inl (by rw [here])))
    · exact .inl (elsewhere rfl here)
  | ready np me embryo running mine =>
    cases ran
    by_cases here : j = np
    · exact .inr (.inr (.inr (.inl ⟨me, by rw [here]⟩)))
    · exact .inl (elsewhere rfl here)
  | exit me running other =>
    cases ran
    by_cases here : j = me
    · exact .inr (.inr (.inr (.inr (.inl (by rw [here])))))
    · exact .inl (exit_other here).mild.stage
  | reap me child running zombie mine =>
    cases ran
    by_cases here : j = child
    · exact .inr (.inr (.inr (.inr (.inr ⟨me, by rw [here]⟩))))
    · exact .inl (elsewhere rfl here)

variable {j : Slot}

section

variable (effect : Effect d b) (ran : b.run tenth d = some d')
include effect ran

/-- Only `allocproc` takes an unused entry into use. -/
theorem Effect.unused (unused : (d.proc j).state = .UNUSED) :
    (d'.proc j).state = .UNUSED ∨ b = .alloc j := by
  rcases effect.stage ran j with same | rfl | rfl | ⟨me, rfl⟩ | rfl | ⟨me, rfl⟩
  · left
    rw [← stageOf_free, same, unused]
    rfl
  · exact .inr rfl
  all_goals
    cases effect <;> simp_all [Body.mild]

/-- Only a `fork` that gives up and `wait` return an entry. -/
theorem Effect.freed (unused : (d'.proc j).state = .UNUSED) :
    (d.proc j).state = .UNUSED ∨ b = .abandon j ∨ ∃ me, b = .reap me j := by
  rcases effect.stage ran j with same | rfl | rfl | ⟨me, rfl⟩ | rfl | ⟨me, rfl⟩
  · left
    rw [← stageOf_free, ← same, unused]
    rfl
  · cases ran
    change ((d.setProc j _).proc j).state = .UNUSED at unused
    rw [setProc_proc, if_pos rfl] at unused
    cases unused
  · exact .inr (.inl rfl)
  · cases ran
    rw [setProc_proc, if_pos rfl] at unused
    cases unused
  · cases ran
    rw [exit_state_self] at unused
    cases unused
  · exact .inr (.inr ⟨me, rfl⟩)

theorem Effect.alive (alive : Alive (d'.proc j)) : Alive (d.proc j) ∨ ∃ me, b = .ready j me := by
  rcases effect.stage ran j with same | rfl | rfl | ready | rfl | ⟨me, rfl⟩
  · left
    rw [Alive, ← same]
    exact alive
  · cases ran
    change Alive ((d.setProc j _).proc j) at alive
    rw [setProc_proc, if_pos rfl] at alive
    cases alive
  · cases ran
    rw [setProc_proc, if_pos rfl] at alive
    cases alive
  · exact .inr ready
  · cases ran
    rw [Alive, exit_state_self] at alive
    cases alive
  · cases ran
    change Alive ((d.setProc j _).proc j) at alive
    rw [setProc_proc, if_pos rfl] at alive
    cases alive

theorem Effect.stays {i : Slot} (alive : Alive (d.proc i)) (lives : b ≠ .exit i) :
    Alive (d'.proc i) := by
  rcases effect.stage ran i with same | rfl | rfl | ⟨me, rfl⟩ | rfl | ⟨me, rfl⟩
  · rw [Alive, same]
    exact alive
  · cases effect with
    | mild mild => cases mild
    | alloc np unused =>
      rw [Alive, unused] at alive
      cases alive
  · cases effect with
    | mild mild => cases mild
    | abandon np embryo =>
      rw [Alive, embryo] at alive
      cases alive
  · cases ran
    rw [setProc_proc, if_pos rfl]
    rfl
  · exact absurd rfl lives
  · cases effect with
    | mild mild => cases mild
    | reap me child running zombie mine =>
      rw [Alive, zombie] at alive
      cases alive

theorem Effect.pid_of_alive (alive : Alive (d.proc j)) : (d'.proc j).pid = (d.proc j).pid := by
  rcases effect.pid ran j with same | rfl | ⟨me, rfl⟩
  · exact same
  · cases effect with
    | mild mild => cases mild
    | alloc np unused =>
      rw [Alive, unused] at alive
      cases alive
  · cases effect with
    | mild mild => cases mild
    | reap me child running zombie mine =>
      rw [Alive, zombie] at alive
      cases alive

theorem Effect.counters : (d'.born = d.born ∧ d'.nextpid = d.nextpid) ∨ ∃ np, b = .alloc np := by
  cases effect with
  | mild mild => exact .inl ⟨(Body.run_mild mild ran).born, (Body.run_mild mild ran).nextpid⟩
  | alloc np unused => exact .inr ⟨np, rfl⟩
  | _ =>
    cases ran
    exact .inl ⟨rfl, rfl⟩

theorem Effect.numbered (numbered : Numbered d)
    (positive : ∀ np, b = .alloc np → 0 < d.nextpid.toInt) : Numbered d' := by
  rcases effect.counters ran with ⟨born, nextpid⟩ | ⟨np, rfl⟩
  · -- a pid stays or becomes 0
    have unalloc : ∀ np, b ≠ .alloc np := by
      rintro np rfl
      cases ran
      have counted : d.born + 1 = d.born := born
      omega
    have pid : ∀ j, (d'.proc j).pid = (d.proc j).pid ∨
        (d'.proc j).pid = 0 ∧ (d'.proc j).state = .UNUSED := by
      intro j
      rcases effect.pid ran j with same | rfl | ⟨me, rfl⟩
      · exact .inl same
      · exact absurd rfl (unalloc j)
      · cases ran
        right
        show ((d.setProc j _).proc j).pid = 0 ∧ ((d.setProc j _).proc j).state = .UNUSED
        rw [setProc_proc, if_pos rfl]
        exact ⟨rfl, rfl⟩
    constructor
    case few =>
      rw [born]
      exact numbered.few
    case next =>
      rw [born, nextpid]
      exact numbered.next
    case issued =>
      intro i
      rw [born]
      rcases pid i with same | ⟨zero, -⟩
      · rw [same]
        exact numbered.issued i
      · omega
    case apart =>
      constructor
      · intro i used
        rcases pid i with same | ⟨-, unused⟩
        · rw [same]
          apply numbered.apart.used i
          intro unused
          rcases effect.unused ran unused with still | taken
          · exact used still
          · exact unalloc i taken
        · exact absurd unused used
      · intro i j nonzero same
        rcases pid i with sameI | ⟨zero, -⟩
        · rcases pid j with sameJ | ⟨zero, -⟩
          · rw [sameI] at nonzero same
            rw [sameJ] at same
            exact numbered.apart.distinct i j nonzero same
          · exact absurd (same.trans zero) nonzero
        · exact absurd zero nonzero
  · cases ran
    exact numbered.alloc (positive np rfl) np

end

end Effect

theorem booted_numbered [Zero F] [One F] : Numbered (booted : Ptable F) := by
  have entry : ∀ i, ((booted : Ptable F).proc i).pid = if i = initproc then 1 else 0 := by
    intro i
    by_cases first : i = initproc <;> simp [booted, first]
  constructor
  case few => simp [booted]
  case next => rfl
  case issued =>
    intro i
    rw [entry]
    split <;> omega
  case apart =>
    constructor
    · intro i used
      by_cases first : i = initproc
      · simp [booted, first]
      · simp [booted, first] at used
    · intro i j nonzero same
      rw [entry] at nonzero same
      rw [entry] at same
      have first : i = initproc := by
        by_contra other
        simp [other] at nonzero
      have second : j = initproc := by
        by_contra other
        simp [first, other] at same
      rw [first, second]

/-! ## Who is killed -/

def Unkilled (d : Ptable F) : Prop := ∀ i, (d.proc i).state = .UNUSED → (d.proc i).killed = false

/-- What the stores that can leave a trace in an unused entry have to find. -/
def Clean (d : Ptable F) : Body F → Bool
  | .enter (.kill pid) => FindsLive d.proc pid
  | .abandon np => (d.proc np).killed = false
  | .alloc _ => 0 < d.nextpid.toInt
  | _ => true

section Killed

variable [Zero F] [One F] [Add F] {tenth : F} {d d' : Ptable F} {b : Body F}

/-- Who is marked killed: the process `kill` finds, and one that faults. `wait` takes the mark
away. -/
theorem Body.killed (ran : b.run tenth d = some d') (j : Slot) :
    (d'.proc j).killed = (d.proc j).killed ∨
      (∃ pid, b = .enter (.kill pid) ∧ findPid d.proc pid = some j) ∨ b = .fault j ∨
      (d'.proc j).killed = false := by
  cases b with
  | enter sec =>
    cases sec with
    | wakeup chan =>
      cases ran
      exact .inl (wakeup1_woken d.proc chan j).killed
    | kill pid =>
      cases ran
      by_cases found : findPid d.proc pid = some j
      · exact .inr (.inl ⟨pid, rfl, found⟩)
      · left
        show ((atPid d.proc pid markKilled).1 j).killed = _
        rw [atPid_apply, if_neg found]
    | changeQueue pid newQueue =>
      cases ran
      left
      unfold Procs.changeQueue
      split
      · rfl
      · exact atPid_keeps Proc.killed d.proc pid (requeue d.ticks newQueue) j fun _ => rfl
    | setBjsProc pid ratios =>
      cases ran
      exact .inl (atPid_keeps Proc.killed d.proc pid (weigh ratios) j fun _ => rfl)
    | setBjsSys ratios =>
      cases ran
      exact .inl rfl
    | aging =>
      simp only [Body.run, Ptable.enter] at ran
      split at ran
      · cases ran
      · cases ran
        exact .inl rfl
  | initQueue pid =>
    cases ran
    left
    unfold Procs.initQueue
    split
    · apply atPid_keeps Proc.killed
      exact fun _ => rfl
    · rfl
  | exit me =>
    cases ran
    left
    by_cases self : j = me
    · subst self
      simpa [exit_eq, Table.set] using (orphaned_woken d j j).killed
    · exact (exit_other self).killed
  | reap me child =>
    cases ran
    by_cases here : j = child
    · right; right; right
      show ((d.setProc child _).proc j).killed = false
      rw [setProc_proc, if_pos here]
    · exact .inl (congrArg Proc.killed (elsewhere rfl here))
  | fault me =>
    cases ran
    by_cases here : j = me
    · exact .inr (.inr (.inl (by rw [here])))
    · exact .inl (congrArg Proc.killed (elsewhere rfl here))
  | skip | tick | adopt np me =>
    cases ran
    exact .inl rfl
  | _ =>
    cases ran
    exact .inl (keeps Proc.killed rfl rfl)

variable {C : Type} {k k' : Control C F}

theorem Walks.unkilled (walks : Walks k k' d b) (effect : Effect d b)
    (ran : b.run tenth d = some d') (clean : Clean d b = true) (unkilled : Unkilled d) :
    Unkilled d' := by
  intro j unused
  rcases effect.freed ran unused with before | rfl | ⟨me, rfl⟩
  · have old := unkilled j before
    rcases Body.killed ran j with same | ⟨pid, rfl, found⟩ | rfl | fresh
    · rw [same, old]
    · exact absurd before (of_decide_eq_true clean j found)
    · -- a process that faults is running
      cases walks with
      | still pc body => cases body
      | turn me running turn self others =>
        have self : j = me := by
          generalize k.pc me = p at turn
          cases turn
          rfl
        rw [← self, before] at running
        cases running
    · exact fresh
  · cases ran
    rw [setProc_proc, if_pos rfl]
    exact of_decide_eq_true clean
  · cases ran
    show ((d.setProc j _).proc j).killed = false
    rw [setProc_proc, if_pos rfl]

end Killed

/-! ## Runs -/

section Runs

variable {C : Type} [DecidableEq C] [Zero F] [One F] [Add F] [Mul F] [IntCast F] [LT F]
  [DecidableLT F]

/-- What the step is about to store meets `ok`. -/
def Storing (ok : Ptable F → Body F → Bool) (s : State C F) (e : Event C F) : Prop :=
  ((move s.control s.data e).all fun (_, b) => ok s.data b) = true
deriving Decidable

variable {s : State C F}

omit [Zero F] [One F] in
theorem Storing.of_move {ok : Ptable F → Body F → Bool} {e : Event C F} {k : Control C F}
    {b : Body F} (storing : Storing ok s e) (moved : move s.control s.data e = some (k, b)) :
    ok s.data b = true := by
  rwa [Storing, moved] at storing

theorem reach_numbered {tenth : F} {ok : Ptable F → Body F → Bool}
    (positive : ∀ d np, ok d (.alloc np) = true → 0 < d.nextpid.toInt)
    (reached : (system C tenth).Reach (Storing ok) s) : Numbered s.data := by
  induction reached with
  | start initial =>
    rw [Start.data initial]
    exact booted_numbered
  | step before admitted stepped ih =>
    obtain ⟨a, -, refines⟩ := reach_refines before
    obtain ⟨b, moved, ran⟩ := next_eq_some stepped
    have walks := (moves_of_move moved).walks refines.placed
    apply (walks.effect refines.placed refines.kin).numbered ran ih
    rintro np rfl
    exact positive _ np (admitted.of_move moved)

theorem reach_unkilled {tenth : F} (reached : (system C tenth).Reach (Storing Clean) s) :
    Unkilled s.data := by
  induction reached with
  | start initial =>
    rw [Start.data initial]
    intro i _
    by_cases first : i = initproc <;> simp [booted, first]
  | step before admitted stepped ih =>
    obtain ⟨a, -, refines⟩ := reach_refines before
    obtain ⟨b, moved, ran⟩ := next_eq_some stepped
    have walks := (moves_of_move moved).walks refines.placed
    exact walks.unkilled (walks.effect refines.placed refines.kin) ran (admitted.of_move moved) ih

/-- **Operations addressed by pid.** In every state of a run in which no `kill` finds an unused
entry, no `fork` gives up an embryo that was killed, and pids stay positive:

* a call hits what it should exactly when its pid is aimed at an entry in use;
* the entry `allocproc` hands out is not killed, and its queue is the one `allocproc` sets. -/
theorem pid_operations_runs {tenth : F} {s : State C F}
    (reached : (system C tenth).Reach (Storing Clean) s) :
    (∀ (op : PidOp F) (pid : Int),
        HitsLive s.data.proc pid (op.run s.data.ticks s.data.proc pid) ↔
          op.Aimed s.data.proc pid) ∧
      ∀ np, (s.data.proc np).state = .UNUSED → ∀ d d' : Ptable F,
        (Body.alloc np).run tenth s.data = some d → (Body.fresh np).run tenth d = some d' →
          (d'.proc np).killed = false ∧ (d'.proc np).sched = freshSched := by
  have numbered := reach_numbered (fun d np => of_decide_eq_true) reached
  constructor
  · intro op pid
    exact op.spec_iff numbered.apart s.data.ticks
  · intro np unused d d' allocated freshened
    cases allocated
    cases freshened
    rw [setProc_proc, if_pos rfl]
    refine ⟨?_, rfl⟩
    show ((s.data.setProc np _).proc np).killed = false
    rw [setProc_proc, if_pos rfl]
    exact reach_unkilled reached np unused

end Runs

/-! ## Two runs -/

/-- `init` kills itself, runs out of memory in one `fork`, and forks again. -/
def retryEvents : List (Event (Fin NCPU) ℚ) :=
  [.advance 1, .advance 1, .advance 1, .call 1 (.enter (.kill 1)), .advance 1, .advance 1,
    .call 1 .fork, .advance 1, .advance 1, .outOfMemory 1, .call 1 .fork] ++
    List.replicate 9 (.advance 1)

@[irreducible] def afterRetry : State (Fin NCPU) ℚ :=
  ((system (Fin NCPU) (1 / 10)).run atBoot retryEvents).getD atBoot

theorem pid_operations_afterRetry :
    HitsLive afterRetry.data.proc 3
      (PidOp.kill.run afterRetry.data.ticks afterRetry.data.proc 3) := by
  have reached : (system (Fin NCPU) (1 / 10 : ℚ)).Reach (Storing Clean) afterRetry := by
    unfold afterRetry
    have admitted : (system (Fin NCPU) (1 / 10 : ℚ)).Admits (Storing Clean) atBoot retryEvents := by
      decide +kernel
    apply System.Reach.run_getD (.start atBoot_start) admitted
    decide +kernel
  have aimed : FindsLive afterRetry.data.proc 3 := by decide +kernel
  exact ((pid_operations_runs reached).1 .kill 3).mpr aimed

/-- `init` calls `kill(0)` and then forks. -/
def killZeroEvents : List (Event (Fin NCPU) ℚ) :=
  [.advance 1, .advance 1, .advance 1, .call 1 (.enter (.kill 0)), .advance 1, .advance 1,
    .call 1 .fork] ++ List.replicate 9 (.advance 1)

@[irreducible] def bornKilled : State (Fin NCPU) ℚ :=
  ((system (Fin NCPU) (1 / 10)).run atBoot killZeroEvents).getD atBoot

/-- `kill(0)` returns 0 although no process has pid 0, and the child forked afterwards starts out
killed. -/
theorem kill_zero_marks_next_process :
    (kill atBoot.data.proc 0).2 = 0 ∧
      (∀ i, (atBoot.data.proc i).state ≠ .UNUSED → (atBoot.data.proc i).pid ≠ 0) ∧
      (system (Fin NCPU) (1 / 10 : ℚ)).Reachable bornKilled ∧
      (bornKilled.data.proc 1).state = .RUNNABLE ∧ (bornKilled.data.proc 1).pid = 2 ∧
      (bornKilled.data.proc 1).killed = true := by
  refine ⟨by decide +kernel, by decide +kernel, ?_, by decide +kernel, by decide +kernel,
    by decide +kernel⟩
  unfold bornKilled
  apply System.Reach.run_getD (.start atBoot_start) (System.admits_true _ _ _)
  decide +kernel

end Xv6.Procs
