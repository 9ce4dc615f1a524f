/-
# Xv6.PriorityLock.Protocol -- the priority lock under any order of calls

The processes of the table call `pacquire` and `prelease` and exit, in any order.
`enqueue`, every iteration of the loop of `acquirepriority`, `releasepriority` and
`isholdingpriority` are one step each; everything between two of them may be
interleaved with steps of other processes.  A process that waits in
`acquirepriority` does not exit: it only reaches `exit` from `trap`, on its way back
to user space.

`Inv` ties the lock to the table: the queue holds exactly the pids of the spinning
processes, and `locked`, `pid` name the one process that has acquired the lock and not
released it.  `step_inv` keeps it; the rest of the module reads the protocol's
guarantees off it.
-/
import Xv6.Lib.Transition
import Xv6.PriorityLock.Queue

namespace Xv6.Plock

open Lib

set_option autoImplicit false

/-- Where a process is with respect to the lock.  `entering` is inside `pacquire` before
`enqueue`; `releasing` and `exiting` are inside `prelease` and `exit` between
`isholdingpriority` and `releasepriority`. -/
inductive Phase where
  | user
  | entering
  | spinning
  | releasing
  | exiting
  | exited
  deriving DecidableEq, Repr

/-- A slot of `ptable` in use.  `holding` is history, not a field of the source: the
process has come out of `acquirepriority` and has not run `releasepriority` since. -/
structure Slot where
  pid : Nat
  phase : Phase
  holding : Bool
  deriving DecidableEq, Repr

/-- The lock and the process table; an UNUSED slot is `none`. -/
structure State where
  lk : PriorityLock
  proc : Fin NPROC → Option Slot

inductive Event where
  | fork (slot : Fin NPROC) (pid : Nat)
  | pacquire (slot : Fin NPROC)
  | enqueue (slot : Fin NPROC)
  | spin (slot : Fin NPROC)
  | prelease (slot : Fin NPROC)
  | release (slot : Fin NPROC)
  | exit (slot : Fin NPROC)
  | reap (slot : Fin NPROC)
  deriving DecidableEq, Repr

def State.set (s : State) (i : Fin NPROC) (p : Option Slot) : State :=
  { s with proc := Function.update s.proc i p }

def State.setLock (s : State) (lk : PriorityLock) : State := { s with lk := lk }

/-- Run `f` on the slot `i` if it is in use and in the given phase. -/
def State.at (s : State) (i : Fin NPROC) (phase : Phase) (f : Slot → Option State) :
    Option State :=
  match s.proc i with
  | some p => if p.phase = phase then f p else none
  | none => none

/-- One step of one process. -/
def step (s : State) : Event → Option State
  -- `allocproc`: an UNUSED slot gets a pid that no other slot has
  | .fork i pid =>
    if s.proc i = none ∧ 0 < pid ∧ ∀ j p, s.proc j = some p → p.pid ≠ pid then
      some (s.set i (some { pid := pid, phase := .user, holding := false }))
    else none
  | .pacquire i => s.at i .user fun p =>
    if isholdingpriority s.lk p.pid then some s
    else some (s.set i (some { p with phase := .entering }))
  | .enqueue i => s.at i .entering fun p =>
    some ((s.setLock (enqueue s.lk p.pid)).set i (some { p with phase := .spinning }))
  | .spin i => s.at i .spinning fun p =>
    match spin s.lk p.pid with
    | none => some s
    | some lk =>
      some ((s.setLock lk).set i (some { p with phase := .user, holding := true }))
  | .prelease i => s.at i .user fun p =>
    if isholdingpriority s.lk p.pid then some (s.set i (some { p with phase := .releasing }))
    else some s
  | .release i =>
    match s.proc i with
    | some p =>
      if p.phase = .releasing then
        some ((s.setLock (releasepriority s.lk)).set i
          (some { p with phase := .user, holding := false }))
      else if p.phase = .exiting then
        some ((s.setLock (releasepriority s.lk)).set i
          (some { p with phase := .exited, holding := false }))
      else none
    | none => none
  | .exit i => s.at i .user fun p =>
    if isholdingpriority s.lk p.pid then some (s.set i (some { p with phase := .exiting }))
    else some (s.set i (some { p with phase := .exited }))
  -- the parent's `wait`
  | .reap i => s.at i .exited fun _ => some (s.set i none)

def system : System State Event where
  start := fun s => s.lk = initprioritylock ∧ ∀ i, s.proc i = none
  next := step

/-- Process `i` waits in `acquirepriority` with pid `pid`. -/
def Waiting (s : State) (i : Fin NPROC) (pid : Nat) : Prop :=
  ∃ p, s.proc i = some p ∧ p.phase = .spinning ∧ p.pid = pid

/-- Process `i` is between a successful `acquirepriority` and its release. -/
def Holding (s : State) (i : Fin NPROC) : Prop :=
  ∃ p, s.proc i = some p ∧ p.holding = true

/-! ## The invariant -/

structure Inv (s : State) : Prop where
  positive : ∀ i p, s.proc i = some p → 0 < p.pid
  distinct : ∀ i j p q, s.proc i = some p → s.proc j = some q → p.pid = q.pid → i = j
  ordered : Ordered s.lk
  queue : ∀ pid, Queued s.lk pid ↔ ∃ i, Waiting s i pid
  bit : s.lk.locked = 0 ∨ s.lk.locked = 1
  -- `locked` and `pid` name the holder
  holder : ∀ i p, s.proc i = some p →
    (p.holding = true ↔ s.lk.locked = 1 ∧ s.lk.pid = p.pid)
  held : s.lk.locked = 1 → ∃ i, Holding s i
  -- where a holder can be
  outside : ∀ i p, s.proc i = some p → p.holding = true →
    p.phase = .user ∨ p.phase = .releasing ∨ p.phase = .exiting
  inside : ∀ i p, s.proc i = some p → p.phase = .releasing ∨ p.phase = .exiting →
    p.holding = true

theorem start_inv (s : State) (initial : system.start s) : Inv s := by
  obtain ⟨lk, empty⟩ := initial
  have none_ : ∀ i p, s.proc i ≠ some p := fun i p => by simp [empty i]
  constructor
  · exact fun i p h => absurd h (none_ i p)
  · exact fun i _ p _ h => absurd h (none_ i p)
  · rw [lk]; exact initprioritylock_ordered
  · intro pid
    constructor
    · rintro ⟨i, hi, -⟩
      rw [lk] at hi
      exact absurd hi (Nat.not_lt_zero i)
    · rintro ⟨i, p, h, -⟩
      exact absurd h (none_ i p)
  · rw [lk]; exact .inl rfl
  · exact fun i p h => absurd h (none_ i p)
  · intro locked
    rw [lk] at locked
    cases locked
  · exact fun i p h => absurd h (none_ i p)
  · exact fun i p h => absurd h (none_ i p)

@[simp] theorem isholdingpriority_iff (lk : PriorityLock) (pid : Nat) :
    isholdingpriority lk pid = true ↔ lk.locked ≠ 0 ∧ lk.pid = pid := by
  simp [isholdingpriority]

variable {s : State} {i : Fin NPROC} {p : Slot}

/-- Inversion of `State.at`. -/
theorem State.at_eq_some {s' : State} {phase : Phase} {f : Slot → Option State}
    (h : s.at i phase f = some s') : ∃ p, s.proc i = some p ∧ p.phase = phase ∧ f p = some s' := by
  unfold State.at at h
  split at h
  · rename_i p found
    split at h
    · rename_i same
      exact ⟨p, found, same, h⟩
    · cases h
  · cases h

theorem waiting_split (s : State) (i : Fin NPROC) (pid : Nat) :
    (∃ j, Waiting s j pid) ↔ Waiting s i pid ∨ ∃ j, j ≠ i ∧ Waiting s j pid := by
  constructor
  · rintro ⟨j, waiting⟩
    rcases eq_or_ne j i with rfl | ne
    · exact .inl waiting
    · exact .inr ⟨j, ne, waiting⟩
  · rintro (waiting | ⟨j, -, waiting⟩)
    · exact ⟨i, waiting⟩
    · exact ⟨j, waiting⟩

theorem Inv.identity (inv : Inv s) (found : s.proc i = some p) :
    0 < p.pid ∧ ∀ j r, j ≠ i → s.proc j = some r → r.pid ≠ p.pid := by
  refine ⟨inv.positive i p found, fun j r ne foundR same => ne ?_⟩
  exact inv.distinct j i r p foundR found same

/-- What has to be checked when the step of process `i` changes the lock to `lk` and its
own slot to `q`: the other slots only see the lock. -/
theorem Inv.update (inv : Inv s) (i : Fin NPROC) (q : Option Slot) (lk : PriorityLock)
    (identity : ∀ p, q = some p →
      0 < p.pid ∧ ∀ j r, j ≠ i → s.proc j = some r → r.pid ≠ p.pid) (ordered : Ordered lk)
    (queue : ∀ pid, Queued lk pid ↔
      (∃ p, q = some p ∧ p.phase = .spinning ∧ p.pid = pid) ∨ ∃ j, j ≠ i ∧ Waiting s j pid)
    (bit : lk.locked = 0 ∨ lk.locked = 1)
    (self : ∀ p, q = some p → (p.holding = true ↔ lk.locked = 1 ∧ lk.pid = p.pid))
    (others : ∀ j r, j ≠ i → s.proc j = some r →
      (r.holding = true ↔ lk.locked = 1 ∧ lk.pid = r.pid)) (held : lk.locked = 1 →
      (∃ p, q = some p ∧ p.holding = true) ∨ ∃ j, j ≠ i ∧ Holding s j)
    (outside : ∀ p, q = some p → p.holding = true →
      p.phase = .user ∨ p.phase = .releasing ∨ p.phase = .exiting)
    (inside : ∀ p, q = some p → p.phase = .releasing ∨ p.phase = .exiting →
      p.holding = true) : Inv ((s.setLock lk).set i q) := by
  have here : ((s.setLock lk).set i q).proc i = q := by simp [State.set, State.setLock]
  have there : ∀ j, j ≠ i → ((s.setLock lk).set i q).proc j = s.proc j := fun j ne => by
    simp [State.set, State.setLock, ne]
  have waitingThere : ∀ j pid, j ≠ i →
      (Waiting ((s.setLock lk).set i q) j pid ↔ Waiting s j pid) := fun j pid ne => by
    simp only [Waiting, there j ne]
  constructor
  · intro j p found
    rcases eq_or_ne j i with rfl | ne
    · exact (identity p (here.symm.trans found)).1
    · exact inv.positive j p ((there j ne).symm.trans found)
  · intro j k p r foundJ foundK same
    rcases eq_or_ne j i with atI | neJ <;> rcases eq_or_ne k i with alsoI | neK
    · exact atI.trans alsoI.symm
    · rw [atI, here] at foundJ
      rw [there k neK] at foundK
      exact absurd same.symm ((identity p foundJ).2 k r neK foundK)
    · rw [there j neJ] at foundJ
      rw [alsoI, here] at foundK
      exact absurd same ((identity r foundK).2 j p neJ foundJ)
    · exact inv.distinct j k p r ((there j neJ).symm.trans foundJ)
        ((there k neK).symm.trans foundK) same
  · exact ordered
  · intro pid
    rw [waiting_split _ i]
    refine (queue pid).trans (or_congr ?_ ?_)
    · simp only [Waiting, here]
    · exact exists_congr fun j => and_congr_right fun ne => (waitingThere j pid ne).symm
  · exact bit
  · intro j p found
    rcases eq_or_ne j i with rfl | ne
    · exact self p (here.symm.trans found)
    · exact others j p ne ((there j ne).symm.trans found)
  · intro locked
    rcases held locked with ⟨p, found, holding⟩ | ⟨j, ne, p, found, holding⟩
    · exact ⟨i, p, here.trans found, holding⟩
    · exact ⟨j, p, (there j ne).trans found, holding⟩
  · intro j p found
    rcases eq_or_ne j i with rfl | ne
    · exact outside p (here.symm.trans found)
    · exact inv.outside j p ((there j ne).symm.trans found)
  · intro j p found
    rcases eq_or_ne j i with rfl | ne
    · exact inside p (here.symm.trans found)
    · exact inv.inside j p ((there j ne).symm.trans found)

theorem Inv.not_waiting (found : s.proc i = some p) (phase : p.phase ≠ .spinning) (pid : Nat) :
    ¬ Waiting s i pid := by
  rintro ⟨r, foundR, spinning, -⟩
  rw [found] at foundR
  cases foundR
  exact phase spinning

/-- A lock that is taken is held by `i` or by another process. -/
theorem Inv.held_split (inv : Inv s) (found : s.proc i = some p) (locked : s.lk.locked = 1) :
    p.holding = true ∨ ∃ j, j ≠ i ∧ Holding s j := by
  obtain ⟨j, r, foundR, holding⟩ := inv.held locked
  rcases eq_or_ne j i with rfl | ne
  · rw [found] at foundR
    cases foundR
    exact .inl holding
  · exact .inr ⟨j, ne, r, foundR, holding⟩

/-- A step that leaves the lock alone and takes a process that does not wait to a phase
in which it does not wait either. -/
theorem Inv.setPhase (inv : Inv s) (found : s.proc i = some p) (phase : Phase)
    (from_ : p.phase ≠ .spinning) (target : phase ≠ .spinning)
    (outside : p.holding = true → phase = .user ∨ phase = .releasing ∨ phase = .exiting)
    (inside : phase = .releasing ∨ phase = .exiting → p.holding = true) :
    Inv (s.set i (some { p with phase := phase })) := by
  refine inv.update i _ s.lk ?_ inv.ordered ?_ inv.bit ?_ ?_ ?_ ?_ ?_
  · rintro _ ⟨⟩
    exact inv.identity (p := p) found
  · intro pid
    rw [inv.queue pid, waiting_split s i]
    simp [Inv.not_waiting found from_ pid, target]
  · rintro _ ⟨⟩
    exact inv.holder i p found
  · exact fun j r _ foundR => inv.holder j r foundR
  · exact fun locked => (inv.held_split found locked).imp_left fun holding => ⟨_, rfl, holding⟩
  · rintro _ ⟨⟩
    exact outside
  · rintro _ ⟨⟩
    exact inside

/-- `isholdingpriority` tells a process whether it holds the lock. -/
theorem Inv.isholding (inv : Inv s) (found : s.proc i = some p) :
    isholdingpriority s.lk p.pid = p.holding := by
  rw [Bool.eq_iff_iff, isholdingpriority_iff, inv.holder i p found]
  rcases inv.bit with zero | one
  · simp [zero]
  · simp [one]

theorem fork_inv (inv : Inv s) {pid : Nat} (free : s.proc i = none) (positive : 0 < pid)
    (fresh : ∀ j p, s.proc j = some p → p.pid ≠ pid) :
    Inv (s.set i (some { pid := pid, phase := .user, holding := false })) := by
  have notWaiting : ∀ pid, ¬ Waiting s i pid := by
    rintro pid ⟨r, foundR, -⟩
    rw [free] at foundR
    cases foundR
  have holders : ∀ j, Holding s j → j ≠ i := by
    rintro j ⟨r, foundR, -⟩ rfl
    rw [free] at foundR
    cases foundR
  refine inv.update i _ s.lk ?_ inv.ordered ?_ inv.bit ?_ ?_ ?_ ?_ ?_
  · rintro _ ⟨⟩
    exact ⟨positive, fun j r _ foundR => fresh j r foundR⟩
  · intro other
    rw [inv.queue other, waiting_split s i]
    simp [notWaiting other]
  · rintro _ ⟨⟩
    -- the recorded holder is another slot, so its pid is not the new one
    refine ⟨fun h => (by cases h), fun ⟨locked, same⟩ => ?_⟩
    obtain ⟨j, r, foundR, holding⟩ := inv.held locked
    have recorded := ((inv.holder j r foundR).1 holding).2
    exact absurd (recorded.symm.trans same) (fresh j r foundR)
  · exact fun j r _ foundR => inv.holder j r foundR
  · intro locked
    obtain ⟨j, holding⟩ := inv.held locked
    exact .inr ⟨j, holders j holding, holding⟩
  · rintro _ ⟨⟩ h
    cases h
  · rintro _ ⟨⟩ h
    simp at h

/-- The queued pids belong to different waiting slots. -/
theorem Inv.owners (inv : Inv s) :
    ∃ slot : Fin s.lk.inqueue → Fin NPROC, Function.Injective slot ∧
      ∀ k, Waiting s (slot k) (s.lk.lockreq k) := by
  have owner : ∀ k : Fin s.lk.inqueue, ∃ j, Waiting s j (s.lk.lockreq k) := fun k =>
    (inv.queue _).1 ⟨k, k.isLt, rfl⟩
  choose slot waiting using owner
  refine ⟨slot, fun k l same => ?_, waiting⟩
  obtain ⟨p, foundP, -, pidP⟩ := waiting k
  obtain ⟨q, foundQ, -, pidQ⟩ := waiting l
  rw [same, foundQ] at foundP
  cases foundP
  exact Fin.ext (inv.ordered.injective k.isLt l.isLt (pidP.symm.trans pidQ))

theorem Inv.inqueue_le (inv : Inv s) : s.lk.inqueue ≤ NPROC := by
  obtain ⟨slot, injective, -⟩ := inv.owners
  simpa using Fintype.card_le_of_injective slot injective

/-- The number of queued pids is below the number of slots while some slot does not wait. -/
theorem Inv.room (inv : Inv s) (found : s.proc i = some p) (entering : p.phase = .entering) :
    s.lk.inqueue < NPROC := by
  obtain ⟨slot, injective, waiting⟩ := inv.owners
  refine (inv.inqueue_le).lt_of_ne fun full => ?_
  obtain ⟨k, atI⟩ := (injective.bijective_of_nat_card_le (by simp [full])).2 i
  exact Inv.not_waiting found (by simp [entering]) _ (atI ▸ waiting k)

theorem enqueue_inv (inv : Inv s) (found : s.proc i = some p) (phase : p.phase = .entering) :
    Inv ((s.setLock (enqueue s.lk p.pid)).set i (some { p with phase := .spinning })) := by
  have idle := Inv.not_waiting found (by rw [phase]; decide)
  have room := inv.room found phase
  have notHolding : p.holding = false := by
    by_contra holding
    have := inv.outside i p found (by simpa using holding)
    simp [phase] at this
  have fresh : ¬ Queued s.lk p.pid := by
    intro queued
    obtain ⟨j, r, foundR, spinning, same⟩ := (inv.queue _).1 queued
    have eq := inv.distinct j i r p foundR found same
    subst eq
    exact idle _ ⟨r, foundR, spinning, rfl⟩
  refine inv.update i _ _ ?_ (enqueue_ordered inv.ordered room fresh) ?_ (by simpa using inv.bit)
    ?_ ?_ ?_ ?_ ?_
  · rintro _ ⟨⟩
    exact inv.identity (p := p) found
  · intro pid
    rw [enqueue_queued inv.ordered room, inv.queue pid, waiting_split s i]
    simp [idle pid, eq_comm]
  · rintro _ ⟨⟩
    simpa using inv.holder i p found
  · intro j r _ foundR
    simpa using inv.holder j r foundR
  · intro locked
    have holder := inv.held_split found (by simpa using locked)
    exact holder.imp_left fun holding => ⟨_, rfl, holding⟩
  · rintro _ ⟨⟩ holding
    simp [notHolding] at holding
  · rintro _ ⟨⟩ h
    simp at h

/-- Where an iteration of `acquirepriority` gets the lock. -/
theorem spin_eq_some {lk lk' : PriorityLock} {pid : Nat} (acquired : spin lk pid = some lk') :
    lk.locked ≠ 1 ∧ ∃ mid, isprior lk pid = some mid ∧
      lk' = { mid with locked := 1, pid := pid } := by
  unfold spin at acquired
  split at acquired
  · cases acquired
  · rename_i free
    simp only [Option.map_eq_some_iff] at acquired
    obtain ⟨mid, prior, rfl⟩ := acquired
    exact ⟨free, mid, prior, rfl⟩

theorem spin_inv (inv : Inv s) {lk : PriorityLock} (found : s.proc i = some p)
    (acquired : spin s.lk p.pid = some lk) :
    Inv ((s.setLock lk).set i (some { p with phase := .user, holding := true })) := by
  obtain ⟨free, mid, prior, rfl⟩ := spin_eq_some acquired
  have noHolder : ∀ j r, s.proc j = some r → r.holding = false := by
    intro j r foundR
    by_contra holding
    exact free ((inv.holder j r foundR).1 (by simpa using holding)).1
  have ordered := isprior_ordered inv.ordered prior
  refine inv.update i _ _ ?_ ⟨ordered.descending, ordered.zeros⟩ ?_ (.inr rfl) ?_ ?_ ?_ ?_ ?_
  · rintro _ ⟨⟩
    exact inv.identity (p := p) found
  · intro pid
    have removed := isprior_queued inv.ordered prior pid
    have others : (∃ j, Waiting s j pid) ∧ pid ≠ p.pid ↔ ∃ j, j ≠ i ∧ Waiting s j pid := by
      constructor
      · rintro ⟨⟨j, r, foundR, spinning, same⟩, ne⟩
        refine ⟨j, ?_, r, foundR, spinning, same⟩
        rintro rfl
        rw [found] at foundR
        cases foundR
        exact ne same.symm
      · rintro ⟨j, ne, r, foundR, spinning, same⟩
        refine ⟨⟨j, r, foundR, spinning, same⟩, fun eq => ne ?_⟩
        exact inv.distinct j i r p foundR found (same.trans eq)
    refine removed.trans ?_
    rw [inv.queue pid, others]
    simp
  · rintro _ ⟨⟩
    simp
  · intro j r ne foundR
    have other : p.pid ≠ r.pid := fun same => ne (inv.distinct j i r p foundR found same.symm)
    simp [noHolder j r foundR, other]
  · exact fun _ => .inl ⟨_, rfl, rfl⟩
  · rintro _ ⟨⟩ _
    exact .inl rfl
  · rintro _ ⟨⟩ h
    simp at h

theorem release_inv (inv : Inv s) (found : s.proc i = some p)
    (phase : p.phase = .releasing ∨ p.phase = .exiting) {after : Phase}
    (target : after = .user ∨ after = .exited) :
    Inv ((s.setLock (releasepriority s.lk)).set i
      (some { p with phase := after, holding := false })) := by
  have holding := inv.inside i p found phase
  have idle := Inv.not_waiting found (by rcases phase with h | h <;> rw [h] <;> decide)
  have noOther : ∀ j r, j ≠ i → s.proc j = some r → r.holding = false := by
    intro j r ne foundR
    by_contra other
    have recorded := ((inv.holder i p found).1 holding).2
    have recordedR := ((inv.holder j r foundR).1 (by simpa using other)).2
    exact ne (inv.distinct j i r p foundR found (recordedR.symm.trans recorded))
  refine inv.update i _ _ ?_ ⟨inv.ordered.descending, inv.ordered.zeros⟩ ?_ (.inl rfl)
    ?_ ?_ ?_ ?_ ?_
  · rintro _ ⟨⟩
    exact inv.identity (p := p) found
  · intro pid
    refine (inv.queue pid).trans ?_
    rw [waiting_split s i]
    rcases target with rfl | rfl <;> simp [idle pid]
  · rintro _ ⟨⟩
    simp [releasepriority]
  · intro j r ne foundR
    simp [releasepriority, noOther j r ne foundR]
  · intro locked
    simp [releasepriority] at locked
  · rintro _ ⟨⟩ h
    cases h
  · rintro _ ⟨⟩ h
    rcases target with rfl | rfl <;> simp at h

theorem reap_inv (inv : Inv s) (found : s.proc i = some p) (phase : p.phase = .exited) :
    Inv (s.set i none) := by
  have idle := Inv.not_waiting found (by rw [phase]; decide)
  refine inv.update i none s.lk ?_ inv.ordered ?_ inv.bit ?_ ?_ ?_ ?_ ?_
  · rintro _ ⟨⟩
  · intro pid
    rw [inv.queue pid, waiting_split s i]
    simp [idle pid]
  · rintro _ ⟨⟩
  · exact fun j r _ foundR => inv.holder j r foundR
  · intro locked
    refine (inv.held_split found locked).imp_left fun holding => ?_
    have := inv.outside i p found holding
    simp [phase] at this
  · rintro _ ⟨⟩
  · rintro _ ⟨⟩

/-- **One step of any process keeps the invariant.** -/
theorem step_inv (s : State) (e : Event) (s' : State) (inv : Inv s)
    (stepped : step s e = some s') : Inv s' := by
  cases e with
  | fork i pid =>
    obtain ⟨ok, ⟨⟩⟩ := Option.ite_none_right_eq_some.mp stepped
    exact fork_inv inv ok.1 ok.2.1 ok.2.2
  | pacquire i =>
    obtain ⟨p, found, phase, run⟩ := State.at_eq_some stepped
    rw [inv.isholding found] at run
    split at run <;> cases run
    · exact inv
    · rename_i free
      exact inv.setPhase found .entering (by rw [phase]; decide) (by decide)
        (fun holding => absurd holding free) (by simp)
  | enqueue i =>
    obtain ⟨p, found, phase, run⟩ := State.at_eq_some stepped
    cases run
    exact enqueue_inv inv found phase
  | spin i =>
    obtain ⟨p, found, phase, run⟩ := State.at_eq_some stepped
    split at run <;> cases run
    · exact inv
    · rename_i acquired
      exact spin_inv inv found acquired
  | prelease i =>
    obtain ⟨p, found, phase, run⟩ := State.at_eq_some stepped
    rw [inv.isholding found] at run
    split at run <;> cases run
    · rename_i holding
      exact inv.setPhase found .releasing (by rw [phase]; decide) (by decide) (by simp)
        fun _ => holding
    · exact inv
  | release i =>
    simp only [step] at stepped
    split at stepped
    · rename_i p found
      split_ifs at stepped with releasing exiting <;> cases stepped
      · exact release_inv inv found (.inl releasing) (.inl rfl)
      · exact release_inv inv found (.inr exiting) (.inr rfl)
    · cases stepped
  | exit i =>
    obtain ⟨p, found, phase, run⟩ := State.at_eq_some stepped
    rw [inv.isholding found] at run
    split at run <;> cases run
    · rename_i holding
      exact inv.setPhase found .exiting (by rw [phase]; decide) (by decide) (by simp)
        fun _ => holding
    · rename_i free
      exact inv.setPhase found .exited (by rw [phase]; decide) (by decide)
        (fun holding => absurd holding free) (by simp)
  | reap i =>
    obtain ⟨p, found, phase, run⟩ := State.at_eq_some stepped
    cases run
    exact reap_inv inv found phase

theorem reachable_inv (reached : system.Reachable s) : Inv s :=
  reached.invariant start_inv fun s e s' inv _ stepped => step_inv s e s' inv stepped

/-! ## What the protocol guarantees -/

/-- At most one process is between `acquirepriority` and its release. -/
theorem Inv.holding_unique (inv : Inv s) {j : Fin NPROC} (first : Holding s i)
    (second : Holding s j) : i = j := by
  obtain ⟨p, foundP, holdingP⟩ := first
  obtain ⟨q, foundQ, holdingQ⟩ := second
  have recordedP := ((inv.holder i p foundP).1 holdingP).2
  have recordedQ := ((inv.holder j q foundQ).1 holdingQ).2
  exact inv.distinct i j p q foundP foundQ (recordedP.symm.trans recordedQ)

/-- An iteration that gets the lock was made by the greatest waiting pid. -/
theorem Inv.acquired_greatest {s' : State} (inv : Inv s) (stepped : step s (.spin i) = some s')
    (acquired : ¬ Holding s i ∧ Holding s' i) :
    ∃ p, s.proc i = some p ∧ ∀ j pid, Waiting s j pid → pid ≤ p.pid := by
  obtain ⟨p, found, -, run⟩ := State.at_eq_some stepped
  split at run <;> cases run
  · exact absurd acquired.2 acquired.1
  · rename_i got
    obtain ⟨-, mid, prior, rfl⟩ := spin_eq_some got
    refine ⟨p, found, fun j pid waiting => ?_⟩
    have queued := (inv.queue pid).2 ⟨j, waiting⟩
    have := inv.ordered.le_head queued
    rwa [(isprior_eq_some prior).2.1] at this

/-- The recorded holder has not exited. -/
theorem Inv.holder_alive (inv : Inv s) (locked : s.lk.locked = 1) :
    ∃ i p, s.proc i = some p ∧ p.pid = s.lk.pid ∧ p.phase ≠ .exited := by
  obtain ⟨i, p, found, holding⟩ := inv.held locked
  refine ⟨i, p, found, ((inv.holder i p found).1 holding).2.symm, fun exited => ?_⟩
  have := inv.outside i p found holding
  simp [exited] at this

/-- **The priority lock protocol.**  In every state that any order of `pacquire`,
`prelease`, `fork` and exit steps of any processes reaches: one holder at most; the queue
is strictly descending, holds exactly the waiting pids and is followed by zeros; the lock
goes to the greatest waiting pid; a process about to call `enqueue` finds room; and the
recorded holder has not exited. -/
theorem priority_lock_protocol {s : State} (reached : system.Reachable s) :
    (∀ i j, Holding s i → Holding s j → i = j) ∧
      ((∀ i j, i < j → j < s.lk.inqueue → s.lk.lockreq j < s.lk.lockreq i) ∧
        (∀ pid, Queued s.lk pid ↔ ∃ i, Waiting s i pid) ∧
        (∀ i, s.lk.inqueue ≤ i → s.lk.lockreq i = 0) ∧ s.lk.inqueue ≤ NPROC) ∧
      (∀ i s', step s (.spin i) = some s' → ¬ Holding s i ∧ Holding s' i →
        ∃ p, s.proc i = some p ∧ ∀ j pid, Waiting s j pid → pid ≤ p.pid) ∧
      (∀ i p, s.proc i = some p → p.phase = .entering → s.lk.inqueue ≠ NPROC) ∧
      (s.lk.locked = 1 →
        ∃ i p, s.proc i = some p ∧ p.pid = s.lk.pid ∧ p.phase ≠ .exited) := by
  have inv := reachable_inv reached
  refine ⟨fun i j => inv.holding_unique, ⟨inv.ordered.descending, inv.queue,
    inv.ordered.zeros, inv.inqueue_le⟩, fun i s' => inv.acquired_greatest, ?_,
    inv.holder_alive⟩
  intro i p found entering
  exact Nat.ne_of_lt (inv.room found entering)

/-- An empty table and the lock as `pinit` leaves it. -/
def boot : State := { lk := initprioritylock, proc := fun _ => none }

/-- Two processes with pids 3 and 5 ask for the lock in this order; 5 gets it. -/
def twoRequests : List Event :=
  [.fork 0 3, .fork 1 5, .pacquire 0, .pacquire 1, .enqueue 0, .enqueue 1, .spin 0, .spin 1]

def afterTwoRequests : State := (system.run boot twoRequests).getD boot

theorem afterTwoRequests_reachable : system.Reachable afterTwoRequests :=
  System.reachable_of_run (s := boot) twoRequests ⟨rfl, fun _ => rfl⟩ rfl

theorem priority_lock_protocol_twoRequests :
    system.Reachable afterTwoRequests ∧ Holding afterTwoRequests 1 ∧
      afterTwoRequests.lk.lockreq 0 = 3 ∧
      ∀ i, Holding afterTwoRequests i → i = 1 := by
  have holding : Holding afterTwoRequests 1 := ⟨_, rfl, rfl⟩
  refine ⟨afterTwoRequests_reachable, holding, rfl, fun i other => ?_⟩
  exact (priority_lock_protocol afterTwoRequests_reachable).1 i 1 other holding

end Xv6.Plock
