/-
# Xv6.PriorityLock.Interleaving -- `enqueue` access by access

`acquirepriority` calls `enqueue` before it takes `lk->lk`, so every read and write of
`lockreq` and `inqueue` in it can be interleaved with another process's `enqueue` and
with the removal in `isprior`.  `Fine` refines the state of `Xv6.PriorityLock.Protocol` by the
place of each process inside `enqueue`; `FineEvent.access` makes one access.  All other
steps are those of the protocol.

Two overlapping calls lose a request (`overlapping_enqueue_loses_request`).  What is
left is the serial case: while calls of `enqueue` overlap neither each other nor a
removal, the fine system refines the protocol (`serial_simulation`), a call of
`enqueue` being one step of it.  Between calls every waiting pid then stands in the
queue exactly once (`serial_request_kept`).  In the middle of a call that is so as well
when the arriving pid is the smallest (`request_kept`); a smaller waiting pid has been
moved to `lockreq[inqueue]`, one past the counted part, until `inqueue++`.
-/
import Xv6.PriorityLock.Protocol

namespace Xv6.Plock

open Lib Function

set_option autoImplicit false

/-- The place of a process inside `enqueue`: the access it makes next, with its locals. -/
inductive EnqueuePc where
  /-- read `lockreq[pos]` in the scan -/
  | scan (pos : Nat)
  /-- read `inqueue` into `i` -/
  | count (pos : Nat)
  /-- read `lockreq[i - 1]` -/
  | load (pos i : Nat)
  /-- write the value read to `lockreq[i]` -/
  | store (pos i value : Nat)
  /-- write `pid` to `lockreq[pos]` -/
  | put (pos : Nat)
  /-- read `inqueue` for `inqueue++` -/
  | bump
  /-- write the incremented value to `inqueue` -/
  | bumped (n : Nat)
  deriving DecidableEq, Repr

/-- The protocol's state and, for a process inside `enqueue` past its first access, the
place it has reached. -/
structure Fine where
  st : State
  pc : Fin NPROC → Option EnqueuePc

inductive FineEvent where
  | access (slot : Fin NPROC)
  | call (e : Event)
  deriving DecidableEq, Repr

def Fine.goto (f : Fine) (i : Fin NPROC) (pc : EnqueuePc) : Fine :=
  { f with pc := update f.pc i (some pc) }

def Fine.setLock (f : Fine) (lk : PriorityLock) : Fine := { f with st := f.st.setLock lk }

def Fine.setLockreq (f : Fine) (index value : Nat) : Fine :=
  f.setLock { f.st.lk with lockreq := update f.st.lk.lockreq index value }

/-- The process leaves `enqueue` and goes on to the loop of `acquirepriority`. -/
def Fine.leave (f : Fine) (i : Fin NPROC) (p : Slot) : Fine :=
  { st := f.st.set i (some { p with phase := .spinning }), pc := update f.pc i none }

/-- The next access of process `i`, which is inside `enqueue` with slot `p`. -/
def access (f : Fine) (i : Fin NPROC) (p : Slot) : Fine :=
  match f.pc i with
  | none => if f.st.lk.inqueue = NPROC then f.leave i p else f.goto i (.scan 0)
  | some (.scan pos) =>
    if f.st.lk.lockreq pos > p.pid then f.goto i (.scan (pos + 1)) else f.goto i (.count pos)
  | some (.count pos) =>
    if f.st.lk.inqueue > pos then f.goto i (.load pos f.st.lk.inqueue) else f.goto i (.put pos)
  | some (.load pos k) => f.goto i (.store pos k (f.st.lk.lockreq (k - 1)))
  | some (.store pos k value) =>
    let stored := f.setLockreq k value
    if k - 1 > pos then stored.goto i (.load pos (k - 1)) else stored.goto i (.put pos)
  | some (.put pos) => (f.setLockreq pos p.pid).goto i .bump
  | some .bump => f.goto i (.bumped f.st.lk.inqueue)
  | some (.bumped n) => (f.setLock { f.st.lk with inqueue := n + 1 }).leave i p

/-- One access of a process inside `enqueue`, or a step of the protocol other than the
whole of `enqueue`. -/
def fineStep (f : Fine) : FineEvent → Option Fine
  | .access i =>
    match f.st.proc i with
    | some p => if p.phase = .entering then some (access f i p) else none
    | none => none
  | .call (.enqueue _) => none
  | .call e => (step f.st e).map fun s => { f with st := s }

def fineSystem : System Fine FineEvent where
  start := fun f => system.start f.st ∧ ∀ i, f.pc i = none
  next := fineStep

/-- The pid stands in `lockreq[0..inqueue)` exactly once. -/
def QueuedOnce (lk : PriorityLock) (pid : Nat) : Prop :=
  ∃! k, k < lk.inqueue ∧ lk.lockreq k = pid

/-- Nobody is past its first access inside `enqueue`. -/
def Quiet (f : Fine) : Prop := ∀ i, f.pc i = none
deriving Decidable

/-- Calls of `enqueue` overlap neither each other nor a removal: a process makes its first
access, or gets the lock and removes its entry, only while nobody is inside `enqueue`. -/
def Serial (f : Fine) : FineEvent → Prop
  | .access i => f.pc i = none → Quiet f
  | .call (.spin i) => ∀ p, f.st.proc i = some p → (spin f.st.lk p.pid).isSome → Quiet f
  | .call _ => True

/-- A process makes its first access inside `enqueue` only while no process with a
smaller pid waits. -/
def Descending (f : Fine) : FineEvent → Prop
  | .access i => f.pc i = none → ∀ p, f.st.proc i = some p →
      ∀ j r, f.st.proc j = some r → r.phase = .spinning → p.pid < r.pid
  | .call _ => True

/-! ## A lost request -/

def fineBoot : Fine := { st := boot, pc := fun _ => none }

/-- Pids 5 and 3 call `pacquire`.  Pid 5 has read `inqueue` for its increment when pid 3
runs the whole of `enqueue`; then pid 5 writes back 1. -/
def overlappingEnqueue : List FineEvent :=
  [.call (.fork 0 5), .call (.fork 1 3), .call (.pacquire 0), .call (.pacquire 1)] ++
    List.replicate 5 (.access 0) ++ List.replicate 7 (.access 1) ++ [.access 0]

def afterOverlap : Fine := (fineSystem.run fineBoot overlappingEnqueue).getD fineBoot

theorem afterOverlap_reachable : fineSystem.Reachable afterOverlap :=
  System.reachable_of_run (s := fineBoot) overlappingEnqueue
    ⟨⟨rfl, fun _ => rfl⟩, fun _ => rfl⟩ rfl

/-- Both calls have returned and both processes wait, but pid 3 is not in the queue. -/
theorem overlapping_enqueue_loses_request :
    ¬ ∀ f, fineSystem.Reachable f →
      ∀ j pid, Waiting f.st j pid → QueuedOnce f.st.lk pid := by
  intro kept
  have waiting : Waiting afterOverlap.st 1 3 := ⟨_, rfl, rfl, rfl⟩
  obtain ⟨k, ⟨counted, entry⟩, -⟩ := kept _ afterOverlap_reachable 1 3 waiting
  have one : afterOverlap.st.lk.inqueue = 1 := rfl
  have first : afterOverlap.st.lk.lockreq 0 = 5 := rfl
  have : k = 0 := by omega
  subst this
  cases entry

/-! ## The serial case refines the protocol -/

/-- What the call of `enqueue` for `pid` has done to the queue of `old` when it reaches
`pc`: `lk` is the queue now.  `pos` has been found at `count`; from `load` on the entries
above `i` have been moved up; from `bump` on the array is that of `enqueue`. -/
def Progress (old : PriorityLock) (pid : Nat) (lk : PriorityLock) : EnqueuePc → Prop
  | .scan pos => lk.lockreq = old.lockreq ∧ ∀ i, i < pos → pid < old.lockreq i
  | .count pos => lk.lockreq = old.lockreq ∧ (∀ i, i < pos → pid < old.lockreq i) ∧
      old.lockreq pos ≤ pid
  | .load pos i => (pos < i ∧ i ≤ old.inqueue) ∧ (∀ k, k < pos → pid < old.lockreq k) ∧
      old.lockreq pos ≤ pid ∧
      ∀ k, lk.lockreq k = if i < k ∧ k ≤ old.inqueue then old.lockreq (k - 1) else old.lockreq k
  | .store pos i value => (pos < i ∧ i ≤ old.inqueue) ∧ (∀ k, k < pos → pid < old.lockreq k) ∧
      old.lockreq pos ≤ pid ∧ value = old.lockreq (i - 1) ∧
      ∀ k, lk.lockreq k = if i < k ∧ k ≤ old.inqueue then old.lockreq (k - 1) else old.lockreq k
  | .put pos => (∀ k, k < pos → pid < old.lockreq k) ∧ old.lockreq pos ≤ pid ∧
      ∀ k, lk.lockreq k = if pos < k ∧ k ≤ old.inqueue then old.lockreq (k - 1) else old.lockreq k
  | .bump => lk.lockreq = (enqueue old pid).lockreq
  | .bumped n => lk.lockreq = (enqueue old pid).lockreq ∧ n = old.inqueue

/-- Process `q` is in the middle of `enqueue`; the protocol, in state `t`, has not taken
that step yet.  Under `ordered` no smaller pid waits. -/
structure Mid (ordered : Prop) (f : Fine) (t : State) (q : Fin NPROC) (p : Slot)
    (pc : EnqueuePc) : Prop where
  slot : t.proc q = some p
  phase : p.phase = .entering
  procs : f.st.proc = t.proc
  pcs : f.pc = update (fun _ => none) q (some pc)
  locked : f.st.lk.locked = t.lk.locked
  pid : f.st.lk.pid = t.lk.pid
  inqueue : f.st.lk.inqueue = t.lk.inqueue
  progress : Progress t.lk p.pid f.st.lk pc
  smallest : ordered → ∀ j pid, Waiting t j pid → p.pid < pid

/-- The fine state stands for the protocol's state: it is that state, or one process is
on its way through `enqueue`. -/
def Sim (ordered : Prop) (f : Fine) (t : State) : Prop :=
  (f.st = t ∧ Quiet f) ∨ ∃ q p pc, Mid ordered f t q p pc

/-- The condition on the steps of a run: serial and, under `ordered`, in descending
order of arrival. -/
def Admitted (ordered : Prop) (f : Fine) (e : FineEvent) : Prop :=
  Serial f e ∧ (ordered → Descending f e)

section Accesses

variable {ordered : Prop} {f : Fine} {t : State} {q : Fin NPROC} {p : Slot} {pc : EnqueuePc}

theorem Mid.pc_self (mid : Mid ordered f t q p pc) : f.pc q = some pc := by
  rw [mid.pcs, update_self]

theorem Mid.not_quiet (mid : Mid ordered f t q p pc) : ¬ Quiet f := fun quiet => by
  simpa [mid.pc_self] using quiet q

/-- An access that only moves the process on. -/
theorem Mid.goto (mid : Mid ordered f t q p pc) (next : EnqueuePc)
    (progress : Progress t.lk p.pid f.st.lk next) : Mid ordered (f.goto q next) t q p next :=
  { mid with
    pcs := by simp [Fine.goto, mid.pcs]
    progress := progress }

/-- An access that writes one word of the array and moves the process on. -/
theorem Mid.write (mid : Mid ordered f t q p pc) (next : EnqueuePc) {index value : Nat}
    (progress : Progress t.lk p.pid (f.setLockreq index value).st.lk next) :
    Mid ordered ((f.setLockreq index value).goto q next) t q p next :=
  { slot := mid.slot
    phase := mid.phase
    procs := mid.procs
    pcs := by simp [Fine.goto, Fine.setLockreq, Fine.setLock, mid.pcs]
    locked := mid.locked
    pid := mid.pid
    inqueue := mid.inqueue
    progress := progress
    smallest := mid.smallest }

/-- The word stored at `lockreq[i]` is the one that belongs there after the shift. -/
theorem shift_entry {old : Nat → Nat} {lockreq : Nat → Nat} {n i : Nat}
    (inside : 0 < i ∧ i ≤ n)
    (entry : ∀ k, lockreq k = if i < k ∧ k ≤ n then old (k - 1) else old k) (k : Nat) :
    update lockreq i (old (i - 1)) k =
      if i - 1 < k ∧ k ≤ n then old (k - 1) else old k := by
  rw [update_apply, entry]
  by_cases here : k = i
  · subst here
    rw [if_pos rfl, if_pos (by omega)]
  · rw [if_neg here]
    have same : (i < k ∧ k ≤ n) ↔ (i - 1 < k ∧ k ≤ n) := by omega
    simp only [same]

/-- **One access inside `enqueue`**: the process goes on, or it leaves and the protocol has
taken its `enqueue` step. -/
theorem Mid.access (mid : Mid ordered f t q p pc) (inv : Inv t) :
    (∃ next, Mid ordered (access f q p) t q p next) ∨
      ∃ t', step t (.enqueue q) = some t' ∧ (Plock.access f q p).st = t' ∧
        Quiet (Plock.access f q p) := by
  have room := inv.room mid.slot mid.phase
  have progress := mid.progress
  have here := mid.pc_self
  cases pc with
  | scan pos =>
    obtain ⟨same, above⟩ := progress
    left
    simp only [Plock.access, here, same]
    split
    · rename_i larger
      refine ⟨.scan (pos + 1), mid.goto _ ⟨same, fun i hi => ?_⟩⟩
      rcases Nat.lt_succ_iff_lt_or_eq.1 hi with lt | rfl
      · exact above i lt
      · exact larger
    · rename_i small
      exact ⟨.count pos, mid.goto _ ⟨same, above, Nat.not_lt.1 small⟩⟩
  | count pos =>
    obtain ⟨same, above, stop⟩ := progress
    left
    simp only [Plock.access, here, mid.inqueue]
    split
    · rename_i more
      refine ⟨.load pos t.lk.inqueue, mid.goto _ ⟨⟨more, le_rfl⟩, above, stop, fun k => ?_⟩⟩
      rw [same, if_neg (by omega)]
    · refine ⟨.put pos, mid.goto _ ⟨above, stop, fun k => ?_⟩⟩
      rw [same, if_neg (by omega)]
  | load pos i =>
    obtain ⟨inside, above, stop, entry⟩ := progress
    left
    simp only [Plock.access, here]
    refine ⟨.store pos i _, mid.goto _ ⟨inside, above, stop, ?_, entry⟩⟩
    rw [entry (i - 1), if_neg (by omega)]
  | store pos i value =>
    obtain ⟨inside, above, stop, rfl, entry⟩ := progress
    left
    have stored := shift_entry ⟨by omega, inside.2⟩ entry
    simp only [Plock.access, here]
    split
    · rename_i more
      exact ⟨.load pos (i - 1), mid.write _ ⟨⟨more, by omega⟩, above, stop, stored⟩⟩
    · have last : i - 1 = pos := by omega
      rw [last] at stored
      refine ⟨.put pos, mid.write _ ⟨above, stop, fun k => ?_⟩⟩
      rw [last]
      exact stored k
  | put pos =>
    obtain ⟨above, stop, entry⟩ := progress
    left
    simp only [Plock.access, here]
    refine ⟨.bump, mid.write _ (funext fun k => ?_)⟩
    rw [enqueue_lockreq inv.ordered room above stop k]
    simp only [Fine.setLockreq, Fine.setLock, State.setLock, update_apply, entry k]
  | bump =>
    left
    simp only [Plock.access, here]
    exact ⟨.bumped _, mid.goto _ ⟨progress, mid.inqueue⟩⟩
  | bumped n =>
    obtain ⟨array, rfl⟩ := progress
    right
    simp only [Plock.access, here]
    refine ⟨(t.setLock (enqueue t.lk p.pid)).set q (some { p with phase := .spinning }), ?_, ?_, ?_⟩
    · simp [step, State.at, mid.slot, mid.phase]
    · have count := enqueue_inqueue (Nat.ne_of_lt room) p.pid
      have lock : ({ f.st.lk with inqueue := t.lk.inqueue + 1 } : PriorityLock) =
          enqueue t.lk p.pid := by
        rcases lk : enqueue t.lk p.pid with ⟨locked, inqueue, lockreq, pid⟩
        have locked' := enqueue_locked t.lk p.pid
        have pid' := enqueue_pid t.lk p.pid
        rw [lk] at count array locked' pid'
        simp only at count array locked' pid'
        rw [count, locked', pid', ← mid.locked, ← mid.pid, ← array]
      simp only [Fine.leave, Fine.setLock, State.set, State.setLock, mid.procs, lock]
    · intro i
      simp only [Fine.leave, Fine.setLock, mid.pcs, update_idem]
      simp

end Accesses

/-- The steps that neither read nor write the queue. -/
def Event.OffQueue : Event → Prop
  | .enqueue _ => False
  | .spin _ => False
  | _ => True

variable {t : State} {e : Event} {f : Fine} {t' s' : State} {q j : Fin NPROC} {p : Slot}

/-- What a step off the queue can do: nothing, or change one slot that is not entering to
one that does not wait, and perhaps release the lock. -/
theorem step_offQueue (off : e.OffQueue) (stepped : step t e = some t') :
    t' = t ∨ ∃ i q lk, t' = (t.setLock lk).set i q ∧ (lk = t.lk ∨ lk = releasepriority t.lk) ∧
      (∀ p, t.proc i = some p → p.phase ≠ .entering) ∧
      ∀ p, q = some p → p.phase ≠ .spinning := by
  have changed : ∀ {i : Fin NPROC} {p : Slot} {phase : Phase}, t.proc i = some p →
      p.phase = phase → phase ≠ .entering → ∀ r, t.proc i = some r → r.phase ≠ .entering := by
    intro i p phase found at_ ne r foundR
    rw [found] at foundR
    cases foundR
    rwa [at_]
  cases e with
  | fork i pid =>
    simp only [step] at stepped
    split at stepped <;> cases stepped
    rename_i ok
    exact .inr ⟨i, _, t.lk, rfl, .inl rfl, by simp [ok.1], by rintro _ ⟨⟩; simp⟩
  | pacquire i | prelease i | exit i =>
    obtain ⟨p, found, phase, run⟩ := State.at_eq_some stepped
    split at run <;> cases run
    all_goals first
      | exact .inl rfl
      | exact .inr ⟨i, _, t.lk, rfl, .inl rfl, changed found phase (by decide),
          by rintro _ ⟨⟩; simp⟩
  | release i =>
    simp only [step] at stepped
    split at stepped
    · rename_i p found
      split_ifs at stepped with releasing exiting <;> cases stepped
      · exact .inr ⟨i, _, _, rfl, .inr rfl, changed found releasing (by decide),
          by rintro _ ⟨⟩; simp⟩
      · exact .inr ⟨i, _, _, rfl, .inr rfl, changed found exiting (by decide),
          by rintro _ ⟨⟩; simp⟩
    · cases stepped
  | reap i =>
    obtain ⟨p, found, phase, run⟩ := State.at_eq_some stepped
    cases run
    exact .inr ⟨i, _, t.lk, rfl, .inl rfl, changed found phase (by decide), by rintro _ ⟨⟩⟩
  | enqueue i => exact off.elim
  | spin i => exact off.elim

/-- A step off the queue leaves the queue, the entering slots and, but for those that no
longer wait, the waiting slots as they are. -/
theorem offQueue_frame (off : e.OffQueue) (stepped : step t e = some t') :
    (t'.lk.lockreq = t.lk.lockreq ∧ t'.lk.inqueue = t.lk.inqueue) ∧
      (∀ q p, t.proc q = some p → p.phase = .entering → t'.proc q = some p) ∧
      ∀ j pid, Waiting t' j pid → Waiting t j pid := by
  rcases step_offQueue off stepped with rfl | ⟨i, q, lk, rfl, lock, old, new⟩
  · exact ⟨⟨rfl, rfl⟩, fun _ _ found _ => found, fun _ _ waiting => waiting⟩
  · refine ⟨?_, fun k p found entering => ?_, ?_⟩
    · rcases lock with rfl | rfl <;> exact ⟨rfl, rfl⟩
    · have ne : k ≠ i := by
        rintro rfl
        exact old p found entering
      simpa [State.set, State.setLock, ne] using found
    · rintro j pid ⟨p, found, spinning, same⟩
      rcases eq_or_ne j i with rfl | ne
      · simp only [State.set, State.setLock, update_self] at found
        exact absurd spinning (new p found)
      · simp only [State.set, State.setLock, update_of_ne ne] at found
        exact ⟨p, found, spinning, same⟩

/-- The two states agree but for the queue. -/
def AgreeOff (s t : State) : Prop :=
  s.proc = t.proc ∧ s.lk.locked = t.lk.locked ∧ s.lk.pid = t.lk.pid

/-- A step off the queue does not see the queue. -/
theorem offQueue_congr {s : State} (off : e.OffQueue) (agree : AgreeOff s t)
    (stepped : step s e = some s') : ∃ t', step t e = some t' ∧ AgreeOff s' t' := by
  obtain ⟨procs, locked, pid⟩ := agree
  have holding : ∀ r, isholdingpriority s.lk r = isholdingpriority t.lk r := fun r => by
    simp only [isholdingpriority, locked, pid]
  have agreeSet : ∀ i q, AgreeOff (s.set i q) (t.set i q) := fun i q =>
    ⟨by simp [State.set, procs], locked, pid⟩
  have agreeRelease : ∀ i q, AgreeOff ((s.setLock (releasepriority s.lk)).set i q)
      ((t.setLock (releasepriority t.lk)).set i q) := fun i q =>
    ⟨by simp [State.set, State.setLock, procs], rfl, rfl⟩
  cases e with
  | fork i pid =>
    simp only [step, procs] at stepped ⊢
    split at stepped <;> cases stepped
    rename_i ok
    exact ⟨_, if_pos ok, agreeSet _ _⟩
  | pacquire i | prelease i | exit i =>
    obtain ⟨p, found, phase, run⟩ := State.at_eq_some stepped
    rw [procs] at found
    simp only [step, State.at, found, phase, if_true, ← holding]
    split at run <;> cases run <;> rename_i test
    all_goals
      simp only [test, if_true, if_false, Bool.false_eq_true]
      first
        | exact ⟨_, rfl, procs, locked, pid⟩
        | exact ⟨_, rfl, agreeSet _ _⟩
  | release i =>
    simp only [step, procs] at stepped ⊢
    split at stepped
    · split_ifs at stepped with releasing exiting <;> cases stepped
      · exact ⟨_, if_pos releasing, agreeRelease _ _⟩
      · exact ⟨_, (if_neg releasing).trans (if_pos exiting), agreeRelease _ _⟩
    · cases stepped
  | reap i =>
    obtain ⟨p, found, phase, run⟩ := State.at_eq_some stepped
    rw [procs] at found
    cases run
    simp only [step, State.at, found, phase, if_true]
    exact ⟨_, rfl, agreeSet _ _⟩
  | enqueue i => exact off.elim
  | spin i => exact off.elim

/-- `Progress` only speaks of the queue. -/
theorem Progress.congr {old old' lk lk' : PriorityLock} {pid : Nat} {pc : EnqueuePc}
    (progress : Progress old pid lk pc) (array : old'.lockreq = old.lockreq)
    (count : old'.inqueue = old.inqueue) (array' : lk'.lockreq = lk.lockreq) :
    Progress old' pid lk' pc := by
  have whole : (enqueue old' pid).lockreq = (enqueue old pid).lockreq := by
    simp only [enqueue, array, count]
    split <;> simp [array]
  cases pc <;> simpa only [Progress, array, count, array', whole] using progress

/-- In the middle of a call of `enqueue`, a step off the queue is the protocol's step. -/
theorem Mid.offQueue {ordered : Prop} {pc : EnqueuePc} (mid : Mid ordered f t q p pc)
    (off : e.OffQueue) (stepped : step f.st e = some s') :
    ∃ t', step t e = some t' ∧ Mid ordered { f with st := s' } t' q p pc := by
  obtain ⟨t', steppedT, procs, locked, pid⟩ :=
    offQueue_congr off ⟨mid.procs, mid.locked, mid.pid⟩ stepped
  obtain ⟨⟨arrayF, countF⟩, -, -⟩ := offQueue_frame off stepped
  obtain ⟨⟨arrayT, countT⟩, entering, waiting⟩ := offQueue_frame off steppedT
  refine ⟨t', steppedT, ?_⟩
  exact
    { slot := entering q p mid.slot mid.phase
      phase := mid.phase
      procs := procs
      pcs := mid.pcs
      locked := locked
      pid := pid
      inqueue := countF.trans (mid.inqueue.trans countT.symm)
      progress := mid.progress.congr arrayT countT arrayF
      smallest := fun h j r w => mid.smallest h j r (waiting j r w) }

/-- **While calls of `enqueue` do not overlap, `enqueue` is one step of the protocol.** -/
theorem serial_simulation {ordered : Prop} (reached : fineSystem.Reach (Admitted ordered) f) :
    ∃ t, system.Reachable t ∧ Sim ordered f t := by
  refine reached.simulate (T := system) ?_ ?_
  · exact fun f initial => ⟨f.st, initial.1, .inl ⟨rfl, initial.2⟩⟩
  rintro f e f' t reachedT sim ⟨serial, descending⟩ stepped
  have inv := reachable_inv reachedT
  have call : ∀ {e : Event}, (∀ i, e ≠ .enqueue i) → fineStep f (.call e) =
      (step f.st e).map fun s => { f with st := s } := by
    intro e ne
    cases e <;> first | rfl | exact absurd rfl (ne _)
  rcases sim with ⟨rfl, quiet⟩ | ⟨q, p, pc, mid⟩
  · cases e with
    | access i =>
      simp only [fineSystem, fineStep] at stepped
      split at stepped
      · rename_i p found
        split at stepped <;> cases stepped
        rename_i entering
        -- the first access of a call: nothing has happened to the queue yet
        have room := inv.room found entering
        have first : access f i p = f.goto i (.scan 0) := by
          simp [access, quiet i, Nat.ne_of_lt room]
        rw [first]
        refine .inl (.inr ⟨i, p, .scan 0, ?_⟩)
        exact
          { slot := found
            phase := entering
            procs := rfl
            pcs := by
              have none_ : f.pc = fun _ => none := funext quiet
              simp [Fine.goto, none_]
            locked := rfl
            pid := rfl
            inqueue := rfl
            progress := ⟨rfl, fun i hi => absurd hi (Nat.not_lt_zero i)⟩
            smallest := by
              rintro h j _ ⟨r, foundR, spinning, rfl⟩
              exact descending h (quiet i) p found j r foundR spinning }
      · cases stepped
    | call e =>
      by_cases whole : ∃ i, e = .enqueue i
      · obtain ⟨i, rfl⟩ := whole
        cases stepped
      · push Not at whole
        simp only [fineSystem, call whole, Option.map_eq_some_iff] at stepped
        obtain ⟨s', steppedS, rfl⟩ := stepped
        exact .inr ⟨e, s', steppedS, .inl ⟨rfl, quiet⟩⟩
  · cases e with
    | access i =>
      simp only [fineSystem, fineStep] at stepped
      split at stepped
      · rename_i r found
        split at stepped <;> cases stepped
        -- only `q` can make an access: another process would start an overlapping call
        have same : i = q := by
          by_contra ne
          exact mid.not_quiet (serial (by rw [mid.pcs, update_of_ne ne]))
        subst same
        rw [mid.procs, mid.slot] at found
        cases found
        rcases mid.access inv with ⟨next, mid'⟩ | ⟨t', steppedT, st, quiet⟩
        · exact .inl (.inr ⟨i, p, next, mid'⟩)
        · exact .inr ⟨.enqueue i, t', steppedT, .inl ⟨st, quiet⟩⟩
      · cases stepped
    | call e =>
      by_cases off : e.OffQueue
      · have partial_ : ∀ i, e ≠ .enqueue i := by
          rintro i rfl
          exact off
        simp only [fineSystem, call partial_, Option.map_eq_some_iff] at stepped
        obtain ⟨s', steppedS, rfl⟩ := stepped
        obtain ⟨t', steppedT, mid'⟩ := mid.offQueue off steppedS
        exact .inr ⟨e, t', steppedT, .inr ⟨q, p, pc, mid'⟩⟩
      · cases e with
        | enqueue i => cases stepped
        | spin i =>
          simp only [fineSystem, call (e := .spin i) (by simp), Option.map_eq_some_iff]
            at stepped
          obtain ⟨s', steppedS, rfl⟩ := stepped
          obtain ⟨r, found, -, run⟩ := State.at_eq_some steppedS
          split at run <;> cases run
          · exact .inl (.inr ⟨q, p, pc, mid⟩)
          · rename_i lk got
            exact absurd (serial r found (by simp [got])) mid.not_quiet
        | _ => exact absurd trivial off

/-! ## Requests that are kept -/

/-- In the protocol every waiting pid stands in the queue exactly once. -/
theorem Inv.queuedOnce (inv : Inv t) {pid : Nat} (waiting : Waiting t j pid) :
    QueuedOnce t.lk pid := by
  obtain ⟨k, counted, entry⟩ := (inv.queue pid).2 ⟨j, waiting⟩
  refine ⟨k, ⟨counted, entry⟩, fun l ⟨countedL, entryL⟩ => ?_⟩
  exact inv.ordered.injective countedL counted (entryL.trans entry.symm)

/-- In the middle of a call by the smallest pid the counted part of the array is still
what it was: the new pid goes to its end. -/
theorem Mid.counted {pc : EnqueuePc} (mid : Mid True f t q p pc) (inv : Inv t) {k : Nat}
    (counted : k < t.lk.inqueue) : f.st.lk.lockreq k = t.lk.lockreq k := by
  have larger : ∀ k, k < t.lk.inqueue → p.pid < t.lk.lockreq k := fun k hk => by
    obtain ⟨j, waiting⟩ := (inv.queue _).1 ⟨k, hk, rfl⟩
    exact mid.smallest trivial j _ waiting
  have last : ∀ pos, t.lk.lockreq pos ≤ p.pid → t.lk.inqueue ≤ pos := fun pos stop => by
    by_contra before
    have := larger pos (by omega)
    omega
  have room := inv.room mid.slot mid.phase
  have unmoved : (enqueue t.lk p.pid).lockreq k = t.lk.lockreq k := by
    obtain ⟨-, above, stop⟩ := scan_spec inv.ordered room p.pid
    have := last _ stop
    rw [enqueue_lockreq inv.ordered room above stop, if_neg (by omega), if_neg (by omega)]
  have progress := mid.progress
  cases pc with
  | scan pos => rw [progress.1]
  | count pos => rw [progress.1]
  | load pos i | store pos i value =>
    obtain ⟨inside, -, stop, -⟩ := progress
    have := last pos stop
    omega
  | put pos =>
    obtain ⟨-, stop, entry⟩ := progress
    have := last pos stop
    rw [entry k, if_neg (by omega)]
  | bump =>
    rw [show f.st.lk.lockreq = (enqueue t.lk p.pid).lockreq from progress, unmoved]
  | bumped n => rw [progress.1, unmoved]

/-- **No request is lost between serial calls**: whenever nobody is inside `enqueue`, every
waiting pid stands in the queue exactly once. -/
theorem serial_request_kept (reached : fineSystem.Reach (Admitted False) f) (quiet : Quiet f)
    {pid : Nat} (waiting : Waiting f.st j pid) : QueuedOnce f.st.lk pid := by
  obtain ⟨t, reachedT, ⟨rfl, -⟩ | ⟨q, p, pc, mid⟩⟩ := serial_simulation reached
  · exact (reachable_inv reachedT).queuedOnce waiting
  · exact absurd quiet mid.not_quiet

/-- **Every waiting pid stands in the queue exactly once**, at every access, in the runs
in which calls of `enqueue` overlap neither each other nor a removal and every process
arrives with a pid smaller than those waiting. -/
theorem request_kept {f : Fine} (reached : fineSystem.Reach (Admitted True) f)
    {j : Fin NPROC} {pid : Nat} (waiting : Waiting f.st j pid) : QueuedOnce f.st.lk pid := by
  obtain ⟨t, reachedT, ⟨rfl, -⟩ | ⟨q, p, pc, mid⟩⟩ := serial_simulation reached
  · exact (reachable_inv reachedT).queuedOnce waiting
  · have inv := reachable_inv reachedT
    have waitingT : Waiting t j pid := by
      simpa only [Waiting, mid.procs] using waiting
    obtain ⟨k, ⟨counted, entry⟩, unique⟩ := inv.queuedOnce waitingT
    refine ⟨k, ⟨by rw [mid.inqueue]; exact counted, ?_⟩, fun l other => ?_⟩
    · rw [mid.counted inv counted]
      exact entry
    · obtain ⟨countedL, entryL⟩ := other
      rw [mid.inqueue] at countedL
      rw [mid.counted inv countedL] at entryL
      exact unique l ⟨countedL, entryL⟩

instance : ∀ (f : Fine) (e : FineEvent), Decidable (Serial f e)
  | f, .access i => inferInstanceAs (Decidable (f.pc i = none → Quiet f))
  | f, .call (.spin i) => inferInstanceAs
      (Decidable (∀ p, f.st.proc i = some p → (spin f.st.lk p.pid).isSome → Quiet f))
  | _, .call (.fork _ _) | _, .call (.pacquire _) | _, .call (.enqueue _)
  | _, .call (.prelease _) | _, .call (.release _) | _, .call (.exit _)
  | _, .call (.reap _) => .isTrue trivial

instance : ∀ (f : Fine) (e : FineEvent), Decidable (Descending f e)
  | f, .access i => inferInstanceAs (Decidable (f.pc i = none → ∀ p, f.st.proc i = some p →
      ∀ j r, f.st.proc j = some r → r.phase = .spinning → p.pid < r.pid))
  | _, .call _ => .isTrue trivial

instance (f : Fine) (e : FineEvent) : Decidable (Admitted True f e) :=
  inferInstanceAs (Decidable (Serial f e ∧ (True → Descending f e)))

/-- Pid 5 runs `enqueue`, then pid 3 comes as far as the write of its pid. -/
def serialEnqueue : List FineEvent :=
  [.call (.fork 0 5), .call (.fork 1 3), .call (.pacquire 0), .call (.pacquire 1)] ++
    List.replicate 6 (.access 0) ++ List.replicate 5 (.access 1)

def afterSerial : Fine := (fineSystem.run fineBoot serialEnqueue).getD fineBoot

theorem afterSerial_reached : fineSystem.Reach (Admitted True) afterSerial :=
  System.Reach.run (s := fineBoot) (.start ⟨⟨rfl, fun _ => rfl⟩, fun _ => rfl⟩)
    (by decide : fineSystem.Admits (Admitted True) fineBoot serialEnqueue) rfl

theorem request_kept_serial :
    Waiting afterSerial.st 0 5 ∧ afterSerial.st.lk.lockreq 1 = 3 ∧
      QueuedOnce afterSerial.st.lk 5 := by
  have waiting : Waiting afterSerial.st 0 5 := ⟨_, rfl, rfl, rfl⟩
  exact ⟨waiting, rfl, request_kept afterSerial_reached waiting⟩

/-- Pid 3 runs `enqueue`, and after it pid 5, which has to move pid 3. -/
def risingEnqueue : List FineEvent :=
  [.call (.fork 0 3), .call (.fork 1 5), .call (.pacquire 0), .call (.pacquire 1)] ++
    List.replicate 6 (.access 0) ++ List.replicate 8 (.access 1)

def afterRising : Fine := (fineSystem.run fineBoot risingEnqueue).getD fineBoot

theorem serial_request_kept_rising : afterRising.st.lk.inqueue = 2 ∧
    QueuedOnce afterRising.st.lk 3 ∧ QueuedOnce afterRising.st.lk 5 := by
  have admits : fineSystem.Admits (fun f e => Serial f e ∧ (False → Descending f e)) fineBoot
      risingEnqueue := by decide
  have reached : fineSystem.Reach (Admitted False) afterRising :=
    .run (.start ⟨⟨rfl, fun _ => rfl⟩, fun _ => rfl⟩) admits rfl
  have quiet : Quiet afterRising := by decide
  exact ⟨rfl, serial_request_kept (j := 0) reached quiet ⟨_, rfl, rfl, rfl⟩,
    serial_request_kept (j := 1) reached quiet ⟨_, rfl, rfl, rfl⟩⟩

end Xv6.Plock
