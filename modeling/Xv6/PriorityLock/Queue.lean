/-
# Xv6.PriorityLock.Queue -- the request queue of `prioritylock.c`

`struct prioritylock` keeps the pids of the waiting processes in an int array
`lockreq`, largest first, with the number of entries in `inqueue`.  `enqueue` finds
the place of a new pid by scanning the array without looking at `inqueue`; it stops
because the unused tail holds zeros.  `isprior` removes the head by moving the
whole array down.

`Ordered` is the shape that both rely on.  The results of this module are the closed
forms of the two loops (`shiftUp_apply`, `shiftDown_apply`) and, from them, that
`enqueue` and the removal keep `Ordered` and change the set of queued pids by exactly
the pid concerned.
-/
import Xv6.Param

namespace Xv6.Plock

open Function

set_option autoImplicit false

/-- `struct prioritylock`.  `lockreq` is the memory from the array's first word on; the
array itself is `lockreq[0..NPROC)`.  The inner spinlock `lk` is not a field: what runs
under it is one step. -/
structure PriorityLock where
  locked : Nat
  inqueue : Nat
  lockreq : Nat → Nat
  pid : Nat

/-- `initprioritylock`, on the zeroed global `plock`. -/
def initprioritylock : PriorityLock :=
  { locked := 0, inqueue := 0, lockreq := fun _ => 0, pid := 0 }

/-- `while (lk->lockreq[pos] > pid) pos++`, for at most `fuel` reads.  `scan_spec` says
that `NPROC` reads are enough on an ordered queue that is not full. -/
def scan (lockreq : Nat → Nat) (pid : Nat) : Nat → Nat → Nat
  | 0, pos => pos
  | fuel + 1, pos => if lockreq pos > pid then scan lockreq pid fuel (pos + 1) else pos

/-- `for (int i = n; i > pos; i--) lk->lockreq[i] = lk->lockreq[i - 1]`. -/
def shiftUp (lockreq : Nat → Nat) (pos : Nat) : Nat → Nat → Nat
  | 0 => lockreq
  | i + 1 =>
    if i + 1 > pos then shiftUp (update lockreq (i + 1) (lockreq i)) pos i
    else lockreq

/-- `for (int i = 0; i < inqueue - 1; i++) lk->lockreq[i] = lk->lockreq[i + 1]`, as the
remaining number of rounds and the index. -/
def shiftDown (lockreq : Nat → Nat) : Nat → Nat → Nat → Nat
  | 0, _ => lockreq
  | rounds + 1, i =>
    shiftDown (update lockreq i (lockreq (i + 1))) rounds (i + 1)

/-- `enqueue`. -/
def enqueue (lk : PriorityLock) (pid : Nat) : PriorityLock :=
  if lk.inqueue = NPROC then lk
  else
    let pos := scan lk.lockreq pid NPROC 0
    let shifted := shiftUp lk.lockreq pos lk.inqueue
    { lk with lockreq := update shifted pos pid, inqueue := lk.inqueue + 1 }

/-- `isprior` for the process `pid`: `none` where it returns 0, the lock after the
removal where it returns 1. -/
def isprior (lk : PriorityLock) (pid : Nat) : Option PriorityLock :=
  if lk.inqueue = 0 ∨ lk.lockreq 0 ≠ pid then none
  else
    let shifted := shiftDown lk.lockreq (lk.inqueue - 1) 0
    some { lk with
      lockreq := update shifted (lk.inqueue - 1) 0, inqueue := lk.inqueue - 1 }

/-- One iteration of the loop of `acquirepriority` under `lk->lk`: `none` when the lock
is taken or another process is first, so that the loop goes round again. -/
def spin (lk : PriorityLock) (pid : Nat) : Option PriorityLock :=
  if lk.locked = 1 then none
  else (isprior lk pid).map fun lk' => { lk' with locked := 1, pid := pid }

/-- `releasepriority`. -/
def releasepriority (lk : PriorityLock) : PriorityLock := { lk with locked := 0, pid := 0 }

/-- `isholdingpriority` for the process `pid`. -/
def isholdingpriority (lk : PriorityLock) (pid : Nat) : Bool :=
  decide (lk.locked ≠ 0) && decide (lk.pid = pid)

/-! ## The shape of the queue -/

/-- The queue is strictly descending and followed by zeros. -/
structure Ordered (lk : PriorityLock) : Prop where
  descending : ∀ i j, i < j → j < lk.inqueue → lk.lockreq j < lk.lockreq i
  zeros : ∀ i, lk.inqueue ≤ i → lk.lockreq i = 0

/-- `pid` is one of `lockreq[0..inqueue)`. -/
def Queued (lk : PriorityLock) (pid : Nat) : Prop :=
  ∃ i, i < lk.inqueue ∧ lk.lockreq i = pid

theorem initprioritylock_ordered : Ordered initprioritylock :=
  ⟨fun _ j _ h => absurd h (Nat.not_lt_zero j), fun _ _ => rfl⟩

variable {lk lk' : PriorityLock}

/-- The entries of an ordered queue are met at one index each. -/
theorem Ordered.injective (ordered : Ordered lk) {i j : Nat} (hi : i < lk.inqueue)
    (hj : j < lk.inqueue) (same : lk.lockreq i = lk.lockreq j) : i = j := by
  rcases Nat.lt_trichotomy i j with lt | eq | gt
  · have := ordered.descending i j lt hj
    omega
  · exact eq
  · have := ordered.descending j i gt hi
    omega

/-! ## Closed forms of the loops -/

/-- What the scan stops at: everything before its result is larger, and its result is
not, unless the reads have run out. -/
theorem scan_stops (lockreq : Nat → Nat) (pid fuel pos : Nat) :
    pos ≤ scan lockreq pid fuel pos ∧
      (∀ i, pos ≤ i → i < scan lockreq pid fuel pos → pid < lockreq i) ∧
      (lockreq (scan lockreq pid fuel pos) ≤ pid ∨ scan lockreq pid fuel pos = pos + fuel) := by
  induction fuel generalizing pos with
  | zero => exact ⟨le_rfl, fun i lo hi => absurd hi (Nat.not_lt.2 lo), .inr rfl⟩
  | succ fuel ih =>
    simp only [scan]
    split
    · rename_i larger
      obtain ⟨lower, above, stop⟩ := ih (pos + 1)
      refine ⟨by omega, fun i lo hi => ?_, by omega⟩
      rcases Nat.eq_or_lt_of_le lo with rfl | lt
      · exact larger
      · exact above i lt hi
    · rename_i small
      exact ⟨le_rfl, fun i lo hi => absurd hi (Nat.not_lt.2 lo), .inl (Nat.not_lt.1 small)⟩

/-- On an ordered queue with room the scan stays inside the used part or stops at its
end, so no word outside the array is read. -/
theorem scan_spec (ordered : Ordered lk) (room : lk.inqueue < NPROC) (pid : Nat) :
    scan lk.lockreq pid NPROC 0 ≤ lk.inqueue ∧
      (∀ i, i < scan lk.lockreq pid NPROC 0 → pid < lk.lockreq i) ∧
      lk.lockreq (scan lk.lockreq pid NPROC 0) ≤ pid := by
  obtain ⟨-, above, stop⟩ := scan_stops lk.lockreq pid NPROC 0
  have bounded : scan lk.lockreq pid NPROC 0 ≤ lk.inqueue := by
    by_contra beyond
    have larger := above lk.inqueue (Nat.zero_le _) (by omega)
    rw [ordered.zeros _ le_rfl] at larger
    omega
  refine ⟨bounded, fun i hi => above i (Nat.zero_le _) hi, ?_⟩
  rcases stop with small | out
  · exact small
  · omega

/-- The result of the scan is determined by what it stops at. -/
theorem scan_unique (ordered : Ordered lk) (room : lk.inqueue < NPROC) {pid pos : Nat}
    (above : ∀ i, i < pos → pid < lk.lockreq i) (stop : lk.lockreq pos ≤ pid) :
    scan lk.lockreq pid NPROC 0 = pos := by
  obtain ⟨-, larger, small⟩ := scan_spec ordered room pid
  rcases Nat.lt_trichotomy (scan lk.lockreq pid NPROC 0) pos with lt | eq | gt
  · have := above _ lt
    omega
  · exact eq
  · have := larger _ gt
    omega

theorem shiftUp_apply (lockreq : Nat → Nat) (pos n i : Nat) :
    shiftUp lockreq pos n i =
      if pos < i ∧ i ≤ n then lockreq (i - 1) else lockreq i := by
  induction n generalizing lockreq with
  | zero =>
    have : ¬ (pos < i ∧ i ≤ 0) := by omega
    simp only [shiftUp, this, if_false]
  | succ n ih =>
    simp only [shiftUp]
    split
    · rw [ih]
      by_cases top : i = n + 1
      · subst top
        have outer : pos < n + 1 ∧ n + 1 ≤ n + 1 := by omega
        simp [outer]
      · have same : (pos < i ∧ i ≤ n) ↔ (pos < i ∧ i ≤ n + 1) := by omega
        simp only [same]
        split
        · have : i - 1 ≠ n + 1 := by omega
          simp [this]
        · simp [top]
    · have : ¬ (pos < i ∧ i ≤ n + 1) := by omega
      simp only [this, if_false]

theorem shiftDown_apply (lockreq : Nat → Nat) (rounds start i : Nat) :
    shiftDown lockreq rounds start i =
      if start ≤ i ∧ i < start + rounds then lockreq (i + 1) else lockreq i := by
  induction rounds generalizing lockreq start with
  | zero =>
    have : ¬ (start ≤ i ∧ i < start + 0) := by omega
    simp only [shiftDown, this, if_false]
  | succ rounds ih =>
    simp only [shiftDown]
    rw [ih]
    by_cases first : i = start
    · subst first
      have outer : i ≤ i ∧ i < i + (rounds + 1) := by omega
      simp [outer]
    · have same : (start + 1 ≤ i ∧ i < start + 1 + rounds) ↔
          (start ≤ i ∧ i < start + (rounds + 1)) := by omega
      simp only [same]
      split
      · have : i + 1 ≠ start := by omega
        simp [this]
      · simp [first]

/-! ## `enqueue` -/

theorem enqueue_inqueue (room : lk.inqueue ≠ NPROC) (pid : Nat) :
    (enqueue lk pid).inqueue = lk.inqueue + 1 := by
  simp [enqueue, room]

@[simp] theorem enqueue_locked (lk : PriorityLock) (pid : Nat) :
    (enqueue lk pid).locked = lk.locked := by
  unfold enqueue
  split <;> rfl

@[simp] theorem enqueue_pid (lk : PriorityLock) (pid : Nat) : (enqueue lk pid).pid = lk.pid := by
  unfold enqueue
  split <;> rfl

section

variable (ordered : Ordered lk) (room : lk.inqueue < NPROC)
include ordered room

/-- The array after `enqueue`, entry by entry. -/
theorem enqueue_lockreq {pid pos : Nat} (above : ∀ i, i < pos → pid < lk.lockreq i)
    (stop : lk.lockreq pos ≤ pid) (i : Nat) :
    (enqueue lk pid).lockreq i =
      if i = pos then pid
      else if pos < i ∧ i ≤ lk.inqueue then lk.lockreq (i - 1) else lk.lockreq i := by
  have notFull : lk.inqueue ≠ NPROC := Nat.ne_of_lt room
  simp only [enqueue, notFull, if_false, scan_unique ordered room above stop]
  rw [update_apply, shiftUp_apply]

theorem enqueue_ordered {pid : Nat} (fresh : ¬ Queued lk pid) : Ordered (enqueue lk pid) := by
  obtain ⟨bounded, above, stop⟩ := scan_spec ordered room pid
  generalize scan lk.lockreq pid NPROC 0 = pos at bounded above stop
  have entry := enqueue_lockreq ordered room above stop
  have count := enqueue_inqueue (Nat.ne_of_lt room) pid
  -- every entry from `pos` on is smaller than `pid`, and not only at most `pid`
  have below : ∀ i, pos ≤ i → i < lk.inqueue → lk.lockreq i < pid := by
    intro i lo hi
    have atPos : lk.lockreq pos < pid := by
      have ne : lk.lockreq pos ≠ pid := fun eq => fresh ⟨pos, by omega, eq⟩
      omega
    rcases Nat.eq_or_lt_of_le lo with rfl | lt
    · exact atPos
    · have := ordered.descending pos i lt hi
      omega
  constructor
  · intro i j lt hj
    rw [entry i, entry j]
    split_ifs with jPos iPos iTail jTail iPos iTail iPos iTail
    · omega
    · omega
    · exact above i (by omega)
    · exact below _ (by omega) (by omega)
    · exact ordered.descending _ _ (by omega) (by omega)
    · exact ordered.descending _ _ (by omega) (by omega)
    · omega
    · omega
    · exact ordered.descending _ _ (by omega) (by omega)
  · intro i lo
    rw [entry i]
    have ne : i ≠ pos := by omega
    have out : ¬ (pos < i ∧ i ≤ lk.inqueue) := by omega
    rw [if_neg ne, if_neg out]
    exact ordered.zeros i (by omega)

/-- `enqueue` adds its pid to the queue and drops nothing. -/
theorem enqueue_queued (pid other : Nat) :
    Queued (enqueue lk pid) other ↔ other = pid ∨ Queued lk other := by
  obtain ⟨bounded, above, stop⟩ := scan_spec ordered room pid
  generalize scan lk.lockreq pid NPROC 0 = pos at bounded above stop
  have entry := enqueue_lockreq ordered room above stop
  have count := enqueue_inqueue (Nat.ne_of_lt room) pid
  constructor
  · rintro ⟨i, hi, eq⟩
    rw [entry i] at eq
    split_ifs at eq with iPos iTail
    · exact .inl eq.symm
    · exact .inr ⟨i - 1, by omega, eq⟩
    · exact .inr ⟨i, by omega, eq⟩
  · rintro (rfl | ⟨i, hi, eq⟩)
    · refine ⟨pos, by omega, ?_⟩
      rw [entry pos, if_pos rfl]
    · by_cases before : i < pos
      · refine ⟨i, by omega, ?_⟩
        rw [entry i, if_neg (by omega), if_neg (by omega)]
        exact eq
      · refine ⟨i + 1, by omega, ?_⟩
        rw [entry (i + 1), if_neg (by omega), if_pos (by omega)]
        exact eq

end

/-! ## The removal in `isprior` -/

/-- Where `isprior` returns 1: the caller was first, and the array has moved down. -/
theorem isprior_eq_some {pid : Nat} (prior : isprior lk pid = some lk') :
    0 < lk.inqueue ∧ lk.lockreq 0 = pid ∧ lk'.inqueue = lk.inqueue - 1 ∧
      lk'.locked = lk.locked ∧ lk'.pid = lk.pid ∧
      ∀ i, lk'.lockreq i =
        if i = lk.inqueue - 1 then 0
        else if i < lk.inqueue - 1 then lk.lockreq (i + 1) else lk.lockreq i := by
  simp only [isprior] at prior
  split at prior
  · cases prior
  · cases prior
    refine ⟨by omega, by omega, rfl, rfl, rfl, fun i => ?_⟩
    simp [update_apply, shiftDown_apply]

theorem isprior_ordered {pid : Nat} (ordered : Ordered lk) (prior : isprior lk pid = some lk') :
    Ordered lk' := by
  obtain ⟨nonempty, -, count, -, -, entry⟩ := isprior_eq_some prior
  constructor
  · intro i j lt hj
    rw [entry i, entry j, if_neg (by omega), if_pos (by omega), if_neg (by omega),
      if_pos (by omega)]
    exact ordered.descending _ _ (by omega) (by omega)
  · intro i lo
    rw [entry i]
    split_ifs
    · rfl
    · omega
    · exact ordered.zeros i (by omega)

/-- The removal takes the caller's pid out of the queue and nothing else. -/
theorem isprior_queued {pid : Nat} (ordered : Ordered lk) (prior : isprior lk pid = some lk')
    (other : Nat) : Queued lk' other ↔ Queued lk other ∧ other ≠ pid := by
  obtain ⟨nonempty, head, count, -, -, entry⟩ := isprior_eq_some prior
  constructor
  · rintro ⟨i, hi, eq⟩
    rw [entry i, if_neg (by omega), if_pos (by omega)] at eq
    refine ⟨⟨i + 1, by omega, eq⟩, ?_⟩
    have := ordered.descending 0 (i + 1) (by omega) (by omega)
    omega
  · rintro ⟨⟨i, hi, eq⟩, ne⟩
    have positive : i ≠ 0 := by
      rintro rfl
      omega
    refine ⟨i - 1, by omega, ?_⟩
    rw [entry (i - 1), if_neg (by omega), if_pos (by omega)]
    have : i - 1 + 1 = i := by omega
    rw [this]
    exact eq

/-- The head of an ordered queue is its greatest entry. -/
theorem Ordered.le_head (ordered : Ordered lk) {other : Nat} (queued : Queued lk other) :
    other ≤ lk.lockreq 0 := by
  obtain ⟨i, hi, rfl⟩ := queued
  rcases Nat.eq_zero_or_pos i with rfl | positive
  · exact le_rfl
  · exact Nat.le_of_lt (ordered.descending 0 i positive hi)

end Xv6.Plock
