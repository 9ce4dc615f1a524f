/-
# Xv6.Logging.Reservation -- what beginOp reserves, and what logWrite finds

`beginOp` lets a system call in only if the blocks in the log, and `MAXOPBLOCKS` for this call and for
every one that is inside, come to at most `LOGSIZE`. `mkfs` makes a log of `LOGSIZE` blocks, and one of
them is the header: there is a place for `LOGSIZE - 1` blocks.

* **Steps.** `log_write` tests `log.lh.n` before it takes `log.lock`, so the test and the entry are two
  steps. `end_op` of the last call sets `committing`, and `commit` empties the log while nobody is inside.
* **The reservation.** Blocks asked for and blocks still reserved stay within `LOGSIZE`
  (`Inv.reserved`), however the calls interleave.
* **The result.** One block too many is let in. `logWrite` does not panic, and what it enters has a
  place, exactly as long as fewer than `size - 1` blocks were asked for before (`log_reservation`).
-/
import Xv6.Lib.Absorb
import Xv6.Lib.Count
import Xv6.Lib.Transition
import Xv6.Fs.Disk

namespace Xv6.Logging
open Lib Fs Finset Option Function
set_option autoImplicit false

/-! ## The machine -/

/-- Where a process is: outside, between `begin_op` and `end_op`, or in `log_write(b)`, after its tests
and before `log.lock`. -/
inductive Stage where
  | outside
  | inside
  | logging (b : Nat)
  deriving DecidableEq, Repr

/-- The block that a process is about to enter into the log. -/
def Stage.block? : Stage → Option Nat
  | .logging b => some b
  | _ => none

structure State (P : Type) where
  log : Fs.Log
  stage : P → Stage
  /-- the blocks that a process has called `log_write` for since its `begin_op` -/
  own : P → Finset Nat
  /-- the blocks that anybody has called `log_write` for since the last commit -/
  asked : Finset Nat

inductive Event (P : Type) where
  | beginOp (p : P)
  /-- `log_write(b)` up to `acquire(&log.lock)` -/
  | test (p : P) (b : Nat)
  /-- the rest of it -/
  | enter (p : P)
  | endOp (p : P)
  /-- `commit` is over -/
  | committed

/-- The sleep condition of `begin_op`. -/
def mustWait (log : Fs.Log) : Prop :=
  log.committing = true ∨ LOGSIZE < (log.lh.length : Int) + (log.outstanding + 1) * MAXOPBLOCKS
deriving Decidable

/-- `log_write` panics with `too big a transaction`. -/
def tooBig (log : Fs.Log) : Prop :=
  LOGSIZE ≤ log.lh.length ∨ (log.size : Int) - 1 ≤ log.lh.length
deriving Decidable

section Machine

variable {P : Type} [DecidableEq P]

def State.setStage (s : State P) (p : P) (stage : Stage) : State P :=
  { s with stage := update s.stage p stage }

def beginOp (s : State P) (p : P) : State P :=
  { s.setStage p .inside with
    log := { s.log with outstanding := s.log.outstanding + 1 }
    own := update s.own p ∅ }

def test (s : State P) (p : P) (b : Nat) : State P :=
  { s.setStage p (.logging b) with
    own := update s.own p (insert b (s.own p))
    asked := insert b s.asked }

def enter (s : State P) (p : P) (b : Nat) : State P :=
  { s.setStage p .inside with log := { s.log with lh := absorb s.log.lh b } }

def endOp (s : State P) (p : P) : State P :=
  { s.setStage p .outside with
    log := { s.log with
      outstanding := s.log.outstanding - 1
      committing := decide (s.log.outstanding - 1 = 0) }
    own := update s.own p ∅ }

def committed (s : State P) : State P :=
  { s with log := { s.log with lh := [], committing := false }, asked := ∅ }

/-- A call that has to wait, or that panics, makes no step. -/
def next (s : State P) : Event P → Option (State P)
  | .beginOp p => if s.stage p = .outside ∧ ¬ mustWait s.log then some (beginOp s p) else none
  | .test p b =>
    if s.stage p = .inside ∧ ¬ tooBig s.log ∧ 1 ≤ s.log.outstanding then some (test s p b) else none
  | .enter p =>
    match s.stage p with
    | .logging b => some (enter s p b)
    | _ => none
  | .endOp p =>
    if s.stage p = .inside ∧ s.log.committing = false then some (endOp s p) else none
  | .committed => if s.log.committing = true then some (committed s) else none

/-- The log of an image made by `mkfs`, and nobody inside. -/
structure Start (s : State P) : Prop where
  start : s.log.start = 2
  size : s.log.size = LOGSIZE
  outstanding : s.log.outstanding = 0
  committing : s.log.committing = false
  lh : s.log.lh = []
  stage : ∀ p, s.stage p = .outside
  own : ∀ p, s.own p = ∅
  asked : s.asked = ∅

def system : System (State P) (Event P) where
  start := Start
  next := next

/-- A system call logs at most `MAXOPBLOCKS` distinct blocks. -/
def Bounded (s : State P) : Event P → Prop
  | .test p b => (insert b (s.own p)).card ≤ MAXOPBLOCKS
  | _ => True

/-- There is a place for the block whatever it is: fewer were asked for than the log has. -/
def Roomy (s : State P) : Prop := s.asked.card + 1 < s.log.size
deriving Decidable

instance (s : State P) : (e : Event P) → Decidable (Bounded s e)
  | .test p b => inferInstanceAs (Decidable ((insert b (s.own p)).card ≤ MAXOPBLOCKS))
  | .beginOp _ | .enter _ | .endOp _ | .committed => .isTrue trivial

/-- Both, for the runs in which the reservation is enough. -/
def BoundedRoomy (s : State P) : Event P → Prop
  | .test p b => (insert b (s.own p)).card ≤ MAXOPBLOCKS ∧ Roomy s
  | _ => True

instance (s : State P) : (e : Event P) → Decidable (BoundedRoomy s e)
  | .test p b => inferInstanceAs (Decidable ((insert b (s.own p)).card ≤ MAXOPBLOCKS ∧ Roomy s))
  | .beginOp _ | .enter _ | .endOp _ | .committed => .isTrue trivial

/-- What a step does. -/
inductive Step (s : State P) : Event P → State P → Prop where
  | beginOp {p : P} (outside : s.stage p = .outside) (awake : ¬ mustWait s.log) :
      Step s (.beginOp p) (beginOp s p)
  | test {p : P} {b : Nat} (inside : s.stage p = .inside) (small : ¬ tooBig s.log) :
      Step s (.test p b) (test s p b)
  | enter {p : P} {b : Nat} (logging : s.stage p = .logging b) : Step s (.enter p) (enter s p b)
  | endOp {p : P} (inside : s.stage p = .inside) (idle : s.log.committing = false) :
      Step s (.endOp p) (endOp s p)
  | committed (busy : s.log.committing = true) : Step s .committed (committed s)

theorem step_of_next {s s' : State P} {e : Event P} (stepped : next s e = some s') : Step s e s' := by
  cases e with
  | beginOp p =>
    simp only [next, ite_none_right_eq_some, some.injEq] at stepped
    obtain ⟨⟨outside, awake⟩, rfl⟩ := stepped
    exact .beginOp outside awake
  | test p b =>
    simp only [next, ite_none_right_eq_some, some.injEq] at stepped
    obtain ⟨⟨inside, small, -⟩, rfl⟩ := stepped
    exact .test inside small
  | enter p =>
    simp only [next] at stepped
    split at stepped
    next b logging =>
      cases stepped
      exact .enter logging
    next => cases stepped
  | endOp p =>
    simp only [next, ite_none_right_eq_some, some.injEq] at stepped
    obtain ⟨⟨inside, idle⟩, rfl⟩ := stepped
    exact .endOp inside idle
  | committed =>
    simp only [next, ite_none_right_eq_some, some.injEq] at stepped
    obtain ⟨busy, rfl⟩ := stepped
    exact .committed busy

end Machine

/-! ## The invariant -/

section Invariant

variable {P : Type} [Fintype P]

/-- What is still reserved for a process. -/
def share (s : State P) (p : P) : Nat :=
  if s.stage p = .outside then 0 else MAXOPBLOCKS - (s.own p).card

def writers (s : State P) : Finset P := univ.filter fun p => (s.stage p).block?.isSome

def insiders (s : State P) : Finset P := univ.filter fun p => s.stage p ≠ .outside

variable {p : P}

@[simp] theorem mem_writers {s : State P} : p ∈ writers s ↔ (s.stage p).block?.isSome := by
  simp [writers]

@[simp] theorem mem_insiders {s : State P} : p ∈ insiders s ↔ s.stage p ≠ .outside := by
  simp [insiders]

structure Inv (s : State P) : Prop where
  count : s.log.outstanding = (insiders s).card
  idle : s.log.committing = true → ∀ p, s.stage p = .outside
  nodup : s.log.lh.Nodup
  asked : ∀ b, b ∈ s.asked ↔ b ∈ s.log.lh ∨ ∃ p, s.stage p = .logging b
  own : ∀ p, s.own p ⊆ s.asked
  pending : ∀ p b, s.stage p = .logging b → b ∈ s.own p
  few : ∀ p, (s.own p).card ≤ MAXOPBLOCKS
  gone : ∀ p, s.stage p = .outside → s.own p = ∅
  reserved : s.asked.card + ∑ p, share s p ≤ LOGSIZE

theorem Start.inv {s : State P} (start : Start s) : Inv s where
  count := by simp [start.outstanding, insiders, start.stage]
  idle := fun _ => start.stage
  nodup := by simp [start.lh]
  asked := by simp [start.asked, start.lh, start.stage]
  own := by simp [start.own]
  pending := by simp [start.stage]
  few := by simp [start.own]
  gone := fun p _ => start.own p
  reserved := by simp [start.asked, share, start.stage]

variable {s : State P} {p : P} {b : Nat}

/-- The log has no more blocks than were asked for. -/
theorem Inv.length_le (inv : Inv s) : s.log.lh.length ≤ s.asked.card := by
  rw [← List.toFinset_card_of_nodup inv.nodup]
  refine card_le_card fun b inside => ?_
  exact (inv.asked b).mpr (.inl (List.mem_toFinset.mp inside))

/-- The blocks of the processes that are past their test are all that the log may miss. -/
theorem Inv.asked_le (inv : Inv s) : s.asked.card ≤ s.log.lh.length + (writers s).card := by
  have covered : s.asked ⊆
      s.log.lh.toFinset ∪ (writers s).image fun p => (s.stage p).block?.getD 0 := by
    intro b inside
    rw [mem_union, List.mem_toFinset, mem_image]
    rcases (inv.asked b).mp inside with logged | ⟨p, pending⟩
    · exact .inl logged
    · refine .inr ⟨p, ?_, ?_⟩
      · simp [pending, Stage.block?]
      · simp [pending, Stage.block?]
  calc s.asked.card
    _ ≤ _ := card_le_card covered
    _ ≤ _ := card_union_le _ _
    _ ≤ _ := Nat.add_le_add (List.toFinset_card_le _) card_image_le

/-- While nobody is between its test and its entry, the log is what was asked for. -/
theorem Inv.length_eq (inv : Inv s) (quiet : ∀ p, (s.stage p).block? = none) :
    s.log.lh.length = s.asked.card := by
  refine inv.length_le.antisymm (inv.asked_le.trans ?_)
  have nobody : writers s = ∅ := by
    ext p
    simp [quiet p]
  rw [nobody, card_empty, Nat.add_zero]

/-- What is in the log, in `log_write` and reserved is what `begin_op` counts. -/
theorem Inv.asked_add_share_le (inv : Inv s) :
    s.asked.card + ∑ p, share s p ≤ s.log.lh.length + (insiders s).card * MAXOPBLOCKS := by
  have each : ∀ p, (if (s.stage p).block?.isSome then 1 else 0) + share s p ≤
      if s.stage p ≠ .outside then MAXOPBLOCKS else 0 := by
    intro p
    unfold share
    cases stage : s.stage p with
    | outside => simp [Stage.block?]
    | inside => simp [Stage.block?]
    | logging b =>
      -- the block it logs is one of its own
      have one : 1 ≤ (s.own p).card := card_pos.mpr ⟨b, inv.pending p b stage⟩
      have few := inv.few p
      simp only [Stage.block?, isSome_some, if_true, reduceCtorEq, if_false, ne_eq,
        not_false_eq_true]
      omega
  have total := sum_le_sum fun p (_ : p ∈ univ) => each p
  rw [sum_add_distrib, ← card_filter, ← sum_filter, sum_const,
    smul_eq_mul] at total
  have missed := inv.asked_le
  unfold writers at missed
  unfold insiders
  omega

/-- Nobody commits while a process is inside. -/
theorem Inv.busy (inv : Inv s) (inside : s.stage p ≠ .outside) : s.log.committing = false := by
  by_contra committing
  rw [Bool.not_eq_false] at committing
  exact inside (inv.idle committing p)

theorem Inv.committed (inv : Inv s) (busy : s.log.committing = true) : Inv (Logging.committed s) := by
  have outside := inv.idle busy
  constructor
  case count => exact inv.count
  case idle => exact fun _ => outside
  case nodup => exact List.nodup_nil
  case asked =>
    intro b
    change b ∈ ∅ ↔ b ∈ [] ∨ ∃ p, s.stage p = .logging b
    simp [outside]
  case own =>
    intro p
    rw [show (Logging.committed s).own p = s.own p from rfl, inv.gone p (outside p)]
    exact empty_subset _
  case pending => exact inv.pending
  case few => exact inv.few
  case gone => exact inv.gone
  case reserved =>
    have reserved := inv.reserved
    change (∅ : Finset Nat).card + ∑ p, share s p ≤ LOGSIZE
    rw [card_empty]
    omega

variable [DecidableEq P]

theorem insiders_add (s : State P) {stage : Stage} (outside : s.stage p = .outside)
    (inside : stage ≠ .outside) : (insiders (s.setStage p stage)).card = (insiders s).card + 1 := by
  have added : insiders (s.setStage p stage) = insert p (insiders s) := by
    ext q
    by_cases same : q = p
    · simp [State.setStage, same, inside]
    · simp [State.setStage, same]
  rw [added, card_insert_of_notMem]
  simp [outside]

theorem insiders_remove (s : State P) (inside : s.stage p ≠ .outside) :
    (insiders (s.setStage p .outside)).card + 1 = (insiders s).card := by
  have removed : insiders (s.setStage p .outside) = (insiders s).erase p := by
    ext q
    by_cases same : q = p
    · simp [State.setStage, same]
    · simp [State.setStage, same]
  rw [removed, card_erase_add_one]
  simp [inside]

theorem insiders_same (s : State P) {stage : Stage} (before : s.stage p ≠ .outside)
    (after : stage ≠ .outside) : insiders (s.setStage p stage) = insiders s := by
  ext q
  by_cases same : q = p
  · simp [State.setStage, same, before, after]
  · simp [State.setStage, same]

theorem Inv.beginOp (inv : Inv s) (outside : s.stage p = .outside) (awake : ¬ mustWait s.log) :
    Inv (Logging.beginOp s p) := by
  simp only [mustWait, not_or, Bool.not_eq_true, not_lt] at awake
  obtain ⟨idle, fits⟩ := awake
  have others : ∀ q, q ≠ p → (Logging.beginOp s p).stage q = s.stage q :=
    fun q other => update_of_ne other _ _
  have here : (Logging.beginOp s p).stage p = .inside := update_self _ _ _
  have empty := inv.gone p outside
  have own : (Logging.beginOp s p).own = s.own := by
    change update s.own p ∅ = s.own
    rw [← empty, update_eq_self]
  have logging : ∀ q b, (Logging.beginOp s p).stage q = .logging b ↔ s.stage q = .logging b := by
    intro q b
    by_cases same : q = p
    · rw [same, here, outside]
      simp
    · rw [others q same]
  constructor
  case count =>
    have added := insiders_add s outside (show Stage.inside ≠ .outside by simp)
    have before := inv.count
    change s.log.outstanding + 1 = ((insiders (s.setStage p .inside)).card : Int)
    omega
  case idle =>
    intro committing
    change s.log.committing = true at committing
    rw [idle] at committing
    cases committing
  case nodup => exact inv.nodup
  case asked =>
    intro b
    rw [show (Logging.beginOp s p).asked = s.asked from rfl, inv.asked b]
    simp only [logging]
    rfl
  case own =>
    rw [own]
    exact inv.own
  case pending =>
    rw [own]
    exact fun q b pending => inv.pending q b ((logging q b).mp pending)
  case few =>
    rw [own]
    exact inv.few
  case gone =>
    rw [own]
    intro q left
    by_cases same : q = p
    · rw [same, here] at left
      cases left
    · exact inv.gone q (others q same ▸ left)
  case reserved =>
    have sums := sum_replace (f := share s) (g := share (Logging.beginOp s p)) p fun q other => by
      unfold share
      rw [own, others q other]
    have after : share (Logging.beginOp s p) p = 10 := by
      unfold share
      rw [own, here, empty]
      rfl
    have enough : _ ≤ s.log.lh.length + (insiders s).card * 10 := inv.asked_add_share_le
    have count := inv.count
    change (s.log.lh.length : Int) + (s.log.outstanding + 1) * 10 ≤ 30 at fits
    change s.asked.card + ∑ q, share (Logging.beginOp s p) q ≤ 30
    omega

theorem Inv.test (inv : Inv s) (inside : s.stage p = .inside)
    (bounded : (insert b (s.own p)).card ≤ MAXOPBLOCKS) : Inv (Logging.test s p b) := by
  have others : ∀ q, q ≠ p → (Logging.test s p b).stage q = s.stage q :=
    fun q other => update_of_ne other _ _
  have here : (Logging.test s p b).stage p = .logging b := update_self _ _ _
  have ownOthers : ∀ q, q ≠ p → (Logging.test s p b).own q = s.own q :=
    fun q other => update_of_ne other _ _
  have ownHere : (Logging.test s p b).own p = insert b (s.own p) := update_self _ _ _
  constructor
  case count =>
    have same := insiders_same s (p := p) (by simp [inside]) (show Stage.logging b ≠ .outside by simp)
    change s.log.outstanding = ((insiders (s.setStage p (.logging b))).card : Int)
    rw [same]
    exact inv.count
  case idle =>
    intro committing
    have idle := inv.busy (p := p) (by simp [inside])
    exact absurd (show s.log.committing = true from committing) (by simp [idle])
  case nodup => exact inv.nodup
  case asked =>
    intro c
    change c ∈ insert b s.asked ↔ c ∈ s.log.lh ∨ _
    rw [mem_insert, inv.asked c]
    constructor
    · rintro (rfl | logged | ⟨q, pending⟩)
      · exact .inr ⟨p, here⟩
      · exact .inl logged
      · have other : q ≠ p := by
          rintro rfl
          rw [inside] at pending
          cases pending
        exact .inr ⟨q, (others q other).trans pending⟩
    · rintro (logged | ⟨q, pending⟩)
      · exact .inr (.inl logged)
      · by_cases same : q = p
        · rw [same, here] at pending
          cases pending
          exact .inl rfl
        · exact .inr (.inr ⟨q, (others q same) ▸ pending⟩)
  case own =>
    intro q
    by_cases same : q = p
    · rw [same, ownHere]
      exact insert_subset_insert b (inv.own p)
    · rw [ownOthers q same]
      exact (inv.own q).trans (subset_insert b _)
  case pending =>
    intro q c pending
    by_cases same : q = p
    · rw [same, here] at pending
      cases pending
      rw [same, ownHere]
      exact mem_insert_self b _
    · rw [ownOthers q same]
      exact inv.pending q c ((others q same) ▸ pending)
  case few =>
    intro q
    by_cases same : q = p
    · rw [same, ownHere]
      exact bounded
    · rw [ownOthers q same]
      exact inv.few q
  case gone =>
    intro q left
    by_cases same : q = p
    · rw [same, here] at left
      cases left
    · rw [ownOthers q same]
      exact inv.gone q ((others q same) ▸ left)
  case reserved =>
    have sums := sum_replace (f := share s) (g := share (Logging.test s p b)) p fun q other => by
      unfold share
      rw [others q other, ownOthers q other]
    have before : share s p = MAXOPBLOCKS - (s.own p).card := by simp [share, inside]
    have after : share (Logging.test s p b) p = MAXOPBLOCKS - (insert b (s.own p)).card := by
      unfold share
      rw [here, ownHere]
      rfl
    have reserved := inv.reserved
    have asked : (insert b s.asked).card + (s.own p).card ≤ s.asked.card + (insert b (s.own p)).card := by
      by_cases mine : b ∈ s.own p
      · rw [insert_eq_of_mem mine, insert_eq_of_mem (inv.own p mine)]
      · rw [card_insert_of_notMem mine]
        have := card_insert_le b s.asked
        omega
    change (insert b s.asked).card + ∑ q, share (Logging.test s p b) q ≤ LOGSIZE
    omega

theorem Inv.enter (inv : Inv s) (logging : s.stage p = .logging b) : Inv (Logging.enter s p b) := by
  have others : ∀ q, q ≠ p → (Logging.enter s p b).stage q = s.stage q :=
    fun q other => update_of_ne other _ _
  have here : (Logging.enter s p b).stage p = .inside := update_self _ _ _
  have absorbs : Absorbs s.log.lh {b} (absorb s.log.lh b) := (Absorbs.refl s.log.lh).insert b
  constructor
  case count =>
    have same := insiders_same s (p := p) (by simp [logging]) (show Stage.inside ≠ .outside by simp)
    change s.log.outstanding = ((insiders (s.setStage p .inside)).card : Int)
    rw [same]
    exact inv.count
  case idle =>
    intro committing
    have idle := inv.busy (p := p) (by simp [logging])
    exact absurd (show s.log.committing = true from committing) (by simp [idle])
  case nodup => exact absorbs.nodup inv.nodup
  case asked =>
    intro c
    change c ∈ s.asked ↔ c ∈ absorb s.log.lh b ∨ _
    rw [absorbs.mem c, mem_singleton, inv.asked c]
    constructor
    · rintro (logged | ⟨q, pending⟩)
      · exact .inl (.inl logged)
      · by_cases same : q = p
        · rw [same, logging] at pending
          cases pending
          exact .inl (.inr rfl)
        · exact .inr ⟨q, (others q same).trans pending⟩
    · rintro ((logged | rfl) | ⟨q, pending⟩)
      · exact .inl logged
      · exact .inr ⟨p, logging⟩
      · by_cases same : q = p
        · rw [same, here] at pending
          cases pending
        · exact .inr ⟨q, (others q same) ▸ pending⟩
  case own => exact inv.own
  case pending =>
    intro q c pending
    by_cases same : q = p
    · rw [same, here] at pending
      cases pending
    · exact inv.pending q c ((others q same) ▸ pending)
  case few => exact inv.few
  case gone =>
    intro q left
    by_cases same : q = p
    · rw [same, here] at left
      cases left
    · exact inv.gone q ((others q same) ▸ left)
  case reserved =>
    have sums : ∀ q, share (Logging.enter s p b) q = share s q := by
      intro q
      by_cases same : q = p
      · unfold share
        rw [same, here, logging]
        rfl
      · unfold share
        rw [others q same]
        rfl
    rw [sum_congr rfl fun q _ => sums q]
    exact inv.reserved

theorem Inv.endOp (inv : Inv s) (inside : s.stage p = .inside) : Inv (Logging.endOp s p) := by
  have others : ∀ q, q ≠ p → (Logging.endOp s p).stage q = s.stage q :=
    fun q other => update_of_ne other _ _
  have here : (Logging.endOp s p).stage p = .outside := update_self _ _ _
  have ownOthers : ∀ q, q ≠ p → (Logging.endOp s p).own q = s.own q :=
    fun q other => update_of_ne other _ _
  have ownHere : (Logging.endOp s p).own p = ∅ := update_self _ _ _
  have removed := insiders_remove s (p := p) (by simp [inside])
  have count := inv.count
  have logging : ∀ q b, (Logging.endOp s p).stage q = .logging b ↔ s.stage q = .logging b := by
    intro q b
    by_cases same : q = p
    · rw [same, here, inside]
      simp
    · rw [others q same]
  constructor
  case count =>
    change s.log.outstanding - 1 = ((insiders (s.setStage p .outside)).card : Int)
    omega
  case idle =>
    intro committing q
    have last : s.log.outstanding - 1 = 0 := of_decide_eq_true committing
    have nobody : (insiders (s.setStage p .outside)).card = 0 := by omega
    by_contra stays
    have stayed : q ∈ insiders (s.setStage p .outside) := mem_insiders.mpr stays
    rw [card_eq_zero.mp nobody] at stayed
    exact absurd stayed (notMem_empty q)
  case nodup => exact inv.nodup
  case asked =>
    intro c
    rw [show (Logging.endOp s p).asked = s.asked from rfl, inv.asked c]
    simp only [logging]
    rfl
  case own =>
    intro q
    by_cases same : q = p
    · rw [same, ownHere]
      exact empty_subset _
    · rw [ownOthers q same]
      exact inv.own q
  case pending =>
    intro q c pending
    have before := (logging q c).mp pending
    have other : q ≠ p := by
      rintro rfl
      rw [inside] at before
      cases before
    rw [ownOthers q other]
    exact inv.pending q c before
  case few =>
    intro q
    by_cases same : q = p
    · simp [same, ownHere]
    · rw [ownOthers q same]
      exact inv.few q
  case gone =>
    intro q left
    by_cases same : q = p
    · rw [same, ownHere]
    · rw [ownOthers q same]
      exact inv.gone q ((others q same) ▸ left)
  case reserved =>
    have sums := sum_replace (f := share s) (g := share (Logging.endOp s p)) p fun q other => by
      unfold share
      rw [others q other, ownOthers q other]
    have after : share (Logging.endOp s p) p = 0 := by
      unfold share
      rw [here]
      rfl
    have reserved := inv.reserved
    change s.asked.card + ∑ q, share (Logging.endOp s p) q ≤ LOGSIZE
    omega

theorem Inv.next {s' : State P} {e : Event P} (inv : Inv s) (bounded : Bounded s e)
    (stepped : next s e = some s') : Inv s' := by
  cases step_of_next stepped with
  | beginOp outside awake => exact inv.beginOp outside awake
  | test inside => exact inv.test inside bounded
  | enter logging => exact inv.enter logging
  | endOp inside => exact inv.endOp inside
  | committed busy => exact inv.committed busy

/-! ## Runs -/

theorem reach_inv (reached : system.Reach Bounded s) : Inv s := by
  induction reached with
  | start initial => exact Start.inv initial
  | step before admitted stepped ih => exact ih.next admitted stepped

omit [Fintype P] in
/-- Where the log is, and how long, is never changed. -/
theorem reach_place (reached : system.Reach Bounded s) : s.log.start = 2 ∧ s.log.size = LOGSIZE := by
  induction reached with
  | start initial => exact ⟨initial.start, initial.size⟩
  | step before admitted stepped ih => cases step_of_next stepped <;> exact ih

omit [Fintype P] in
theorem reach_asked (reached : system.Reach BoundedRoomy s) : s.asked.card < s.log.size := by
  induction reached with
  | start initial => simp [initial.asked, initial.size]
  | @step s s' e before admitted stepped ih =>
    cases step_of_next stepped with
    | @test p b inside small =>
      have roomy : s.asked.card + 1 < s.log.size := admitted.2
      have grown := card_insert_le b s.asked
      change (insert b s.asked).card < s.log.size
      omega
    | beginOp | enter | endOp => exact ih
    | committed => exact Nat.zero_lt_of_lt ih

/-- Every block of the log has a slot of its own between the header and the end of the log. -/
def Placed (log : Fs.Log) : Prop :=
  log.lh.Nodup ∧ ∀ i < log.lh.length, log.start + 1 + i < log.start + log.size

/-- **The reservation.** In every run in which no call logs more than `MAXOPBLOCKS` blocks, at most
`LOGSIZE` blocks are asked for between two commits. `log_write` does not panic if fewer than
`size - 1` of them were asked for before; and if nobody else is in `log_write`, only then. In a run in
which that is so at every call, all blocks of the log have a place in it. -/
theorem log_reservation (reached : system.Reach Bounded s) :
    s.asked.card ≤ LOGSIZE ∧
      (Roomy s → ¬ tooBig s.log) ∧
      ((∀ p, (s.stage p).block? = none) → (¬ tooBig s.log ↔ Roomy s)) ∧
      (system.Reach BoundedRoomy s → Placed s.log) := by
  have inv := reach_inv reached
  obtain ⟨-, size⟩ := reach_place reached
  have reserved := inv.reserved
  have length := inv.length_le
  change _ = 30 at size
  have notTooBig : Roomy s → ¬ tooBig s.log := by
    unfold Roomy
    change _ → ¬ (30 ≤ s.log.lh.length ∨ (s.log.size : Int) - 1 ≤ s.log.lh.length)
    omega
  refine ⟨by omega, notTooBig, fun quiet => ⟨fun small => ?_, notTooBig⟩, fun roomy => ?_⟩
  · have same := inv.length_eq quiet
    change ¬ (30 ≤ s.log.lh.length ∨ (s.log.size : Int) - 1 ≤ s.log.lh.length) at small
    unfold Roomy
    omega
  · have few := reach_asked roomy
    exact ⟨inv.nodup, fun i inside => by omega⟩

/-- **A commit is alone.** `outstanding` counts the calls inside, none of which is there during a
commit; and the header has, once each, the blocks its calls asked for and have put in. -/
theorem commit_alone (reached : system.Reach Bounded s) :
    s.log.outstanding = (insiders s).card ∧ (s.log.committing = true → ∀ p, s.stage p = .outside) ∧
      s.log.lh.Nodup ∧ ∀ b, b ∈ s.asked ↔ b ∈ s.log.lh ∨ ∃ p, s.stage p = .logging b := by
  have inv := reach_inv reached
  exact ⟨inv.count, inv.idle, inv.nodup, inv.asked⟩

end Invariant

/-! ## Three calls -/

/-- `log_write(b)` without an interruption. -/
def logWrites (p : Fin 3) (blocks : List Nat) : List (Event (Fin 3)) :=
  blocks.flatMap fun b => [.test p b, .enter p]

def freshLog : State (Fin 3) :=
  ⟨⟨2, LOGSIZE, 0, false, []⟩, fun _ => .outside, fun _ => ∅, ∅⟩

theorem freshLog_start : Start freshLog :=
  ⟨rfl, rfl, rfl, rfl, rfl, fun _ => rfl, fun _ => rfl, rfl⟩

/-- Three calls; two of them log ten blocks each, the third one nine. -/
def threeCalls : List (Event (Fin 3)) :=
  [.beginOp 0, .beginOp 1, .beginOp 2] ++ logWrites 0 (List.range' 60 10) ++
    logWrites 1 (List.range' 70 10) ++ logWrites 2 (List.range' 80 8)

@[irreducible] def afterEight : State (Fin 3) := (system.run freshLog threeCalls).getD freshLog

@[irreducible] def afterNine : State (Fin 3) :=
  (system.run freshLog (threeCalls ++ logWrites 2 [88])).getD freshLog

/-- Two calls are past their tests when 28 blocks are in the log. -/
@[irreducible] def afterRace : State (Fin 3) :=
  (system.run freshLog ([.beginOp 0, .beginOp 1, .beginOp 2] ++ logWrites 0 (List.range' 60 10) ++
    logWrites 1 (List.range' 70 9) ++ logWrites 2 (List.range' 80 9) ++
    [.test 1 79, .test 2 89, .enter 1, .enter 2])).getD freshLog

theorem log_reservation_eight : ¬ tooBig afterEight.log ∧ Placed afterEight.log := by
  have reached : system.Reach Bounded afterEight := by
    unfold afterEight
    apply System.Reach.run_getD (.start freshLog_start)
    · decide +kernel
    · decide +kernel
  have roomy : system.Reach BoundedRoomy afterEight := by
    unfold afterEight
    apply System.Reach.run_getD (.start freshLog_start)
    · decide +kernel
    · decide +kernel
  obtain ⟨-, fits, -, placed⟩ := log_reservation reached
  exact ⟨fits (by decide +kernel), placed roomy⟩

theorem afterRace_reached : system.Reach Bounded afterRace := by
  unfold afterRace
  apply System.Reach.run_getD (.start freshLog_start)
  · decide +kernel
  · decide +kernel

/-- Three calls have 30 blocks in the log, each of them once. -/
theorem commit_alone_race : (insiders afterRace).card = 3 ∧ afterRace.log.lh.length = 30 ∧
    afterRace.log.lh.Nodup ∧ 89 ∈ afterRace.asked := by
  obtain ⟨count, -, nodup, asked⟩ := commit_alone afterRace_reached
  have three : afterRace.log.outstanding = 3 := by decide +kernel
  refine ⟨?_, by decide +kernel, nodup, (asked 89).mpr (.inl (by decide +kernel))⟩
  rw [three] at count
  exact Int.ofNat_inj.mp count.symm

/-- The third call may log one block more, and panics when it does. If two calls log their last blocks
at once, the 30th one gets the block after the log. -/
theorem log_reservation_overdrawn :
    (system.Reach Bounded afterNine ∧ afterNine.stage 2 = .inside ∧
      Bounded afterNine (.test 2 89) ∧ tooBig afterNine.log) ∧
    (system.Reach Bounded afterRace ∧ afterRace.log.lh.length = 30 ∧ ¬ Placed afterRace.log) := by
  refine ⟨⟨?_, by decide +kernel, by decide +kernel, by decide +kernel⟩, ?_, by decide +kernel, ?_⟩
  · unfold afterNine
    apply System.Reach.run_getD (.start freshLog_start)
    · decide +kernel
    · decide +kernel
  · exact afterRace_reached
  · intro placed
    have last : afterRace.log.start + 1 + 29 < afterRace.log.start + afterRace.log.size :=
      placed.2 29 (by decide +kernel)
    revert last
    decide +kernel

end Xv6.Logging
