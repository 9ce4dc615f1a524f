/-
# Xv6.Bio.Coherence -- the cache shows what was stored last

The invariant of the buffer cache has three parts. The list is whole. The buffers are the lines of a
write-back cache over the disk, and coherent (`Xv6.Lib.WriteBack`): a block is in one buffer at most,
and a buffer with valid data has what was stored last. And the references are counted: `refcnt` is the
number of processes that have the buffer locked, wait for its lock, or are about to give it back, so
that a buffer with `refcnt` 0 is nobody's, and can become another block.
-/
import Xv6.Bio.Cache
import Xv6.Lib.Count
import Xv6.Lib.WriteBack

namespace Xv6.Bio
open Lib Function
open Fs (NBUF ROOTDEV FSSIZE)
set_option autoImplicit false

/-! ## The invariant -/

section Invariant

variable {P D : Type}

/-- The process has a reference to the buffer without holding its lock. -/
def Stage.refers (n : Slot) : Stage → Nat
  | .locking _ m | .releasing m => if m = n then 1 else 0
  | .idle | .reading _ _ | .returned _ _ | .writing _ => 0

@[simp] theorem Stage.refers_locking (n m : Slot) (b : Nat) :
    (Stage.locking b m).refers n = if m = n then 1 else 0 := rfl

@[simp] theorem Stage.refers_releasing (n m : Slot) :
    (Stage.releasing m).refers n = if m = n then 1 else 0 := rfl

@[simp] theorem Stage.refers_reading (n m : Slot) (b : Nat) : (Stage.reading b m).refers n = 0 := rfl

@[simp] theorem Stage.refers_returned (n m : Slot) (b : Nat) : (Stage.returned b m).refers n = 0 := rfl

@[simp] theorem Stage.refers_idle (n : Slot) : Stage.idle.refers n = 0 := rfl

@[simp] theorem Stage.refers_writing (n m : Slot) : (Stage.writing m).refers n = 0 := rfl

theorem Stage.refers_free {stage : Stage} (free : stage.free) (n : Slot) : stage.refers n = 0 := by
  cases stage with
  | idle | returned => rfl
  | locking | reading | writing | releasing => cases free

/-- The block that the process has asked for, and the buffer it is to have. -/
def Stage.wants : Stage → Option (Nat × Slot)
  | .locking b n | .reading b n | .returned b n => some (b, n)
  | .idle | .writing _ | .releasing _ => none

/-- The buffer that the process must have locked. -/
def Stage.holds : Stage → Option Slot
  | .reading _ n | .returned _ n | .writing n => some n
  | .idle | .locking _ _ | .releasing _ => none

/-- The buffer that the process waits for the disk to read. -/
def Stage.reads : Stage → Option Slot
  | .reading _ n => some n
  | .idle | .locking _ _ | .returned _ _ | .writing _ | .releasing _ => none

theorem Stage.holds_of_reads {stage : Stage} {n : Slot} (reads : stage.reads = some n) :
    stage.holds = some n := by
  cases stage with
  | reading => exact reads
  | idle | locking | returned | writing | releasing => cases reads

/-- A process that is in none of the calls waits for nothing. -/
theorem Stage.free_waits {stage : Stage} (free : stage.free) :
    stage.reads = none ∧ ∀ n, stage ≠ .writing n := by
  cases stage with
  | idle | returned => simp [Stage.reads]
  | locking | reading | writing | releasing => cases free

/-- What a buffer is to a cache: a line of the root device, or of nothing. -/
def State.line (s : State P D) (n : Slot) : Line Nat D where
  key := if (s.buf n).dev = ROOTDEV then some (s.buf n).blockno else none
  valid := (s.buf n).valid
  dirty := (s.buf n).dirty || (s.buf n).unsaved
  data := (s.buf n).data

variable {buf : Buf P D}

section Line

variable {s : State P D} {n : Slot}

/-- A change that a cache does not see. -/
theorem line_setBuf (dev : buf.dev = (s.buf n).dev) (blockno : buf.blockno = (s.buf n).blockno)
    (valid : buf.valid = (s.buf n).valid) (dirty : buf.dirty = (s.buf n).dirty)
    (data : buf.data = (s.buf n).data) (unsaved : buf.unsaved = (s.buf n).unsaved) :
    (s.setBuf n buf).line = s.line := by
  funext k
  by_cases same : k = n
  · simp [State.line, State.setBuf, same, dev, blockno, valid, dirty, data, unsaved]
  · simp [State.line, State.setBuf, same]

theorem line_update {line : Line Nat D}
    (changed : line = ⟨if buf.dev = ROOTDEV then some buf.blockno else none, buf.valid,
      buf.dirty || buf.unsaved, buf.data⟩) : (s.setBuf n buf).line = update s.line n line := by
  funext k
  by_cases same : k = n
  · simp [State.line, State.setBuf, same, changed]
  · simp [State.line, State.setBuf, same]

end Line

variable [Fintype P]

/-- References, locks and requests. -/
structure Locks (s : State P D) : Prop where
  refcnt : ∀ n, (s.buf n).refcnt =
    ∑ p, (s.stage p).refers n + if (s.buf n).holder.isSome then 1 else 0
  wants : ∀ p b n, (s.stage p).wants = some (b, n) →
    (s.buf n).dev = ROOTDEV ∧ (s.buf n).blockno = b
  holds : ∀ p n, (s.stage p).holds = some n → (s.buf n).holder = some p
  held : ∀ p n, (s.buf n).holder = some p → (s.buf n).dev = ROOTDEV
  valid : ∀ p n, (s.buf n).holder = some p → (s.buf n).valid = false → (s.stage p).reads = some n
  reading : ∀ p n, (s.stage p).reads = some n → (s.buf n).dirty = false
  writing : ∀ p n, s.stage p = .writing n → (s.buf n).unsaved = false
  queued : ∀ n, n ∈ s.idequeue ↔ ∃ p, (s.buf n).holder = some p ∧
    ((s.buf n).valid = false ∨ (s.stage p = .writing n ∧ (s.buf n).dirty = true))
  once : s.idequeue.Nodup
  unsaved : ∀ n, (s.buf n).unsaved = true → (s.buf n).holder ≠ none

attribute [grind cases] Locks
attribute [grind] Stage.wants Stage.holds Stage.reads

structure Inv (s : State P D) : Prop where
  ring : ∃ l, Whole s.links l
  coherent : Coherent s.line s.disk s.stored
  locks : Locks s

variable {s : State P D} {rest : List Slot}

theorem Start.locks [DecidableEq P] (start : Start s) : Locks s where
  refcnt := by simp [start.buf, start.stage]
  wants := by simp [start.stage, Stage.wants]
  holds := by simp [start.stage, Stage.holds]
  held := by simp [start.buf]
  valid := by simp [start.buf]
  reading := by simp [start.stage, Stage.reads]
  writing := by simp [start.stage]
  queued := by simp [start.buf, start.idequeue]
  once := by simp [start.idequeue]
  unsaved := by simp [start.buf]

theorem Start.inv [DecidableEq P] (start : Start s) : Inv s where
  ring := start.links ▸ binit_whole
  coherent := by
    have keys : ∀ n, (s.line n).key = none := by simp [State.line, start.buf]
    constructor
    case unique => simp [keys]
    case shown => simp [keys]
    case clean => simp [keys]
    case invalid => simp [State.line, start.buf]
    case absent => simp [start.stored]
  locks := start.locks

/-! ## What a reference is worth -/

variable {s s' : State P D} {p : P} {n m : Slot} {b : Nat} {data : D}

section

variable (locks : Locks s)
include locks

/-- Nobody has a reference to a buffer with `refcnt` 0. -/
theorem Locks.unused (refcnt : (s.buf n).refcnt = 0) :
    (s.buf n).holder = none ∧ ∀ q, (s.stage q).refers n = 0 := by
  have counted := locks.refcnt n
  rw [refcnt] at counted
  have none : ∑ q, (s.stage q).refers n = 0 := by omega
  refine ⟨?_, fun q => Finset.sum_eq_zero_iff.mp none q (Finset.mem_univ q)⟩
  by_contra held
  have one : (s.buf n).holder.isSome = true := Option.isSome_iff_ne_none.mpr held
  simp [one] at counted

/-- Nor does anybody want it. -/
theorem Locks.unwanted (refcnt : (s.buf n).refcnt = 0) (q : P) (c : Nat) :
    (s.stage q).wants ≠ some (c, n) := by
  obtain ⟨unlocked, unreferred⟩ := locks.unused refcnt
  intro wanted
  have noRef := unreferred q
  cases stage : s.stage q with
  | idle | writing | releasing => simp [stage, Stage.wants] at wanted
  | locking c' m =>
    simp_all [Stage.wants]
  | reading c' m | returned c' m =>
    have locked := locks.holds q m (by simp [stage, Stage.holds])
    simp_all [Stage.wants]

theorem Locks.key (holder : (s.buf n).holder = some p) :
    (s.line n).key = some (s.buf n).blockno := by
  simp [State.line, locks.held p n holder]

theorem Locks.valid_of_free (free : (s.stage p).free) (holder : (s.buf n).holder = some p) :
    (s.line n).valid = true := by
  by_contra invalid
  have reads := locks.valid p n holder (by simpa [State.line] using invalid)
  rw [(Stage.free_waits free).1] at reads
  cases reads

/-- A holder of a buffer without data waits for the disk to read it. -/
theorem Locks.reading_of_invalid (holder : (s.buf n).holder = some p)
    (invalid : (s.buf n).valid = false) : ∃ b, s.stage p = .reading b n := by
  have reads := locks.valid p n holder invalid
  cases stage : s.stage p with
  | reading b m =>
    rw [stage] at reads
    cases reads
    exact ⟨b, rfl⟩
  | idle | locking | returned | writing | releasing =>
    rw [stage] at reads
    cases reads

theorem Locks.transfer (queue : s.idequeue = n :: rest) :
    Locks { Bio.transfer s n with idequeue := rest } := by
  have once := locks.once
  rw [queue, List.nodup_cons] at once
  have stage : (Bio.transfer s n).stage = s.stage := by
    unfold Bio.transfer
    dsimp only
    split <;> rfl
  have buf : ∃ data, (Bio.transfer s n).buf =
      update s.buf n { s.buf n with data := data, valid := true, dirty := false } := by
    unfold Bio.transfer
    dsimp only
    split
    · exact ⟨(s.buf n).data, rfl⟩
    · exact ⟨s.disk (s.buf n).blockno, rfl⟩
  obtain ⟨data, buf⟩ := buf
  constructor
  case refcnt =>
    intro k
    have before := locks.refcnt k
    rw [stage, buf]
    by_cases same : k = n
    · rwa [same, update_self, ← same]
    · rwa [update_of_ne same]
  case once => exact once.2
  case queued =>
    intro k
    have before := locks.queued k
    rw [queue, List.mem_cons] at before
    rw [stage, buf]
    by_cases same : k = n
    · subst same
      simp [once.1]
    · rw [update_of_ne same, ← before]
      simp [same]
  all_goals
    simp only [stage, buf, update_apply]
    grind

theorem Locks.modify (free : (s.stage p).free) (holder : (s.buf n).holder = some p) :
    Locks (Bio.modify s n data) := by
  obtain ⟨notReading, notWriting⟩ := Stage.free_waits free
  constructor
  all_goals
    simp only [Bio.modify, State.setBuf, update_apply]
    grind [Stage.holds]

theorem Locks.logWrite (free : (s.stage p).free) (holder : (s.buf n).holder = some p) :
    Locks (Bio.logWrite s n) := by
  obtain ⟨notReading, notWriting⟩ := Stage.free_waits free
  constructor
  all_goals
    simp only [Bio.logWrite, State.setBuf, update_apply]
    grind [Stage.holds_of_reads]

end

theorem Inv.unseen (inv : Inv s) (dev : buf.dev = (s.buf n).dev)
    (blockno : buf.blockno = (s.buf n).blockno) (valid : buf.valid = (s.buf n).valid)
    (dirty : buf.dirty = (s.buf n).dirty) (data : buf.data = (s.buf n).data)
    (unsaved : buf.unsaved = (s.buf n).unsaved) :
    Coherent (s.setBuf n buf).line s.disk s.stored := by
  rw [line_setBuf dev blockno valid dirty data unsaved]
  exact inv.coherent

/-- What the disk has done with a buffer. -/
theorem Inv.transferred (inv : Inv s) (queue : s.idequeue = n :: rest) :
    Coherent (Bio.transfer s n).line (Bio.transfer s n).disk (Bio.transfer s n).stored := by
  obtain ⟨q, holder, waits⟩ := (inv.locks.queued n).mp (by simp [queue])
  have key := inv.locks.key holder
  have dev := inv.locks.held q n holder
  have invalid := inv.coherent.invalid n
  simp only [State.line, Bool.or_eq_false_iff] at invalid
  unfold Bio.transfer
  dsimp only
  split
  next dirty =>
    have valid : (s.buf n).valid = true := by
      by_contra not
      rw [(invalid (by simpa using not)).1] at dirty
      cases dirty
    have saved : (s.buf n).unsaved = false := by
      rcases waits with notValid | ⟨writing, -⟩
      · rw [valid] at notValid
        cases notValid
      · exact inv.locks.writing q n writing
    have line : (s.setBuf n { s.buf n with valid := true, dirty := false }).line =
        update s.line n { s.line n with dirty := false } :=
      line_update (by simp [State.line, saved, valid])
    change Coherent (s.setBuf n { s.buf n with valid := true, dirty := false }).line _ _
    rw [line]
    exact inv.coherent.flush key valid
  next clean =>
    have notDirty : (s.buf n).dirty = false := by simpa using clean
    have notValid : (s.buf n).valid = false := by
      rcases waits with notValid | ⟨-, dirty⟩
      · exact notValid
      · exact absurd dirty clean
    have saved : (s.buf n).unsaved = false := (invalid notValid).2
    have line : (s.setBuf n { s.buf n with
        data := s.disk (s.buf n).blockno, valid := true, dirty := false }).line =
        update s.line n ⟨some (s.buf n).blockno, true, false, s.disk (s.buf n).blockno⟩ :=
      line_update (by simp [saved, dev])
    rw [line]
    exact inv.coherent.load key (by simp [State.line, notDirty, saved])

theorem Inv.modified (inv : Inv s) (free : (s.stage p).free) (holder : (s.buf n).holder = some p) :
    Coherent (Bio.modify s n data).line s.disk (Bio.modify s n data).stored := by
  have line : (Bio.modify s n data).line =
      update s.line n { s.line n with data := data, dirty := true } :=
    line_update (by simp [State.line])
  rw [line]
  exact inv.coherent.store (inv.locks.key holder) (inv.locks.valid_of_free free holder)

/-- `log_write` and `bwrite` mark a buffer. -/
theorem Inv.marked (inv : Inv s) (free : (s.stage p).free) (holder : (s.buf n).holder = some p) :
    Coherent (s.setBuf n { s.buf n with dirty := true, unsaved := false }).line s.disk s.stored := by
  have line : (s.setBuf n { s.buf n with dirty := true, unsaved := false }).line =
      update s.line n { s.line n with dirty := true } :=
    line_update (by simp [State.line])
  rw [line]
  exact inv.coherent.mark (inv.locks.key holder) (inv.locks.valid_of_free free holder)

/-! ## Calls -/

variable [DecidableEq P]

section

variable (locks : Locks s)
include locks

/-- One process changes its stage, and one buffer changes with it: every reference is still counted. -/
theorem Locks.refcnt_update (p : P) (n : Slot) (stage : Stage) (buf : Buf P D)
    (elsewhere : ∀ k, k ≠ n → (s.stage p).refers k = stage.refers k)
    (here : buf.refcnt + (s.stage p).refers n + (if (s.buf n).holder.isSome then 1 else 0) =
      (s.buf n).refcnt + stage.refers n + if buf.holder.isSome then 1 else 0) (k : Slot) :
    (update s.buf n buf k).refcnt =
      ∑ q, (update s.stage p stage q).refers k +
        if (update s.buf n buf k).holder.isSome then 1 else 0 := by
  have sums := sum_replace (f := fun q => (s.stage q).refers k)
    (g := fun q => (update s.stage p stage q).refers k) p fun q other => by
      simp [update_of_ne other]
  have before := locks.refcnt k
  simp only [update_self] at sums
  by_cases same : k = n
  · subst same
    rw [update_self]
    omega
  · have others := elsewhere k same
    rw [update_of_ne same]
    omega

theorem Locks.hit (free : (s.stage p).free) (dev : (s.buf n).dev = ROOTDEV)
    (blockno : (s.buf n).blockno = b) : Locks (Bio.hit s p b n) := by
  obtain ⟨notReading, notWriting⟩ := Stage.free_waits free
  constructor
  case refcnt =>
    refine locks.refcnt_update p n _ _ (fun k other => ?_) ?_
    · simp [Stage.refers_free free, other.symm]
    · simp [Stage.refers_free free]
  all_goals
    simp only [Bio.hit, State.setBuf, State.setStage, update_apply]
    grind

theorem Locks.recycle (free : (s.stage p).free) (refcnt : (s.buf n).refcnt = 0) :
    Locks (Bio.recycle s p b n) := by
  obtain ⟨notReading, notWriting⟩ := Stage.free_waits free
  have unwanted := locks.unwanted refcnt
  constructor
  case refcnt =>
    refine locks.refcnt_update p n _ _ (fun k other => ?_) ?_
    · simp [Stage.refers_free free, other.symm]
    · simp [Stage.refers_free free, refcnt]
  all_goals
    simp only [Bio.recycle, State.setBuf, State.setStage, update_apply]
    grind

theorem Locks.lockValid (stage : s.stage p = .locking b n) (unlocked : (s.buf n).holder = none)
    (valid : (s.buf n).valid = true) :
    Locks ((s.setBuf n { s.buf n with holder := some p }).setStage p (.returned b n)) := by
  have named := locks.wants p b n (by rw [stage]; rfl)
  constructor
  case refcnt =>
    refine locks.refcnt_update p n _ _ (fun k other => ?_) ?_
    · simp [stage, other.symm]
    · simp [stage, unlocked]
  all_goals
    simp only [State.setBuf, State.setStage, update_apply]
    grind

theorem Locks.lockRead (stage : s.stage p = .locking b n) (unlocked : (s.buf n).holder = none)
    (invalid : (s.buf n).valid = false) (clean : (s.buf n).dirty = false) :
    Locks { (s.setBuf n { s.buf n with holder := some p }).setStage p (.reading b n) with
      idequeue := s.idequeue ++ [n] } := by
  have named := locks.wants p b n (by rw [stage]; rfl)
  constructor
  case refcnt =>
    refine locks.refcnt_update p n _ _ (fun k other => ?_) ?_
    · simp [stage, other.symm]
    · simp [stage, unlocked]
  case once => exact List.nodup_append.mpr ⟨locks.once, by simp, by grind⟩
  all_goals
    simp only [State.setBuf, State.setStage, update_apply, List.mem_append, List.mem_singleton]
    grind

/-- A process changes its stage, and has no more or fewer references. -/
theorem Locks.refcnt_stage (p : P) (stage : Stage)
    (same : ∀ k, (s.stage p).refers k = stage.refers k) (k : Slot) :
    (s.buf k).refcnt = ∑ q, (update s.stage p stage q).refers k +
      if (s.buf k).holder.isSome then 1 else 0 := by
  have counted := locks.refcnt_update p k stage (s.buf k) (fun k _ => same k) (by rw [same]) k
  rwa [update_self] at counted

theorem Locks.wakeRead (stage : s.stage p = .reading b n) (valid : (s.buf n).valid = true) :
    Locks (s.setStage p (.returned b n)) := by
  constructor
  case refcnt => exact locks.refcnt_stage p _ fun k => by simp [stage]
  all_goals
    simp only [State.setStage, update_apply]
    grind

theorem Locks.wakeWrite (stage : s.stage p = .writing n) (clean : (s.buf n).dirty = false) :
    Locks (s.setStage p .idle) := by
  constructor
  case refcnt => exact locks.refcnt_stage p _ fun k => by simp [stage]
  all_goals
    simp only [State.setStage, update_apply]
    grind

theorem Locks.bwrite (free : (s.stage p).free) (holder : (s.buf n).holder = some p) :
    Locks { (s.setBuf n { s.buf n with dirty := true, unsaved := false }).setStage p (.writing n) with
        idequeue := s.idequeue ++ [n] } := by
  obtain ⟨notReading, notWriting⟩ := Stage.free_waits free
  constructor
  case refcnt =>
    refine locks.refcnt_update p n _ _ (fun k other => ?_) ?_
    · simp [Stage.refers_free free]
    · simp [Stage.refers_free free]
  all_goals
    simp only [State.setBuf, State.setStage, update_apply, List.mem_append, List.mem_singleton]
    grind [Stage.wants, Stage.holds, Stage.reads, Stage.holds_of_reads]

theorem Locks.brelse (free : (s.stage p).free) (holder : (s.buf n).holder = some p)
    (saved : (s.buf n).unsaved = false) : Locks (Bio.brelse s p n) := by
  obtain ⟨notReading, notWriting⟩ := Stage.free_waits free
  constructor
  case refcnt =>
    refine locks.refcnt_update p n _ _ (fun k other => ?_) ?_
    · simp [Stage.refers_free free, other.symm]
    · simp [Stage.refers_free free, holder]
  all_goals
    simp only [Bio.brelse, State.setBuf, State.setStage, update_apply]
    grind

theorem Locks.unref (stage : s.stage p = .releasing n) : Locks (Bio.unref s p n) := by
  have one : 1 ≤ (s.buf n).refcnt := by
    have counted := locks.refcnt n
    have single : (s.stage p).refers n ≤ ∑ q, (s.stage q).refers n :=
      Finset.single_le_sum (f := fun q => (s.stage q).refers n) (fun _ _ => Nat.zero_le _)
        (Finset.mem_univ p)
    rw [stage, Stage.refers_releasing, if_pos rfl] at single
    omega
  have dropped : Locks ((s.setBuf n { s.buf n with refcnt := (s.buf n).refcnt - 1 }).setStage p .idle) := by
    constructor
    case refcnt =>
      refine locks.refcnt_update p n _ _ (fun k other => ?_) ?_
      · simp [stage, other.symm]
      · simp only [stage, Stage.refers_releasing, if_true, Stage.refers_idle]
        omega
    all_goals
      simp only [State.setBuf, State.setStage, update_apply]
      grind
  unfold Bio.unref
  dsimp only
  split
  · exact ⟨dropped.refcnt, dropped.wants, dropped.holds, dropped.held, dropped.valid, dropped.reading,
      dropped.writing, dropped.queued, dropped.once, dropped.unsaved⟩
  · exact dropped

end

theorem Inv.recycled (inv : Inv s) (absent : ∀ m, (s.buf m).dev = ROOTDEV → (s.buf m).blockno ≠ b)
    (refcnt : (s.buf n).refcnt = 0) (clean : (s.buf n).dirty = false) :
    Coherent (Bio.recycle s p b n).line s.disk s.stored := by
  have saved : (s.buf n).unsaved = false := by
    by_contra changed
    exact inv.locks.unsaved n (by simpa using changed) (inv.locks.unused refcnt).1
  have line : (Bio.recycle s p b n).line =
      update s.line n ⟨some b, false, false, (s.buf n).data⟩ :=
    line_update (by simp [saved])
  rw [line]
  refine inv.coherent.assign (by simp [State.line, clean, saved]) fun m key => ?_
  have dev : (s.buf m).dev = ROOTDEV := by
    by_contra other
    simp [State.line, other] at key
  exact absent m dev (by simpa [State.line, dev] using key)

/-! ## Runs -/

theorem Inv.unref (inv : Inv s) (stage : s.stage p = .releasing n) : Inv (Bio.unref s p n) := by
  have line : (Bio.unref s p n).line = s.line := by
    have kept : (s.setBuf n { s.buf n with refcnt := (s.buf n).refcnt - 1 }).line = s.line :=
      line_setBuf rfl rfl rfl rfl rfl rfl
    rw [← kept]
    unfold Bio.unref
    dsimp only
    split <;> rfl
  have rest : (Bio.unref s p n).disk = s.disk ∧ (Bio.unref s p n).stored = s.stored := by
    unfold Bio.unref
    dsimp only
    split <;> exact ⟨rfl, rfl⟩
  refine ⟨?_, ?_, inv.locks.unref stage⟩
  · obtain ⟨l, ring, all⟩ := inv.ring
    unfold Bio.unref
    dsimp only
    split
    · obtain ⟨l', ring', perm⟩ := ring.moveToFront (all n)
      exact ⟨l', ring', fun m => perm.mem_iff.mpr (all m)⟩
    · exact ⟨l, ring, all⟩
  · rw [line, rest.1, rest.2]
    exact inv.coherent

theorem Inv.step (inv : Inv s) (step : Step s s') : Inv s' := by
  cases step with
  | @hit p b n free dev blockno =>
    refine ⟨inv.ring, ?_, inv.locks.hit free dev blockno⟩
    exact inv.unseen rfl rfl rfl rfl rfl rfl
  | recycle free absent refcnt clean =>
    exact ⟨inv.ring, inv.recycled absent refcnt clean, inv.locks.recycle free refcnt⟩
  | @lockValid p b n stage unlocked valid =>
    refine ⟨inv.ring, ?_, inv.locks.lockValid stage unlocked valid⟩
    exact inv.unseen rfl rfl rfl rfl rfl rfl
  | @lockRead p b n stage unlocked invalid =>
    have clean := inv.coherent.invalid n invalid
    simp only [State.line, Bool.or_eq_false_iff] at clean
    refine ⟨inv.ring, ?_, inv.locks.lockRead stage unlocked invalid clean.1⟩
    exact inv.unseen rfl rfl rfl rfl rfl rfl
  | @transfer n rest queue =>
    have links : (transfer s n).links = s.links := by
      unfold transfer
      dsimp only
      split <;> rfl
    refine ⟨?_, inv.transferred queue, inv.locks.transfer queue⟩
    rw [links]
    exact inv.ring
  | wakeRead stage valid clean => exact ⟨inv.ring, inv.coherent, inv.locks.wakeRead stage valid⟩
  | wakeWrite stage valid clean => exact ⟨inv.ring, inv.coherent, inv.locks.wakeWrite stage clean⟩
  | modify free holder => exact ⟨inv.ring, inv.modified free holder, inv.locks.modify free holder⟩
  | logWrite free holder => exact ⟨inv.ring, inv.marked free holder, inv.locks.logWrite free holder⟩
  | bwrite free holder => exact ⟨inv.ring, inv.marked free holder, inv.locks.bwrite free holder⟩
  | @brelse p n free holder saved =>
    refine ⟨inv.ring, ?_, inv.locks.brelse free holder saved⟩
    exact inv.unseen rfl rfl rfl rfl rfl rfl
  | unref stage => exact inv.unref stage

theorem reach_inv (reached : system.Reachable s) : Inv s := by
  induction reached with
  | start initial => exact Start.inv initial
  | step before admitted stepped ih =>
    obtain ⟨l, whole⟩ := ih.ring
    exact ih.step (step_of_next whole stepped)

/-- **The buffer cache.** In every run the list leads through all buffers and back to `head`, in both
directions; a block is in one buffer at most; a buffer that gets another block was not in use and not
dirty; and `bread` returns, locked, the data last stored in the block. -/
theorem buffer_cache (reached : system.Reachable s) :
    (∃ l, s.links.Ring .head l ∧ ∀ n, Node.buf n ∈ l) ∧
      (∀ m n, (s.buf m).dev = ROOTDEV → (s.buf n).dev = ROOTDEV →
        (s.buf m).blockno = (s.buf n).blockno → m = n) ∧
      (∀ e s', next s e = some s' → ∀ n,
        ((s'.buf n).dev, (s'.buf n).blockno) ≠ ((s.buf n).dev, (s.buf n).blockno) →
        (s.buf n).refcnt = 0 ∧ (s.buf n).dirty = false) ∧
      ∀ p b n, s.stage p = .returned b n → (s.buf n).holder = some p ∧ (s.buf n).dev = ROOTDEV ∧
        (s.buf n).blockno = b ∧ (s.buf n).valid = true ∧ (s.buf n).data = s.stored b := by
  have inv := reach_inv reached
  refine ⟨inv.ring, fun m n devM devN same => ?_, fun e s' stepped n changed => ?_,
    fun p b n stage => ?_⟩
  · exact inv.coherent.unique m n (s.buf n).blockno (by simp [State.line, devM, same])
      (by simp [State.line, devN])
  · obtain ⟨l, whole⟩ := inv.ring
    exact (step_of_next whole stepped).identity changed
  · obtain ⟨dev, blockno⟩ := inv.locks.wants p b n (by rw [stage]; rfl)
    have holder := inv.locks.holds p n (by rw [stage]; rfl)
    have valid := inv.locks.valid_of_free (p := p) (n := n) (by rw [stage]; rfl) holder
    have shown := inv.coherent.shown n b (by simp [State.line, dev, blockno]) valid
    exact ⟨holder, dev, blockno, valid, shown⟩

/-- **References and requests.** `refcnt` counts the process that has the buffer and the calls on
their way to it or from it; the driver has the buffers whose holders wait in `iderw` for a read or a
write that is not done, once each; and a block that is dirty in no buffer is on the disk as it was last
stored. -/
theorem buffer_references (reached : system.Reachable s) :
    (∀ n, (s.buf n).refcnt = ∑ p, (s.stage p).refers n + if (s.buf n).holder.isSome then 1 else 0) ∧
      s.idequeue.Nodup ∧
      (∀ n, n ∈ s.idequeue ↔ ∃ p, (s.buf n).holder = some p ∧
        ((∃ b, s.stage p = .reading b n) ∧ (s.buf n).valid = false ∨
          s.stage p = .writing n ∧ (s.buf n).dirty = true)) ∧
      ∀ b, (∀ n, (s.line n).key = some b → (s.line n).dirty = false) → s.disk b = s.stored b := by
  have inv := reach_inv reached
  refine ⟨inv.locks.refcnt, inv.locks.once, fun n => ?_, fun b clean => ?_⟩
  · rw [inv.locks.queued]
    refine exists_congr fun p => and_congr_right fun holder => or_congr_left ?_
    exact ⟨fun invalid => ⟨inv.locks.reading_of_invalid holder invalid, invalid⟩, And.right⟩
  by_cases cached : ∃ n, (s.line n).key = some b
  · obtain ⟨n, key⟩ := cached
    exact inv.coherent.clean n b key (clean n key)
  · exact inv.coherent.absent b (not_exists.mp cached)

end Invariant

/-! ## A run -/

def emptyCache : State (Fin 2) Nat where
  links := binit
  buf := fun _ => ⟨0, 0, 0, false, false, none, 0, false⟩
  idequeue := []
  disk := fun _ => 0
  stage := fun _ => .idle
  stored := fun _ => 0

/-- One process changes block 5 and logs it, another one reads it. -/
@[irreducible] def afterTwo : State (Fin 2) Nat :=
  (system.run emptyCache
    [.bread 0 5, .lock 0, .ideintr, .wake 0, .bread 1 5, .modify 0 0 7, .logWrite 0 0, .brelse 0 0,
      .lock 1, .unref 0]).getD emptyCache

theorem emptyCache_start : Start emptyCache :=
  ⟨rfl, fun _ => ⟨rfl, rfl, rfl, rfl, rfl, rfl⟩, rfl, fun _ => rfl, rfl⟩

theorem buffer_cache_two :
    afterTwo.disk 5 = 0 ∧ (afterTwo.buf 0).holder = some 1 ∧ (afterTwo.buf 0).data = afterTwo.stored 5 ∧
      afterTwo.stored 5 = 7 := by
  have reached : system.Reachable afterTwo := by
    unfold afterTwo
    apply System.Reach.run_getD (.start emptyCache_start) (System.admits_true _ _ _)
    decide +kernel
  obtain ⟨-, -, -, reads⟩ := buffer_cache reached
  obtain ⟨holder, -, -, -, data⟩ := reads 1 5 0 (by decide +kernel)
  exact ⟨by decide +kernel, holder, data, by decide +kernel⟩

/-- One process writes block 5 back while another one reads block 6: the driver has both buffers. -/
@[irreducible] def twoRequests : State (Fin 2) Nat :=
  (system.run emptyCache
    [.bread 0 5, .lock 0, .ideintr, .wake 0, .modify 0 0 7, .bwrite 0 0, .bread 1 6, .lock 1]).getD
    emptyCache

theorem buffer_references_queued :
    twoRequests.idequeue = [0, 1] ∧ (twoRequests.buf 0).refcnt = 1 ∧
      (∃ p, (twoRequests.buf 0).holder = some p ∧ twoRequests.stage p = .writing 0) ∧
      (∃ p b, (twoRequests.buf 1).holder = some p ∧ twoRequests.stage p = .reading b 1) ∧
      twoRequests.disk 7 = twoRequests.stored 7 := by
  have reached : system.Reachable twoRequests := by
    unfold twoRequests
    apply System.Reach.run_getD (.start emptyCache_start) (System.admits_true _ _ _)
    decide +kernel
  obtain ⟨refcnt, -, queued, clean⟩ := buffer_references reached
  have queue : twoRequests.idequeue = [0, 1] := by decide +kernel
  obtain ⟨p, holder, ⟨-, invalid⟩ | ⟨writes, -⟩⟩ := (queued 0).mp (by simp [queue])
  · exact absurd invalid (by decide +kernel)
  obtain ⟨q, holder', ⟨⟨b, reads⟩, -⟩ | ⟨-, dirty⟩⟩ := (queued 1).mp (by simp [queue])
  · exact ⟨queue, (refcnt 0).trans (by decide +kernel), ⟨p, holder, writes⟩, ⟨q, b, holder', reads⟩,
      clean 7 (by decide +kernel)⟩
  · exact absurd dirty (by decide +kernel)

end Xv6.Bio
