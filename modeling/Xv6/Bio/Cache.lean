/-
# Xv6.Bio.Cache -- the buffer cache

`bio.c`, with the part of `ide.c` that it waits for. Processes call `bread`, `bwrite` and `brelse` on
the root device, change the data of buffers they have locked, and log them, in any order. A call is cut
where another process can come in: `bget` between `bcache.lock` and the sleep lock, `brelse` between
the sleep lock and `bcache.lock`, and `iderw` while it waits for the disk.

* **The list.** All buffers hang in a circular list with `head`; `brelse` moves them to the front. The
  pointers are those of the source (`Xv6.Lib.Circular`), and `bget` follows them.
* **Ghosts.** `stored` is the data last stored in each block. `unsaved` marks a buffer that was changed
  and not logged or written yet; a process does that before it releases the buffer.
* **Steps.** While the list is whole, `bget` finds the buffer of a block if there is one, and otherwise
  an unused one (`bget_step`); `Step` lists what a step can do.
-/
import Xv6.Lib.Circular
import Xv6.Lib.Transition
import Xv6.Fs.Disk

namespace Xv6.Bio
open Lib List Option Function
open Fs (NBUF ROOTDEV FSSIZE)
set_option autoImplicit false

/-! ## The machine -/

/-- A place in `bcache.buf`. -/
abbrev Slot := Fin NBUF

inductive Node where
  | head
  | buf (n : Slot)
  deriving DecidableEq, Repr

structure Buf (P D : Type) where
  dev : Nat
  blockno : Nat
  refcnt : Nat
  valid : Bool
  dirty : Bool
  /-- who has the sleep lock -/
  holder : Option P
  data : D
  unsaved : Bool

/-- Where a process is. -/
inductive Stage where
  | idle
  /-- in `bget(b)`, before it has the sleep lock of its buffer -/
  | locking (b : Nat) (n : Slot)
  /-- in `iderw`, called by `bread(b)` -/
  | reading (b : Nat) (n : Slot)
  /-- `bread(b)` has returned the buffer -/
  | returned (b : Nat) (n : Slot)
  /-- in `iderw`, called by `bwrite` -/
  | writing (n : Slot)
  /-- in `brelse`, when the sleep lock is released -/
  | releasing (n : Slot)
  deriving DecidableEq, Repr

structure State (P D : Type) where
  links : Links Node
  buf : Slot → Buf P D
  idequeue : List Slot
  disk : Nat → D
  stage : P → Stage
  stored : Nat → D

inductive Event (P D : Type) where
  /-- `bread(b)` up to the sleep lock -/
  | bread (p : P) (b : Nat)
  | lock (p : P)
  /-- the disk has done the first request of its queue -/
  | ideintr
  /-- `iderw` finds its request done -/
  | wake (p : P)
  | modify (p : P) (n : Slot) (data : D)
  | logWrite (p : P) (n : Slot)
  | bwrite (p : P) (n : Slot)
  /-- `brelse` up to `bcache.lock` -/
  | brelse (p : P) (n : Slot)
  | unref (p : P)

/-- The process is in none of these calls. -/
def Stage.free : Stage → Bool
  | .idle | .returned _ _ => true
  | .locking _ _ | .reading _ _ | .writing _ | .releasing _ => false

section Machine

variable {P D : Type} [DecidableEq P]

def State.setBuf (s : State P D) (n : Slot) (buf : Buf P D) : State P D :=
  { s with buf := update s.buf n buf }

def State.setStage (s : State P D) (p : P) (stage : Stage) : State P D :=
  { s with stage := update s.stage p stage }

/-- `binit` on the links: every buffer is put in front. -/
def binit : Links Node :=
  (finRange NBUF).foldl (fun k n => k.insertAfter .head (.buf n)) ⟨fun _ => .head, fun _ => .head⟩

def State.isBlock (s : State P D) (b : Nat) : Node → Bool
  | .head => false
  | .buf n => (s.buf n).dev == ROOTDEV && (s.buf n).blockno == b

def State.unused (s : State P D) : Node → Bool
  | .head => false
  | .buf n => (s.buf n).refcnt == 0 && !(s.buf n).dirty

/-- The first loop of `bget`: forward from `head.next`. -/
def State.findBlock (s : State P D) (b : Nat) : Option (Option Node) :=
  Links.walk s.links.next .head (s.isBlock b) (NBUF + 1) (s.links.next .head)

/-- The second loop: backward from `head.prev`. -/
def State.findUnused (s : State P D) : Option (Option Node) :=
  Links.walk s.links.prev .head s.unused (NBUF + 1) (s.links.prev .head)

def hit (s : State P D) (p : P) (b : Nat) (n : Slot) : State P D :=
  (s.setBuf n { s.buf n with refcnt := (s.buf n).refcnt + 1 }).setStage p (.locking b n)

def recycle (s : State P D) (p : P) (b : Nat) (n : Slot) : State P D :=
  (s.setBuf n { s.buf n with
    dev := ROOTDEV, blockno := b, valid := false, dirty := false, refcnt := 1 }).setStage p
    (.locking b n)

/-- `bget` under `bcache.lock`; without a buffer it panics. -/
def bget (s : State P D) (p : P) (b : Nat) : Option (State P D) :=
  match s.findBlock b with
  | some (some (.buf n)) => some (hit s p b n)
  | some none =>
    match s.findUnused with
    | some (some (.buf n)) => some (recycle s p b n)
    | _ => none
  | _ => none

/-- `iderw`: append the buffer to the queue, and start the disk if it is the first one. `idestart`
panics at a block that the disk does not have. -/
def iderw (s : State P D) (n : Slot) : Option (State P D) :=
  if s.idequeue = [] ∧ FSSIZE ≤ (s.buf n).blockno then
    none
  else
    some { s with idequeue := s.idequeue ++ [n] }

/-- `acquiresleep`, and what `bread` does then. -/
def lock (s : State P D) (p : P) (b : Nat) (n : Slot) : Option (State P D) :=
  let s := s.setBuf n { s.buf n with holder := some p }
  if (s.buf n).valid then
    some (s.setStage p (.returned b n))
  else
    iderw (s.setStage p (.reading b n)) n

/-- The disk has written a dirty buffer, or read one that is not. -/
def transfer (s : State P D) (n : Slot) : State P D :=
  let buf := s.buf n
  if buf.dirty then
    { s.setBuf n { buf with valid := true, dirty := false } with
      disk := update s.disk buf.blockno buf.data }
  else
    s.setBuf n { buf with data := s.disk buf.blockno, valid := true, dirty := false }

def ideintr (s : State P D) : Option (State P D) :=
  match s.idequeue with
  | [] => none
  | n :: rest =>
    match rest with
    | [] => some { transfer s n with idequeue := rest }
    | m :: _ =>
      if FSSIZE ≤ (s.buf m).blockno then none else some { transfer s n with idequeue := rest }

/-- `iderw` is done, and its caller returns. -/
def wake (s : State P D) (p : P) : Option (State P D) :=
  match s.stage p with
  | .reading b n =>
    if (s.buf n).valid ∧ (s.buf n).dirty = false then some (s.setStage p (.returned b n)) else none
  | .writing n =>
    if (s.buf n).valid ∧ (s.buf n).dirty = false then some (s.setStage p .idle) else none
  | _ => none

def modify (s : State P D) (n : Slot) (data : D) : State P D :=
  { s.setBuf n { s.buf n with data := data, unsaved := true } with
    stored := update s.stored (s.buf n).blockno data }

/-- What `log_write` does with the buffer. -/
def logWrite (s : State P D) (n : Slot) : State P D :=
  s.setBuf n { s.buf n with dirty := true, unsaved := false }

def bwrite (s : State P D) (p : P) (n : Slot) : Option (State P D) :=
  iderw ((s.setBuf n { s.buf n with dirty := true, unsaved := false }).setStage p (.writing n)) n

def brelse (s : State P D) (p : P) (n : Slot) : State P D :=
  (s.setBuf n { s.buf n with holder := none }).setStage p (.releasing n)

/-- The rest of `brelse`: a buffer that nobody uses goes to the front. -/
def unref (s : State P D) (p : P) (n : Slot) : State P D :=
  let s := (s.setBuf n { s.buf n with refcnt := (s.buf n).refcnt - 1 }).setStage p .idle
  if (s.buf n).refcnt = 0 then
    { s with links := (s.links.unlink (.buf n)).insertAfter .head (.buf n) }
  else
    s

/-- Only the holder of a buffer calls anything on it. -/
def next (s : State P D) : Event P D → Option (State P D)
  | .bread p b => if (s.stage p).free then bget s p b else none
  | .lock p =>
    match s.stage p with
    | .locking b n => if (s.buf n).holder = none then lock s p b n else none
    | _ => none
  | .ideintr => ideintr s
  | .wake p => wake s p
  | .modify p n data =>
    if (s.stage p).free ∧ (s.buf n).holder = some p then some (modify s n data) else none
  | .logWrite p n =>
    if (s.stage p).free ∧ (s.buf n).holder = some p then some (logWrite s n) else none
  | .bwrite p n => if (s.stage p).free ∧ (s.buf n).holder = some p then bwrite s p n else none
  | .brelse p n =>
    if (s.stage p).free ∧ (s.buf n).holder = some p ∧ (s.buf n).unsaved = false then
      some (brelse s p n)
    else
      none
  | .unref p =>
    match s.stage p with
    | .releasing n => some (unref s p n)
    | _ => none

/-- After `binit`: the buffers are those of no device. -/
structure Start (s : State P D) : Prop where
  links : s.links = binit
  buf : ∀ n, (s.buf n).dev = 0 ∧ (s.buf n).refcnt = 0 ∧ (s.buf n).valid = false ∧
    (s.buf n).dirty = false ∧ (s.buf n).holder = none ∧ (s.buf n).unsaved = false
  idequeue : s.idequeue = []
  stage : ∀ p, s.stage p = .idle
  stored : s.stored = s.disk

def system : System (State P D) (Event P D) where
  start := Start
  next := next

end Machine

/-! ## The list -/

section List

variable {P D : Type}

/-- The pointers lead through all buffers and back to `head`. -/
def Whole (k : Links Node) (l : List Node) : Prop := k.Ring .head l ∧ ∀ n, Node.buf n ∈ l

theorem binit_whole : ∃ l, Whole binit l := by
  have upTo : ∀ (todo : List Slot) (k : Links Node) (l : List Node), k.Ring .head l → todo.Nodup →
      (∀ n ∈ todo, Node.buf n ∉ l) →
      ∃ l', (todo.foldl (fun k n => k.insertAfter .head (.buf n)) k).Ring .head l' ∧
        (∀ x ∈ l, x ∈ l') ∧ ∀ n ∈ todo, Node.buf n ∈ l' := by
    intro todo
    induction todo with
    | nil =>
      intro k l ring _ _
      exact ⟨l, ring, fun x inside => inside, by simp⟩
    | cons n todo ih =>
      intro k l ring nodup new
      rw [nodup_cons] at nodup
      have absent : Node.buf n ∉ Node.head :: l := by simpa using new n (by simp)
      obtain ⟨l', ring', old, all⟩ := ih _ _ (ring.insertAfter absent) nodup.2 fun m inside => by
        have other : m ≠ n := by
          rintro rfl
          exact nodup.1 inside
        simpa [other] using new m (mem_cons_of_mem n inside)
      refine ⟨l', ring', fun x inside => old x (mem_cons_of_mem _ inside), fun m inside => ?_⟩
      rcases mem_cons.mp inside with rfl | later
      · exact old _ mem_cons_self
      · exact all m later
  have empty : Links.Ring ⟨fun _ => Node.head, fun _ => Node.head⟩ .head [] := ⟨by simp, rfl, rfl⟩
  obtain ⟨l, ring, -, all⟩ := upTo (finRange NBUF) _ [] empty (nodup_finRange NBUF) (by simp)
  exact ⟨l, ring, fun n => all n (mem_finRange n)⟩

/-- There are no other nodes. -/
theorem Whole.length_lt {k : Links Node} {l : List Node} (whole : Whole k l) : l.length < NBUF + 1 := by
  have nodup := nodup_cons.mp whole.1.nodup
  have named : ∀ x ∈ l, x ∈ (finRange NBUF).map Node.buf := by
    intro x inside
    cases x with
    | head => exact absurd inside nodup.1
    | buf n => simp
  have fits := (nodup.2.subperm named).length_le
  rw [length_map, length_finRange] at fits
  omega

variable {s : State P D} {l : List Node} {b : Nat}

theorem findBlock_eq (whole : Whole s.links l) : s.findBlock b = some (l.find? (s.isBlock b)) :=
  whole.1.walk_next _ whole.length_lt

theorem findUnused_eq (whole : Whole s.links l) : s.findUnused = some (l.reverse.find? s.unused) :=
  whole.1.walk_prev _ whole.length_lt

end List

/-! ## Steps -/

section Steps

variable {P D : Type} [DecidableEq P]

/-- What a step does. -/
inductive Step (s : State P D) : State P D → Prop where
  | hit {p : P} {b : Nat} {n : Slot} (free : (s.stage p).free) (dev : (s.buf n).dev = ROOTDEV)
      (blockno : (s.buf n).blockno = b) : Step s (hit s p b n)
  | recycle {p : P} {b : Nat} {n : Slot} (free : (s.stage p).free)
      (absent : ∀ m, (s.buf m).dev = ROOTDEV → (s.buf m).blockno ≠ b)
      (refcnt : (s.buf n).refcnt = 0) (clean : (s.buf n).dirty = false) : Step s (recycle s p b n)
  | lockValid {p : P} {b : Nat} {n : Slot} (stage : s.stage p = .locking b n)
      (unlocked : (s.buf n).holder = none) (valid : (s.buf n).valid = true) :
      Step s ((s.setBuf n { s.buf n with holder := some p }).setStage p (.returned b n))
  | lockRead {p : P} {b : Nat} {n : Slot} (stage : s.stage p = .locking b n)
      (unlocked : (s.buf n).holder = none) (invalid : (s.buf n).valid = false) :
      Step s { (s.setBuf n { s.buf n with holder := some p }).setStage p (.reading b n) with
        idequeue := s.idequeue ++ [n] }
  | transfer {n : Slot} {rest : List Slot} (queue : s.idequeue = n :: rest) :
      Step s { transfer s n with idequeue := rest }
  | wakeRead {p : P} {b : Nat} {n : Slot} (stage : s.stage p = .reading b n)
      (valid : (s.buf n).valid = true) (clean : (s.buf n).dirty = false) :
      Step s (s.setStage p (.returned b n))
  | wakeWrite {p : P} {n : Slot} (stage : s.stage p = .writing n)
      (valid : (s.buf n).valid = true) (clean : (s.buf n).dirty = false) : Step s (s.setStage p .idle)
  | modify {p : P} {n : Slot} {data : D} (free : (s.stage p).free)
      (holder : (s.buf n).holder = some p) : Step s (modify s n data)
  | logWrite {p : P} {n : Slot} (free : (s.stage p).free) (holder : (s.buf n).holder = some p) :
      Step s (logWrite s n)
  | bwrite {p : P} {n : Slot} (free : (s.stage p).free) (holder : (s.buf n).holder = some p) :
      Step s { (s.setBuf n { s.buf n with dirty := true, unsaved := false }).setStage p (.writing n) with
        idequeue := s.idequeue ++ [n] }
  | brelse {p : P} {n : Slot} (free : (s.stage p).free) (holder : (s.buf n).holder = some p)
      (saved : (s.buf n).unsaved = false) : Step s (brelse s p n)
  | unref {p : P} {n : Slot} (stage : s.stage p = .releasing n) : Step s (unref s p n)

variable {s s' : State P D} {l : List Node}

omit [DecidableEq P] in
theorem iderw_eq {n : Slot} (enqueued : iderw s n = some s') :
    s' = { s with idequeue := s.idequeue ++ [n] } := by
  unfold iderw at enqueued
  split at enqueued
  · cases enqueued
  · exact (some.inj enqueued).symm

/-- Only a buffer that is recycled becomes another block. -/
theorem Step.identity (step : Step s s') {n : Slot}
    (changed : ((s'.buf n).dev, (s'.buf n).blockno) ≠ ((s.buf n).dev, (s.buf n).blockno)) :
    (s.buf n).refcnt = 0 ∧ (s.buf n).dirty = false := by
  cases step with
  | @recycle p b m free absent refcnt clean =>
    by_cases same : n = m
    · rw [same]
      exact ⟨refcnt, clean⟩
    · refine absurd ?_ changed
      change ((update s.buf m _ n).dev, (update s.buf m _ n).blockno) = _
      rw [update_of_ne same]
  | wakeRead | wakeWrite => exact absurd rfl changed
  | @transfer m rest queue =>
    refine absurd ?_ changed
    unfold Bio.transfer
    dsimp only
    by_cases same : n = m
    · split <;> simp [State.setBuf, same]
    · split <;> simp [State.setBuf, same]
  | @unref p m stage =>
    refine absurd ?_ changed
    unfold Bio.unref
    dsimp only
    by_cases same : n = m
    · split <;> simp [State.setBuf, State.setStage, same]
    · split <;> simp [State.setBuf, State.setStage, same]
  | @hit _ _ m | @lockValid _ _ m | @lockRead _ _ m | @modify _ m | @logWrite _ m | @bwrite _ m
  | @brelse _ m =>
    refine absurd ?_ changed
    by_cases same : n = m
    · simp [Bio.hit, Bio.modify, Bio.logWrite, Bio.brelse, State.setBuf, State.setStage, same]
    · simp [Bio.hit, Bio.modify, Bio.logWrite, Bio.brelse, State.setBuf, State.setStage, same]

theorem bget_step (whole : Whole s.links l) {p : P} {b : Nat} (free : (s.stage p).free)
    (got : bget s p b = some s') : Step s s' := by
  unfold bget at got
  rw [findBlock_eq whole] at got
  cases found : l.find? (s.isBlock b) with
  | some x =>
    have here := find?_some found
    cases x with
    | head => cases here
    | buf n =>
      rw [found] at got
      cases got
      simp only [State.isBlock, Bool.and_eq_true, beq_iff_eq] at here
      exact .hit free here.1 here.2
  | none =>
    have absent : ∀ m, (s.buf m).dev = ROOTDEV → (s.buf m).blockno ≠ b := by
      intro m dev blockno
      have miss := find?_eq_none.mp found (.buf m) (whole.2 m)
      exact miss (by simp [State.isBlock, dev, blockno])
    rw [found, findUnused_eq whole] at got
    cases unused : l.reverse.find? s.unused with
    | none =>
      rw [unused] at got
      cases got
    | some x =>
      have here := find?_some unused
      cases x with
      | head => cases here
      | buf n =>
        rw [unused] at got
        cases got
        simp only [State.unused, Bool.and_eq_true, beq_iff_eq, Bool.not_eq_true'] at here
        exact .recycle free absent here.1 here.2

theorem step_of_next (whole : Whole s.links l) {e : Event P D} (stepped : next s e = some s') :
    Step s s' := by
  cases e with
  | bread p b =>
    simp only [next, ite_none_right_eq_some] at stepped
    exact bget_step whole stepped.1 stepped.2
  | lock p =>
    simp only [next] at stepped
    split at stepped
    next b n stage =>
      rw [ite_none_right_eq_some] at stepped
      obtain ⟨unlocked, locked⟩ := stepped
      unfold lock at locked
      dsimp only at locked
      split at locked
      next valid =>
        cases locked
        exact .lockValid stage unlocked (by simpa [State.setBuf] using valid)
      next invalid =>
        rw [iderw_eq locked]
        exact .lockRead stage unlocked (by simpa [State.setBuf] using invalid)
    next => cases stepped
  | ideintr =>
    simp only [next, ideintr] at stepped
    split at stepped
    next => cases stepped
    next n rest queue =>
      split at stepped
      next =>
        cases stepped
        exact .transfer queue
      next =>
        split at stepped
        next => cases stepped
        next =>
          cases stepped
          exact .transfer queue
  | wake p =>
    simp only [next, wake] at stepped
    split at stepped
    next b n stage =>
      simp only [ite_none_right_eq_some, some.injEq] at stepped
      obtain ⟨⟨valid, clean⟩, rfl⟩ := stepped
      exact .wakeRead stage valid clean
    next n stage =>
      simp only [ite_none_right_eq_some, some.injEq] at stepped
      obtain ⟨⟨valid, clean⟩, rfl⟩ := stepped
      exact .wakeWrite stage valid clean
    next => cases stepped
  | modify p n data =>
    simp only [next, ite_none_right_eq_some, some.injEq] at stepped
    obtain ⟨⟨free, holder⟩, rfl⟩ := stepped
    exact .modify free holder
  | logWrite p n =>
    simp only [next, ite_none_right_eq_some, some.injEq] at stepped
    obtain ⟨⟨free, holder⟩, rfl⟩ := stepped
    exact .logWrite free holder
  | bwrite p n =>
    simp only [next, ite_none_right_eq_some] at stepped
    obtain ⟨⟨free, holder⟩, written⟩ := stepped
    rw [iderw_eq written]
    exact .bwrite free holder
  | brelse p n =>
    simp only [next, ite_none_right_eq_some, some.injEq] at stepped
    obtain ⟨⟨free, holder, saved⟩, rfl⟩ := stepped
    exact .brelse free holder saved
  | unref p =>
    simp only [next] at stepped
    split at stepped
    next n stage =>
      cases stepped
      exact .unref stage
    next => cases stepped

end Steps

end Xv6.Bio
