/-
# Xv6.Logging.Crash -- the log makes groups of system calls atomic

The disk, the buffer cache over it, and the log of `log.c`. System calls begin, log blocks and end in
any order; the last one to end commits. Every event writes at most one block to the disk, and a crash
may come between any two events, also while the log of the last crash is being replayed.

* **Buffers.** `cache` is what `bread` finds. A logged block is dirty, and stays in the cache until it
  is installed; every other block is in the cache as it is on the disk. A crash leaves the disk.
* **Groups.** `done` are the writes of the groups that were committed, one list for each; `current` are
  those since the last commit. A group is committed by the write of its header.
* **The result.** Whenever the machine crashes, replaying the log gives the blocks outside the log as
  the committed groups made them, and a call has all of its writes in those groups or none
  (`crash_atomic`). `RedoLog.Durable` is the invariant of the disk.
-/
import Xv6.Lib.RedoLog
import Xv6.Logging.Reservation
import Xv6.Fs.Bytes

namespace Xv6.Logging.Crash
open Lib Fs List Function
set_option autoImplicit false

/-! ## The header -/

/-- What `write_head` makes of the header block. -/
def writeHead (data : Block) (lh : List Nat) : Block :=
  data.put 0 (leBytes lh.length 4 ++ lh.flatMap fun b => leBytes b 4)

def readHead (data : Block) : List Nat :=
  (range (data.le 0 4)).map fun i => data.le (4 + 4 * i) 4

theorem readHead_writeHead {data : Block} {lh : List Nat} (few : lh.length < 2 ^ 32)
    (small : ∀ b ∈ lh, b < 2 ^ 32) : readHead (writeHead data lh) = lh := by
  have count : (writeHead data lh).le 0 4 = lh.length := by
    have read := Block.le_put_append data 0 lh.length 4 [] (lh.flatMap fun b => leBytes b 4)
    exact read.trans (Nat.mod_eq_of_lt few)
  unfold readHead
  rw [count]
  refine ext_getElem (by simp) fun i _ inside => ?_
  rw [getElem_map, getElem_range]
  have word := Block.le_put_words data 0 (leBytes lh.length 4) (n := 4) small inside
  rwa [leBytes_length, Nat.zero_add] at word

/-- The log in blocks `start` to `start + size - 1`. -/
def redoLog (start size : Nat) : RedoLog Nat Block where
  head := start
  slot := fun i => start + i + 1
  capacity := size - 1
  decode := readHead
  apart := by intros; omega
  beside := by intros; omega

/-! ## The machine -/

/-- What the log code does next. -/
inductive Pc where
  /-- nothing: system calls run -/
  | running
  /-- `write_log` at slot `tail`, and after the last one `write_head` -/
  | writeLog (tail : Nat)
  /-- `install_trans` at slot `tail`, and after the last one `write_head` with an empty log -/
  | install (tail : Nat)
  /-- `read_head` of `recover_from_log` -/
  | boot
  deriving DecidableEq, Repr

abbrev Write := Nat × Block

structure State (O : Type) where
  disk : Nat → Block
  cache : Nat → Block
  log : Fs.Log
  pc : Pc
  /-- the kernel starts, and no system call runs yet -/
  recovering : Bool
  /-- the system calls between `begin_op` and `end_op` -/
  active : Finset O
  /-- those that ever began -/
  begun : Finset O
  /-- what a call has logged -/
  wrote : O → List Write
  done : List (List (O × Write))
  current : List (O × Write)

inductive Event (O : Type) where
  | beginOp (o : O)
  /-- the call has changed a block, and calls `log_write` -/
  | logWrite (o : O) (b : Nat) (data : Block)
  | endOp (o : O)
  /-- the next step of `commit` or of `recover_from_log` -/
  | write
  | crash

section Machine

variable {O : Type} [DecidableEq O]

/-- `bwrite` -/
def State.bwrite (s : State O) (b : Nat) (data : Block) : State O :=
  { s with disk := update s.disk b data, cache := update s.cache b data }

def beginOp (s : State O) (o : O) : State O :=
  { s with
    log := { s.log with outstanding := s.log.outstanding + 1 }
    active := insert o s.active
    begun := insert o s.begun }

def logWrite (s : State O) (o : O) (b : Nat) (data : Block) : State O :=
  { s with
    cache := update s.cache b data
    log := { s.log with lh := absorb s.log.lh b }
    wrote := update s.wrote o (s.wrote o ++ [(b, data)])
    current := s.current ++ [(o, b, data)] }

/-- The last call to end commits, unless nothing was logged. -/
def endOp (s : State O) (o : O) : State O :=
  let log := { s.log with outstanding := s.log.outstanding - 1 }
  let s := { s with log := log, active := s.active.erase o }
  if log.outstanding = 0 ∧ 0 < log.lh.length then
    { s with log := { log with committing := true }, pc := .writeLog 0 }
  else
    s

/-- One block of `write_log`. -/
def writeLog (s : State O) (tail b : Nat) : State O :=
  { s.bwrite (s.log.start + tail + 1) (s.cache b) with pc := .writeLog (tail + 1) }

/-- `write_head` of a log that is not empty: the group is committed. -/
def commitGroup (s : State O) : State O :=
  { s.bwrite s.log.start (writeHead (s.cache s.log.start) s.log.lh) with
    pc := .install 0
    done := s.done ++ [s.current]
    current := [] }

/-- One block of `install_trans`. -/
def installTrans (s : State O) (tail b : Nat) : State O :=
  { s.bwrite b (s.cache (s.log.start + tail + 1)) with pc := .install (tail + 1) }

/-- `log.lh.n = 0; write_head();` and the end of `commit` or of `recover_from_log`. -/
def clear (s : State O) : State O :=
  { s.bwrite s.log.start (writeHead (s.cache s.log.start) []) with
    log := { s.log with lh := [], committing := false }
    pc := .running
    recovering := false }

def readLog (s : State O) : State O :=
  { s with log := { s.log with lh := readHead (s.cache s.log.start) }, pc := .install 0 }

def write (s : State O) : Option (State O) :=
  match s.pc with
  | .running => none
  | .writeLog tail =>
    match s.log.lh[tail]? with
    | some b => some (writeLog s tail b)
    | none => some (commitGroup s)
  | .install tail =>
    match s.log.lh[tail]? with
    | some b => some (installTrans s tail b)
    | none => some (clear s)
  | .boot => some (readLog s)

/-- What is on the disk stays; the kernel starts again. -/
def crash (s : State O) : State O :=
  { s with
    cache := s.disk
    log := { s.log with outstanding := 0, committing := false, lh := [] }
    pc := .boot
    recovering := true
    active := ∅
    current := [] }

/-- A call logs blocks outside the log, and block numbers are `uint`. A call that sleeps or panics
makes no step. -/
def next (s : State O) : Event O → Option (State O)
  | .beginOp o =>
    if s.recovering = false ∧ o ∉ s.begun ∧ ¬ mustWait s.log then some (beginOp s o) else none
  | .logWrite o b data =>
    if o ∈ s.active ∧ (b < s.log.start ∨ s.log.start + s.log.size ≤ b) ∧ b < 2 ^ 32 ∧
        ¬ tooBig s.log ∧ 1 ≤ s.log.outstanding then
      some (logWrite s o b data)
    else
      none
  | .endOp o => if o ∈ s.active ∧ s.log.committing = false then some (endOp s o) else none
  | .write => write s
  | .crash => some (crash s)

/-- The kernel starts on a disk with an empty log and `init` in its blocks. -/
structure Start (start size : Nat) (init : Nat → Block) (s : State O) : Prop where
  place : s.log.start = start ∧ s.log.size = size
  disk : s.disk = init
  cache : s.cache = init
  empty : readHead (init start) = []
  boot : s.pc = .boot ∧ s.recovering = true
  outstanding : s.log.outstanding = 0
  active : s.active = ∅
  wrote : ∀ o, s.wrote o = []
  done : s.done = []
  current : s.current = []

def system (start size : Nat) (init : Nat → Block) : System (State O) (Event O) where
  start := Start start size init
  next := next

/-- What a step does. -/
inductive Step (s : State O) : Event O → State O → Prop where
  | beginOp {o : O} (up : s.recovering = false) (fresh : o ∉ s.begun) (awake : ¬ mustWait s.log) :
      Step s (.beginOp o) (beginOp s o)
  | logWrite {o : O} {b : Nat} {data : Block} (inside : o ∈ s.active)
      (home : b < s.log.start ∨ s.log.start + s.log.size ≤ b) (small : b < 2 ^ 32)
      (room : ¬ tooBig s.log) : Step s (.logWrite o b data) (logWrite s o b data)
  | endOp {o : O} (inside : o ∈ s.active) : Step s (.endOp o) (endOp s o)
  | writeLog {tail b : Nat} (pc : s.pc = .writeLog tail) (listed : s.log.lh[tail]? = some b) :
      Step s .write (writeLog s tail b)
  | commitGroup {tail : Nat} (pc : s.pc = .writeLog tail) (all : s.log.lh[tail]? = none) :
      Step s .write (commitGroup s)
  | installTrans {tail b : Nat} (pc : s.pc = .install tail) (listed : s.log.lh[tail]? = some b) :
      Step s .write (installTrans s tail b)
  | clear {tail : Nat} (pc : s.pc = .install tail) (all : s.log.lh[tail]? = none) :
      Step s .write (clear s)
  | readLog (pc : s.pc = .boot) : Step s .write (readLog s)
  | crash : Step s .crash (crash s)

theorem step_of_next {s s' : State O} {e : Event O} (stepped : next s e = some s') : Step s e s' := by
  cases e with
  | beginOp o =>
    simp only [next, Option.ite_none_right_eq_some, Option.some.injEq] at stepped
    obtain ⟨⟨up, fresh, awake⟩, rfl⟩ := stepped
    exact .beginOp up fresh awake
  | logWrite o b data =>
    simp only [next, Option.ite_none_right_eq_some, Option.some.injEq] at stepped
    obtain ⟨⟨inside, home, small, room, -⟩, rfl⟩ := stepped
    exact .logWrite inside home small room
  | endOp o =>
    simp only [next, Option.ite_none_right_eq_some, Option.some.injEq] at stepped
    obtain ⟨⟨inside, -⟩, rfl⟩ := stepped
    exact .endOp inside
  | write =>
    simp only [next, write] at stepped
    split at stepped
    next => cases stepped
    next tail pc =>
      split at stepped
      next b listed => cases stepped; exact .writeLog pc listed
      next all => cases stepped; exact .commitGroup pc all
    next tail pc =>
      split at stepped
      next b listed => cases stepped; exact .installTrans pc listed
      next all => cases stepped; exact .clear pc all
    next pc => cases stepped; exact .readLog pc
  | crash =>
    cases stepped
    exact .crash

end Machine

/-! ## The disk -/

variable {b : Nat}

section Disk

variable {O : Type}

/-- The blocks as a list of groups leaves them. -/
def applied (init : Nat → Block) (groups : List (List (O × Write))) : Nat → Block :=
  applyWrites init (groups.flatten.map Prod.snd)

theorem applied_snoc (init : Nat → Block) (groups : List (List (O × Write)))
    (group : List (O × Write)) :
    applied init (groups ++ [group]) = applyWrites (applied init groups) (group.map Prod.snd) := by
  unfold applied
  rw [flatten_append, map_append, applyWrites_append, flatten_singleton]

/-- A group that writes only what is listed changes nothing else. -/
theorem applied_other {init : Nat → Block} {groups : List (List (O × Write))}
    {group : List (O × Write)} {l : List Nat} (covered : ∀ w ∈ group, w.2.1 ∈ l) (absent : b ∉ l) :
    applied init (groups ++ [group]) b = applied init groups b := by
  rw [applied_snoc]
  refine applyWrites_other fun w inside => ?_
  obtain ⟨logged, member, rfl⟩ := mem_map.mp inside
  rintro rfl
  exact absent (covered logged member)

/-- The log in memory while it is filled, and copied to its slots: the header on the disk is empty. -/
structure Filling (L : RedoLog Nat Block) (init : Nat → Block) (s : State O) : Prop where
  empty : L.decode (s.disk L.head) = []
  view : ∀ b, L.Home b → s.cache b = applied init (s.done ++ [s.current]) b
  covered : ∀ w ∈ s.current, w.2.1 ∈ s.log.lh
  homes : ∀ b ∈ s.log.lh, L.Home b
  small : ∀ b ∈ s.log.lh, b < 2 ^ 32
  short : s.log.lh.length ≤ L.capacity
  few : s.log.lh.length ≤ LOGSIZE

/-- The first `tail` blocks of the log are where they belong. -/
structure Installing (L : RedoLog Nat Block) (init : Nat → Block) (s : State O) (tail : Nat) : Prop where
  listed : L.decode (s.disk L.head) = s.log.lh
  settled : ∀ b, L.Home b → b ∉ s.log.lh.drop tail →
    s.disk b = applied init s.done b ∧ s.cache b = applied init s.done b

/-- What holds at each point of the log code. -/
def Phase (L : RedoLog Nat Block) (init : Nat → Block) (s : State O) : Prop :=
  match s.pc with
  | .running => Filling L init s ∧ s.log.committing = false
  | .writeLog tail => Filling L init s ∧ s.active = ∅ ∧ s.log.committing = true ∧
      ∀ i < tail, ∀ b, s.log.lh[i]? = some b → s.disk (L.slot i) = s.cache b
  | .install tail => Installing L init s tail ∧ s.active = ∅ ∧ s.current = [] ∧
      (s.log.committing = true ∨ s.recovering = true)
  | .boot => s.cache = s.disk ∧ s.active = ∅ ∧ s.current = [] ∧ s.recovering = true

structure Inv (start size : Nat) (init : Nat → Block) (s : State O) : Prop where
  place : s.log.start = start ∧ s.log.size = size
  durable : (redoLog start size).Durable s.disk (applied init s.done)
  area : ∀ b, start ≤ b → b < start + size → s.cache b = s.disk b
  count : s.log.outstanding = s.active.card
  begun : s.active ⊆ s.begun
  phase : Phase (redoLog start size) init s

variable {start size : Nat} {init : Nat → Block} {s s' : State O}

theorem home_iff (positive : 1 ≤ size) :
    (redoLog start size).Home b ↔ b < start ∨ start + size ≤ b := by
  constructor
  · rintro ⟨head, slots⟩
    change b ≠ start at head
    change ∀ i < size - 1, b ≠ start + i + 1 at slots
    by_contra inside
    exact slots (b - start - 1) (by omega) (by omega)
  · intro outside
    refine ⟨?_, fun i inside => ?_⟩
    · change b ≠ start
      omega
    · change i < size - 1 at inside
      change b ≠ start + i + 1
      omega

theorem Start.inv (begins : Start start size init s) : Inv start size init s where
  place := begins.place
  durable := by
    have empty : (redoLog start size).decode (s.disk (redoLog start size).head) = [] := by
      rw [begins.disk]
      exact begins.empty
    refine ⟨by simp [empty], by simp [empty], by simp [empty], fun b _ _ => ?_⟩
    rw [begins.disk, begins.done]
    rfl
  area := fun b _ _ => by rw [begins.cache, begins.disk]
  count := by rw [begins.outstanding, begins.active]; rfl
  begun := by rw [begins.active]; exact Finset.empty_subset _
  phase := by
    unfold Phase
    rw [begins.boot.1]
    exact ⟨begins.cache.trans begins.disk.symm, begins.active, begins.current, begins.boot.2⟩

/-- Calls run only while the log is filled. -/
theorem Inv.running (inv : Inv start size init s) {o : O} (inside : o ∈ s.active) :
    s.pc = .running := by
  have phase := inv.phase
  unfold Phase at phase
  split at phase
  next pc => exact pc
  next => exact absurd inside (by simp [phase.2.1])
  next => exact absurd inside (by simp [phase.2.1])
  next => exact absurd inside (by simp [phase.2.1])

theorem Inv.filling (inv : Inv start size init s) (pc : s.pc = .running) :
    Filling (redoLog start size) init s ∧ s.log.committing = false := by
  have phase := inv.phase
  unfold Phase at phase
  rwa [pc] at phase

/-- So it is when a call begins. -/
theorem Inv.idle (inv : Inv start size init s) (up : s.recovering = false)
    (idle : s.log.committing = false) : s.pc = .running := by
  have phase := inv.phase
  unfold Phase at phase
  split at phase
  next pc => exact pc
  next => exact absurd phase.2.2.1 (by simp [idle])
  next => exact absurd phase.2.2.2 (by simp [idle, up])
  next => exact absurd phase.2.2.2 (by simp [up])

variable {o : O} {b tail : Nat} {data : Block}

section

variable (inv : Inv start size init s)
include inv

/-- Both copies of a block change together. -/
theorem Inv.area_bwrite {c : Nat} (low : start ≤ c) (high : c < start + size) :
    (s.bwrite b data).cache c = (s.bwrite b data).disk c := by
  change update s.cache b data c = update s.disk b data c
  by_cases same : c = b
  · rw [same, update_self, update_self]
  · rw [update_of_ne same, update_of_ne same]
    exact inv.area c low high

theorem Inv.readLog (pc : s.pc = .boot) : Inv start size init (Crash.readLog s) := by
  obtain ⟨atStart, ofSize⟩ := inv.place
  have phase := inv.phase
  unfold Phase at phase
  rw [pc] at phase
  obtain ⟨cached, nobody, nothing, busy⟩ := phase
  refine { inv with phase := ?_ }
  have listed : readHead (s.disk start) = readHead (s.cache s.log.start) := by
    rw [cached, atStart]
  refine ⟨⟨listed, fun c home absent => ?_⟩, nobody, nothing, .inr busy⟩
  change c ∉ (readHead (s.cache s.log.start)).drop 0 at absent
  rw [drop_zero, ← listed] at absent
  change s.disk c = _ ∧ s.cache c = _
  rw [cached]
  exact ⟨inv.durable.rest c home absent, inv.durable.rest c home absent⟩

theorem Inv.crash : Inv start size init (Crash.crash s) where
  place := inv.place
  durable := inv.durable
  area := fun _ _ _ => rfl
  count := rfl
  begun := Finset.empty_subset _
  phase := ⟨rfl, rfl, rfl, rfl⟩

theorem Inv.writeLog (pc : s.pc = .writeLog tail) (listed : s.log.lh[tail]? = some b) :
    Inv start size init (Crash.writeLog s tail b) := by
  obtain ⟨atStart, ofSize⟩ := inv.place
  have phase := inv.phase
  unfold Phase at phase
  rw [pc] at phase
  obtain ⟨filling, nobody, busy, slots⟩ := phase
  have inside : tail < s.log.lh.length := (List.getElem?_eq_some_iff.mp listed).1
  have fits : tail < (redoLog start size).capacity := inside.trans_le filling.short
  have slot : s.log.start + tail + 1 = (redoLog start size).slot tail := by rw [atStart]; rfl
  have head : (Crash.writeLog s tail b).disk start = s.disk start := by
    exact update_of_ne (by omega) _ _
  have cached : ∀ c, (redoLog start size).Home c → (Crash.writeLog s tail b).cache c = s.cache c := by
    intro c home
    change update s.cache (s.log.start + tail + 1) _ c = _
    rw [slot]
    exact update_of_ne (home.2 tail fits) _ _
  refine { inv with durable := ?_, area := fun c low high => inv.area_bwrite low high, phase := ?_ }
  · change (redoLog start size).Durable (update s.disk (s.log.start + tail + 1) _) _
    rw [slot]
    exact inv.durable.writeSlot filling.empty fits _
  · refine ⟨⟨?_, fun c home => ?_, filling.covered, filling.homes, filling.small, filling.short,
      filling.few⟩, nobody, busy, fun i below c entry => ?_⟩
    · change readHead ((Crash.writeLog s tail b).disk start) = []
      rw [head]
      exact filling.empty
    · rw [cached c home]
      exact filling.view c home
    · change s.log.lh[i]? = some c at entry
      rw [cached c (filling.homes c (mem_of_getElem? entry))]
      change update s.disk (s.log.start + tail + 1) (s.cache b) _ = _
      rw [slot]
      by_cases same : i = tail
      · rw [same, update_self]
        rw [same, listed] at entry
        cases entry
        rfl
      · have other : (redoLog start size).slot i ≠ (redoLog start size).slot tail := by
          change start + i + 1 ≠ start + tail + 1
          omega
        rw [update_of_ne other]
        exact slots i (by omega) c entry

theorem Inv.commitGroup (pc : s.pc = .writeLog tail) (all : s.log.lh[tail]? = none) :
    Inv start size init (Crash.commitGroup s) := by
  obtain ⟨atStart, ofSize⟩ := inv.place
  have phase := inv.phase
  unfold Phase at phase
  rw [pc] at phase
  obtain ⟨filling, nobody, busy, slots⟩ := phase
  have written : readHead (writeHead (s.cache s.log.start) s.log.lh) = s.log.lh :=
    readHead_writeHead (filling.few.trans_lt (by decide)) filling.small
  have past : s.log.lh.length ≤ tail := getElem?_eq_none_iff.mp all
  refine { inv with durable := ?_, area := fun c low high => inv.area_bwrite low high, phase := ?_ }
  · change (redoLog start size).Durable
      (update s.disk s.log.start _) (applied init (s.done ++ [s.current]))
    rw [atStart] at written ⊢
    refine inv.durable.writeHead filling.empty written filling.short filling.homes ?_ ?_
    · intro i c entry
      have inside : i < s.log.lh.length := (List.getElem?_eq_some_iff.mp entry).1
      rw [slots i (by omega) c entry]
      exact filling.view c (filling.homes c (mem_of_getElem? entry))
    · exact fun c _ absent => applied_other filling.covered absent
  · refine ⟨⟨?_, fun c home absent => ?_⟩, nobody, rfl, .inl busy⟩
    · change readHead (update s.disk s.log.start _ start) = s.log.lh
      rw [atStart] at written ⊢
      rw [update_self]
      exact written
    · have other : c ≠ s.log.start := by
        rw [atStart]
        exact home.1
      change update s.disk s.log.start _ c = applied init (s.done ++ [s.current]) c ∧
        update s.cache s.log.start _ c = applied init (s.done ++ [s.current]) c
      rw [update_of_ne other, update_of_ne other]
      refine ⟨?_, filling.view c home⟩
      rw [applied_other filling.covered absent]
      exact inv.durable.home filling.empty home

theorem Inv.installTrans (pc : s.pc = .install tail) (listed : s.log.lh[tail]? = some b) :
    Inv start size init (Crash.installTrans s tail b) := by
  obtain ⟨atStart, ofSize⟩ := inv.place
  have phase := inv.phase
  unfold Phase at phase
  rw [pc] at phase
  obtain ⟨installing, nobody, nothing, busy⟩ := phase
  have entry : ((redoLog start size).decode (s.disk (redoLog start size).head))[tail]? = some b := by
    rw [installing.listed]
    exact listed
  have home := inv.durable.homes b (mem_of_getElem? entry)
  have inside : tail < s.log.lh.length := (List.getElem?_eq_some_iff.mp listed).1
  have short := inv.durable.short
  rw [installing.listed] at short
  change s.log.lh.length ≤ size - 1 at short
  have slot : s.cache (s.log.start + tail + 1) = s.disk ((redoLog start size).slot tail) := by
    rw [atStart]
    exact inv.area _ (by omega) (by omega)
  have value : s.disk ((redoLog start size).slot tail) = applied init s.done b :=
    inv.durable.slots tail b entry
  refine { inv with durable := ?_, area := fun c low high => inv.area_bwrite low high, phase := ?_ }
  · change (redoLog start size).Durable (update s.disk b (s.cache _)) _
    rw [slot]
    exact inv.durable.install entry
  · refine ⟨⟨?_, fun c there absent => ?_⟩, nobody, nothing, busy⟩
    · have other : start ≠ b := home.1.symm
      change readHead (update s.disk b _ start) = s.log.lh
      rw [update_of_ne other]
      exact installing.listed
    · change update s.disk b (s.cache _) c = applied init s.done c ∧
        update s.cache b (s.cache _) c = applied init s.done c
      by_cases same : c = b
      · rw [same, update_self, update_self, slot, value]
        exact ⟨rfl, rfl⟩
      · rw [update_of_ne same, update_of_ne same]
        refine installing.settled c there fun old => ?_
        rw [List.drop_eq_getElem_cons inside, (List.getElem?_eq_some_iff.mp listed).2] at old
        rcases mem_cons.mp old with here | later
        · exact same here
        · exact absent later

theorem Inv.clear (pc : s.pc = .install tail) (all : s.log.lh[tail]? = none) :
    Inv start size init (Crash.clear s) := by
  obtain ⟨atStart, ofSize⟩ := inv.place
  have phase := inv.phase
  unfold Phase at phase
  rw [pc] at phase
  obtain ⟨installing, nobody, nothing, -⟩ := phase
  have none : s.log.lh.drop tail = [] := drop_eq_nil_iff.mpr (getElem?_eq_none_iff.mp all)
  have settled : ∀ c, (redoLog start size).Home c →
      s.disk c = applied init s.done c ∧ s.cache c = applied init s.done c := by
    intro c home
    exact installing.settled c home (by simp [none])
  have written : readHead (writeHead (s.cache s.log.start) []) = [] :=
    readHead_writeHead (by simp) (by simp)
  refine { inv with durable := ?_, area := fun c low high => inv.area_bwrite low high, phase := ?_ }
  · change (redoLog start size).Durable (update s.disk s.log.start _) _
    rw [atStart] at written ⊢
    exact RedoLog.Durable.clear (fun c home => (settled c home).1) written
  · refine ⟨⟨?_, fun c home => ?_, ?_, ?_, ?_, Nat.zero_le _, Nat.zero_le _⟩, rfl⟩
    · change readHead (update s.disk s.log.start _ start) = []
      rw [atStart] at written ⊢
      rw [update_self]
      exact written
    · have other : c ≠ s.log.start := by
        rw [atStart]
        exact home.1
      change update s.cache s.log.start _ c = applied init (s.done ++ [s.current]) c
      rw [update_of_ne other, nothing, applied_snoc]
      exact (settled c home).2
    · change ∀ w ∈ s.current, _
      simp [nothing]
    · rintro _ ⟨⟩
    · rintro _ ⟨⟩

end

variable [DecidableEq O]

section

variable (inv : Inv start size init s)
include inv

theorem Inv.beginOp (up : s.recovering = false) (fresh : o ∉ s.begun) (awake : ¬ mustWait s.log) :
    Inv start size init (Crash.beginOp s o) := by
  have idle : s.log.committing = false := by
    by_contra busy
    exact awake (.inl (by simpa using busy))
  have pc := inv.idle up idle
  have new : o ∉ s.active := fun inside => fresh (inv.begun inside)
  refine { inv with count := ?_, begun := Finset.insert_subset_insert o inv.begun, phase := ?_ }
  · have count := inv.count
    change s.log.outstanding + 1 = ((insert o s.active).card : Int)
    rw [Finset.card_insert_of_notMem new, count, Nat.cast_succ]
  · obtain ⟨filling, -⟩ := inv.filling pc
    unfold Phase
    rw [show (Crash.beginOp s o).pc = .running from pc]
    exact ⟨{ filling with }, idle⟩

theorem Inv.logWrite (inside : o ∈ s.active) (home : b < s.log.start ∨ s.log.start + s.log.size ≤ b)
    (small : b < 2 ^ 32) (room : ¬ tooBig s.log) :
    Inv start size init (Crash.logWrite s o b data) := by
  have pc := inv.running inside
  obtain ⟨filling, idle⟩ := inv.filling pc
  obtain ⟨atStart, ofSize⟩ := inv.place
  rw [atStart, ofSize] at home
  unfold tooBig at room
  rw [ofSize] at room
  have listed := ((Absorbs.refl s.log.lh).insert b).mem
  refine { inv with area := ?_, phase := ?_ }
  · intro c low high
    change update s.cache b data c = s.disk c
    rw [update_of_ne (by omega)]
    exact inv.area c low high
  · unfold Phase
    rw [show (Crash.logWrite s o b data).pc = .running from pc]
    refine ⟨⟨filling.empty, fun c there => ?_, fun w member => ?_, fun c member => ?_,
      fun c member => ?_, ?_, ?_⟩, idle⟩
    · change update s.cache b data c =
        applied init (s.done ++ [s.current ++ [(o, b, data)]]) c
      rw [applied_snoc, map_append, map_singleton, applyWrites_snoc, ← applied_snoc]
      by_cases same : c = b
      · rw [same, update_self, update_self]
      · rw [update_of_ne same, update_of_ne same]
        exact filling.view c there
    · refine (listed w.2.1).mpr ?_
      rcases mem_append.mp member with old | new
      · exact .inl (filling.covered w old)
      · rw [mem_singleton.mp new]
        exact .inr (Finset.mem_insert_self b ∅)
    · rcases (listed c).mp member with old | new
      · exact filling.homes c old
      · rw [Finset.mem_singleton.mp new]
        exact (home_iff (by omega)).mpr home
    · rcases (listed c).mp member with old | new
      · exact filling.small c old
      · rw [Finset.mem_singleton.mp new]
        exact small
    · have grown := absorb_length_le s.log.lh b
      change (absorb s.log.lh b).length ≤ size - 1
      omega
    · have grown := absorb_length_le s.log.lh b
      change (absorb s.log.lh b).length ≤ LOGSIZE
      omega

theorem Inv.endOp (inside : o ∈ s.active) : Inv start size init (Crash.endOp s o) := by
  have pc := inv.running inside
  obtain ⟨filling, idle⟩ := inv.filling pc
  have count := inv.count
  have removed : (s.active.erase o).card + 1 = s.active.card := Finset.card_erase_add_one inside
  have kept : Filling (redoLog start size) init s := filling
  have left : Inv start size init { s with
      log := { s.log with outstanding := s.log.outstanding - 1 }
      active := s.active.erase o } := by
    refine { inv with
      count := ?_, begun := (Finset.erase_subset o _).trans inv.begun, phase := ?_ }
    · change s.log.outstanding - 1 = ((s.active.erase o).card : Int)
      omega
    · rw [pc]
      exact ⟨{ kept with }, idle⟩
  unfold Crash.endOp
  dsimp only
  split
  next last =>
    refine { left with phase := ?_ }
    refine ⟨{ kept with }, ?_, rfl, fun i below => absurd below (Nat.not_lt_zero i)⟩
    refine Finset.card_eq_zero.mp ?_
    change (s.active.erase o).card = 0
    omega
  next => exact left

theorem Inv.next {e : Event O} (stepped : next s e = some s') : Inv start size init s' := by
  cases step_of_next stepped with
  | beginOp up fresh awake => exact inv.beginOp up fresh awake
  | logWrite inside home small room => exact inv.logWrite inside home small room
  | endOp inside => exact inv.endOp inside
  | writeLog pc listed => exact inv.writeLog pc listed
  | commitGroup pc all => exact inv.commitGroup pc all
  | installTrans pc listed => exact inv.installTrans pc listed
  | clear pc all => exact inv.clear pc all
  | readLog pc => exact inv.readLog pc
  | crash => exact inv.crash

end

theorem reach_inv (reached : (system start size init).Reachable s) : Inv start size init s := by
  induction reached with
  | start initial => exact Start.inv initial
  | step before admitted stepped ih => exact ih.next stepped

end Disk

/-! ## Recovery -/

section Recovery

variable {O : Type} [DecidableEq O] {start size : Nat} {init : Nat → Block} {s : State O}

/-- `install_trans` comes to its end, and the log is emptied. -/
theorem installs (inv : Inv start size init s) {tail : Nat} (pc : s.pc = .install tail) :
    ∃ s', (system start size init).run s
        (replicate (s.log.lh.length - tail + 1) Event.write) = some s' ∧
      s'.pc = .running ∧ s'.done = s.done ∧ s'.current = s.current ∧ Inv start size init s' := by
  obtain ⟨left, remains⟩ : ∃ left, s.log.lh.length - tail = left := ⟨_, rfl⟩
  induction left generalizing s tail with
  | zero =>
    have all : s.log.lh[tail]? = none := getElem?_eq_none_iff.mpr (by omega)
    have step : (system start size init).next s .write = some (clear s) := by
      simp only [system, next, write, pc, all]
    refine ⟨clear s, ?_, rfl, rfl, rfl, inv.clear pc all⟩
    rw [remains, Nat.zero_add, replicate_one, System.run, step]
    rfl
  | succ left ih =>
    have inside : tail < s.log.lh.length := by omega
    have listed : s.log.lh[tail]? = some s.log.lh[tail] := getElem?_eq_getElem inside
    have step : (system start size init).next s .write =
        some (installTrans s tail s.log.lh[tail]) := by
      simp only [system, next, write, pc, listed]
    obtain ⟨s', ran, rest⟩ := ih (inv.installTrans pc listed) rfl
      (show s.log.lh.length - (tail + 1) = left by omega)
    refine ⟨s', ?_, rest⟩
    rw [show s.log.lh.length - tail + 1 = s.log.lh.length - (tail + 1) + 1 + 1 by omega,
      replicate_succ, System.run, step]
    exact ran

/-- After a crash `recover_from_log` comes to its end. -/
theorem recovers (inv : Inv start size init s) :
    ∃ k s', (system start size init).run s (.crash :: replicate k .write) = some s' ∧
      s'.pc = .running ∧ s'.done = s.done ∧ s'.current = [] ∧ Inv start size init s' := by
  have read : Inv start size init (readLog (crash s)) := inv.crash.readLog rfl
  obtain ⟨s', ran, rest⟩ := installs read rfl
  exact ⟨(readLog (crash s)).log.lh.length - 0 + 1 + 1, s', ran, rest⟩

end Recovery

/-! ## All or nothing -/

section Whole

variable {O : Type} [DecidableEq O]

/-- What a call has in a list of writes. -/
def writesOf (o : O) (writes : List (O × Write)) : List Write :=
  (writes.filter fun w => w.1 = o).map Prod.snd

theorem writesOf_append (o : O) (first second : List (O × Write)) :
    writesOf o (first ++ second) = writesOf o first ++ writesOf o second := by
  unfold writesOf
  rw [filter_append, map_append]

theorem writesOf_one (o p : O) (w : Write) : writesOf o [(p, w)] = if p = o then [w] else [] := by
  unfold writesOf
  by_cases same : p = o <;> simp [same]

/-- The writes of a call are all in the committed groups, all in the current one, or nowhere: lost in
a crash. A call that is active has them in the current one. -/
inductive Fate (s : State O) (o : O) : Prop where
  | committed (ended : o ∉ s.active) (all : writesOf o s.done.flatten = s.wrote o)
      (none : writesOf o s.current = [])
  | current (none : writesOf o s.done.flatten = []) (all : writesOf o s.current = s.wrote o)
  | lost (ended : o ∉ s.active) (none : writesOf o s.done.flatten = [])
      (none' : writesOf o s.current = [])

structure Whole (s : State O) : Prop where
  unbegun : ∀ o, o ∉ s.begun → s.wrote o = []
  fate : ∀ o, Fate s o

variable {start size : Nat} {init : Nat → Block} {s s' : State O} {e : Event O} {o p : O}

section

variable (fate : Fate s o)
include fate

/-- A call that has written nothing so far is active without further ado. -/
theorem Fate.idle (nothing : s.wrote o = []) :
    writesOf o s.done.flatten = [] ∧ writesOf o s.current = [] := by
  cases fate with
  | committed ended all none => exact ⟨all.trans nothing, none⟩
  | current none all => exact ⟨none, all.trans nothing⟩
  | lost ended none none' => exact ⟨none, none'⟩

theorem Fate.active (inside : o ∈ s.active) :
    writesOf o s.done.flatten = [] ∧ writesOf o s.current = s.wrote o := by
  cases fate with
  | committed ended | lost ended => exact absurd inside ended
  | current none all => exact ⟨none, all⟩

/-- Fewer active calls, and the same writes. -/
theorem Fate.mono (active : o ∈ s'.active → o ∈ s.active) (done : s'.done = s.done)
    (current : s'.current = s.current) (wrote : s'.wrote = s.wrote) : Fate s' o := by
  cases fate with
  | committed ended all none =>
    exact .committed (fun inside => ended (active inside)) (by rw [done, wrote, all])
      (by rw [current, none])
  | current none all => exact .current (by rw [done, none]) (by rw [current, wrote, all])
  | lost ended none none' =>
    exact .lost (fun inside => ended (active inside)) (by rw [done, none]) (by rw [current, none'])

theorem Fate.beginOp (fresh : p ∉ s.begun) (unbegun : o ∉ s.begun → s.wrote o = []) :
    Fate (beginOp s p) o := by
  by_cases same : o = p
  · have nothing := unbegun (same ▸ fresh)
    obtain ⟨noneDone, noneCurrent⟩ := fate.idle nothing
    exact .current noneDone (noneCurrent.trans nothing.symm)
  · exact fate.mono (fun inside => Finset.mem_of_mem_insert_of_ne inside same) rfl rfl rfl

theorem Fate.logWrite {data : Block} (inside : p ∈ s.active) : Fate (logWrite s p b data) o := by
  by_cases same : p = o
  · subst same
    obtain ⟨none, all⟩ := fate.active inside
    refine .current none ?_
    change writesOf p (s.current ++ [(p, b, data)]) = update s.wrote p _ p
    rw [writesOf_append, writesOf_one, if_pos rfl, update_self, all]
  · have added : writesOf o (s.current ++ [(p, b, data)]) = writesOf o s.current := by
      rw [writesOf_append, writesOf_one, if_neg same, append_nil]
    have wrote : (Crash.logWrite s p b data).wrote o = s.wrote o :=
      update_of_ne (Ne.symm same) _ _
    cases fate with
    | committed ended all none => exact .committed ended (all.trans wrote.symm) (added.trans none)
    | current none all => exact .current none (added.trans (all.trans wrote.symm))
    | lost ended none none' => exact .lost ended none (added.trans none')

theorem Fate.commitGroup (nobody : s.active = ∅) : Fate (commitGroup s) o := by
  have gone : o ∉ (Crash.commitGroup s).active := by
    change o ∉ s.active
    simp [nobody]
  have done : writesOf o (Crash.commitGroup s).done.flatten =
      writesOf o s.done.flatten ++ writesOf o s.current := by
    change writesOf o (s.done ++ [s.current]).flatten = _
    rw [flatten_append, writesOf_append, flatten_singleton]
  cases fate with
  | committed ended all none => exact .committed gone (by rw [done, all, none, append_nil]; rfl) rfl
  | current none all => exact .committed gone (by rw [done, all, none, nil_append]; rfl) rfl
  | lost ended none none' => exact .lost gone (by rw [done, none, none', append_nil]) rfl

theorem Fate.crash : Fate (crash s) o := by
  have gone : o ∉ (Crash.crash s).active := Finset.notMem_empty o
  cases fate with
  | committed ended all none => exact .committed gone all rfl
  | current none all | lost ended none none' => exact .lost gone none rfl

end

theorem Whole.next (inv : Inv start size init s) (whole : Whole s) (stepped : next s e = some s') :
    Whole s' := by
  cases step_of_next stepped with
  | @beginOp p up fresh awake =>
    refine ⟨fun o unbegun => whole.unbegun o fun before => ?_, fun o => ?_⟩
    · exact unbegun (Finset.mem_insert_of_mem before)
    · exact (whole.fate o).beginOp fresh (whole.unbegun o)
  | @logWrite p b data inside =>
    refine ⟨fun o unbegun => ?_, fun o => (whole.fate o).logWrite inside⟩
    have other : o ≠ p := by
      rintro rfl
      exact unbegun (inv.begun inside)
    change update s.wrote p _ o = []
    rw [update_of_ne other]
    exact whole.unbegun o unbegun
  | @endOp p inside =>
    have active : (endOp s p).active = s.active.erase p := by unfold endOp; dsimp only; split <;> rfl
    have same : (endOp s p).done = s.done ∧ (endOp s p).current = s.current ∧
        (endOp s p).wrote = s.wrote ∧ (endOp s p).begun = s.begun := by
      unfold endOp
      dsimp only
      split <;> exact ⟨rfl, rfl, rfl, rfl⟩
    obtain ⟨done, current, wrote, begun⟩ := same
    refine ⟨fun o unbegun => ?_, fun o => (whole.fate o).mono ?_ done current wrote⟩
    · rw [wrote]
      exact whole.unbegun o (begun ▸ unbegun)
    · rw [active]
      exact Finset.mem_of_mem_erase
  | @commitGroup tail pc all =>
    have phase := inv.phase
    unfold Phase at phase
    rw [pc] at phase
    exact ⟨whole.unbegun, fun o => (whole.fate o).commitGroup phase.2.1⟩
  | crash => exact ⟨whole.unbegun, fun o => (whole.fate o).crash⟩
  | writeLog | installTrans | clear | readLog =>
    exact ⟨whole.unbegun, fun o => (whole.fate o).mono id rfl rfl rfl⟩

theorem reach_whole (reached : (system start size init).Reachable s) : Whole s := by
  induction reached with
  | start initial =>
    refine ⟨fun o _ => initial.wrote o, fun o => .current ?_ ?_⟩
    · rw [initial.done]
      rfl
    · rw [initial.current, initial.wrote]
      rfl
  | step before admitted stepped ih => exact ih.next (reach_inv before) stepped

/-- **Crash atomicity.** However far the machine has come, also in a recovery: if it crashes now,
`recover_from_log` comes to its end, and leaves the blocks outside the log as the committed groups
made them. Each call has all its writes in those groups, and has ended, or none. -/
theorem crash_atomic (reached : (system start size init).Reachable s) :
    (∃ k s', (system start size init).run s (.crash :: replicate k .write) = some s' ∧
      s'.pc = .running ∧ s'.done = s.done ∧
      ∀ b, (redoLog start size).Home b →
        s'.disk b = applied init s.done b ∧ s'.cache b = applied init s.done b) ∧
    ∀ o, writesOf o s.done.flatten = [] ∨
      (o ∉ s.active ∧ writesOf o s.done.flatten = s.wrote o) := by
  constructor
  · obtain ⟨k, s', ran, pc, done, current, inv⟩ := recovers (reach_inv reached)
    refine ⟨k, s', ran, pc, done, fun b home => ?_⟩
    obtain ⟨filling, -⟩ := inv.filling pc
    have view := filling.view b home
    rw [current, applied_snoc, done] at view
    refine ⟨?_, view⟩
    rw [← done]
    exact inv.durable.home filling.empty home
  · intro o
    cases (reach_whole reached).fate o with
    | committed ended all none => exact .inr ⟨ended, all⟩
    | current none all => exact .inl none
    | lost ended none none' => exact .inl none

end Whole

/-! ## A run -/

def freshDisk : State (Fin 2) where
  disk := fun _ _ => 0
  cache := fun _ _ => 0
  log := ⟨2, LOGSIZE, 0, false, []⟩
  pc := .boot
  recovering := true
  active := ∅
  begun := ∅
  wrote := fun _ => []
  done := []
  current := []

/-- The kernel starts, two calls log a block each, and the machine crashes when the header is on the
disk; then it crashes again, after the first block was installed. -/
@[irreducible] def afterCrashes (o₁ o₂ : Fin 2) : State (Fin 2) :=
  ((system 2 LOGSIZE fun _ _ => 0).run freshDisk
    [.write, .write, .beginOp o₁, .beginOp o₂, .logWrite o₁ 60 (fun _ => 7), .endOp o₁,
      .logWrite o₂ 61 (fun _ => 9), .endOp o₂, .write, .write, .write, .crash, .write, .write]).getD
    freshDisk

theorem crash_atomic_twice :
    (afterCrashes 0 1).pc = .install 1 ∧ (afterCrashes 0 1).disk 61 0 = 0 ∧
      ∃ k s', (system 2 LOGSIZE fun _ _ => 0).run (afterCrashes 0 1)
          (.crash :: replicate k .write) = some s' ∧
        s'.disk 60 0 = 7 ∧ s'.disk 61 0 = 9 := by
  have fresh : Start 2 LOGSIZE (fun _ _ => 0) freshDisk :=
    ⟨⟨rfl, rfl⟩, rfl, rfl, by decide, ⟨rfl, rfl⟩, rfl, rfl, fun _ => rfl, rfl, rfl⟩
  have reached : (system 2 LOGSIZE fun _ _ => 0).Reachable (afterCrashes 0 1) := by
    unfold afterCrashes
    apply System.Reach.run_getD (.start fresh) (System.admits_true _ _ _)
    decide +kernel
  obtain ⟨⟨k, s', ran, -, -, home⟩, -⟩ := crash_atomic reached
  have first : applied (fun _ _ => 0) (afterCrashes 0 1).done 60 0 = 7 := by decide +kernel
  have second : applied (fun _ _ => 0) (afterCrashes 0 1).done 61 0 = 9 := by decide +kernel
  have outside : ∀ b, 32 ≤ b → (redoLog 2 LOGSIZE).Home b := fun b above =>
    (home_iff (by decide)).mpr (.inr above)
  refine ⟨by decide +kernel, by decide +kernel, k, s', ran, ?_, ?_⟩
  · rw [(home 60 (outside 60 (by decide))).1, first]
  · rw [(home 61 (outside 61 (by decide))).1, second]

end Xv6.Logging.Crash
