/-
# Xv6.Pipe -- a pipe is a bounded FIFO

Any number of calls of `pipewrite` and `piperead` work on one pipe. A call holds `p->lock` from one
of its sleeps to the next, so its stretches between them are the steps here. A sleeper may go on at
any time: the code tests its condition again, and relies on no wakeup for what it stores or takes.

The two counters are `uint`s and wrap. What has been stored and taken is kept beside the pipe
(`stored`, `taken`), each byte with the call that did it, and the counters are the lengths of these
two lists modulo 2^32. PIPESIZE divides that, so a byte's cell does not depend on the wrapping.

* `Fifo`: what is taken is the front of what is stored, and the rest is in the ring.
* `Told`: what a call has stored is the front of its own bytes, as far as its loop has come.
-/
import Xv6.Param
import Xv6.Lib.Ring
import Xv6.Lib.Transition

namespace Xv6
set_option autoImplicit false

structure Pipe where
  data : Nat → UInt8
  nread : BitVec 32
  nwrite : BitVec 32
  readopen : Bool
  writeopen : Bool

namespace Pipe
open Lib BitVec List Function Prod

abbrev Byte := UInt8

abbrev PIPESIZE : Nat := 512

/-- The arguments of a call. -/
inductive Call where
  | write (addr : Nat → Byte) (n : Int)
  | read (n : Int)

/-- How far a call is: not begun, asleep with its loop at `i`, or done. -/
inductive Stage where
  | ready
  | asleep (i : Nat)
  | returned (r : Int)
  deriving DecidableEq, Repr

structure State (T : Type) where
  pipe : Pipe
  stage : T → Stage
  stored : List (T × Byte)
  taken : List (T × Byte)

inductive Event (T : Type) where
  /-- The call goes on to its next sleep or its end; `killed` is `myproc()->killed`. -/
  | go (t : T) (killed : Bool)
  /-- `pipeclose` -/
  | close (writable : Bool)

/-! ## The code -/

def isFull (p : Pipe) : Prop := p.nwrite = p.nread + BitVec.ofNat 32 PIPESIZE
deriving Decidable

def isEmpty (p : Pipe) : Prop := p.nread = p.nwrite
deriving Decidable

def close (p : Pipe) (writable : Bool) : Pipe :=
  if writable then { p with writeopen := false } else { p with readopen := false }

section Code

variable {T : Type}

/-- `p->data[p->nwrite++ % PIPESIZE] = c` -/
def State.store (s : State T) (t : T) (c : Byte) : State T :=
  { s with
    pipe := { s.pipe with
      data := update s.pipe.data (s.pipe.nwrite.toNat % PIPESIZE) c
      nwrite := s.pipe.nwrite + 1 }
    stored := s.stored ++ [(t, c)] }

/-- `addr[i] = p->data[p->nread++ % PIPESIZE]` -/
def State.take (s : State T) (t : T) : State T :=
  { s with
    pipe := { s.pipe with nread := s.pipe.nread + 1 }
    taken := s.taken ++ [(t, s.pipe.data (s.pipe.nread.toNat % PIPESIZE))] }

/-- The loop of `pipewrite` from `i` on, with so many bytes to go. -/
def pipewrite (t : T) (killed : Bool) (addr : Nat → Byte) (n : Int) :
    Nat → Nat → State T → State T × Stage
  | 0, _, s => (s, .returned n)
  | rest + 1, i, s =>
    if s.pipe.isFull then
      if s.pipe.readopen = false ∨ killed = true then (s, .returned (-1)) else (s, .asleep i)
    else
      pipewrite t killed addr n rest (i + 1) (s.store t (addr i))

/-- The loop that copies. -/
def pipereadLoop (t : T) : Nat → Nat → State T → State T × Stage
  | 0, i, s => (s, .returned i)
  | rest + 1, i, s =>
    if s.pipe.isEmpty then (s, .returned i) else pipereadLoop t rest (i + 1) (s.take t)

def piperead (t : T) (killed : Bool) (n : Int) (s : State T) : State T × Stage :=
  if s.pipe.isEmpty ∧ s.pipe.writeopen = true then
    if killed then (s, .returned (-1)) else (s, .asleep 0)
  else
    pipereadLoop t n.toNat 0 s

def Call.run (t : T) (killed : Bool) (i : Nat) (s : State T) : Call → State T × Stage
  | .write addr n => pipewrite t killed addr n (n.toNat - i) i s
  | .read n => piperead t killed n s

variable [DecidableEq T]

def State.setStage (t : T) (r : State T × Stage) : State T :=
  { r.1 with stage := update r.1.stage t r.2 }

def next (calls : T → Call) (s : State T) : Event T → Option (State T)
  | .go t killed =>
    match s.stage t with
    | .ready => some (State.setStage t ((calls t).run t killed 0 s))
    | .asleep i => some (State.setStage t ((calls t).run t killed i s))
    | .returned _ => none
  | .close writable => some { s with pipe := s.pipe.close writable }

/-- The pipe as `pipealloc` makes it. -/
structure Start (s : State T) : Prop where
  nread : s.pipe.nread = 0
  nwrite : s.pipe.nwrite = 0
  stage : ∀ t, s.stage t = .ready
  stored : s.stored = []
  taken : s.taken = []

def system (calls : T → Call) : System (State T) (Event T) where
  start := Start
  next := next calls

end Code

/-! ## The ring -/

section Fifo

variable {T : Type} {s : State T}

/-- The ring holds what has been stored and not yet taken. -/
structure Fifo (s : State T) : Prop where
  nread : s.pipe.nread = BitVec.ofNat 32 s.taken.length
  nwrite : s.pipe.nwrite = BitVec.ofNat 32 s.stored.length
  behind : s.taken.length ≤ s.stored.length
  close : s.stored.length ≤ s.taken.length + PIPESIZE
  front : s.taken.map snd = (s.stored.map snd).take s.taken.length
  rest : (s.stored.map snd).drop s.taken.length =
    Ring.window PIPESIZE s.pipe.data s.taken.length (s.stored.length - s.taken.length)

/-- The cell of a wrapped counter. -/
theorem toNat_ofNat_mod (n : Nat) : (BitVec.ofNat 32 n).toNat % PIPESIZE = n % PIPESIZE := by
  exact Ring.wrapped_mod (by decide) n

/-- Counters that are close are equal if they are so modulo 2^32. -/
theorem ofNat_inj_of_close {a b : Nat} (below : a ≤ b) (close : b ≤ a + PIPESIZE)
    (same : BitVec.ofNat 32 a = BitVec.ofNat 32 b) : a = b := by
  have mods := congrArg BitVec.toNat same
  rw [toNat_ofNat, toNat_ofNat] at mods
  change b ≤ a + 512 at close
  omega

theorem Fifo.isFull_iff (fifo : Fifo s) :
    s.pipe.isFull ↔ s.stored.length = s.taken.length + PIPESIZE := by
  rw [Pipe.isFull, fifo.nread, fifo.nwrite, ← ofNat_add]
  constructor
  · exact fun same => ofNat_inj_of_close fifo.close (by have := fifo.behind; omega) same
  · intro same
    rw [same]

theorem Fifo.isEmpty_iff (fifo : Fifo s) :
    s.pipe.isEmpty ↔ s.taken.length = s.stored.length := by
  rw [Pipe.isEmpty, fifo.nread, fifo.nwrite]
  constructor
  · exact fun same => ofNat_inj_of_close fifo.behind fifo.close same
  · intro same
    rw [same]

theorem Fifo.store (fifo : Fifo s) (room : ¬ s.pipe.isFull) (t : T) (c : Byte) :
    Fifo (s.store t c) := by
  rw [fifo.isFull_iff] at room
  have behind := fifo.behind
  have close := fifo.close
  have length : (s.store t c).stored.length = s.stored.length + 1 := by simp [State.store]
  have data : (s.store t c).pipe.data = Ring.write PIPESIZE s.pipe.data s.stored.length c := by
    show update s.pipe.data (s.pipe.nwrite.toNat % PIPESIZE) c = _
    rw [fifo.nwrite, toNat_ofNat_mod]
    rfl
  constructor
  case nread => exact fifo.nread
  case nwrite =>
    rw [length, ofNat_add, ← fifo.nwrite]
    rfl
  case behind =>
    rw [length]
    exact Nat.le_succ_of_le behind
  case close =>
    rw [length]
    show s.stored.length + 1 ≤ s.taken.length + PIPESIZE
    omega
  case front =>
    show _ = ((s.stored ++ [(t, c)]).map snd).take s.taken.length
    rw [map_append, take_append_of_le_length (by simpa using behind)]
    exact fifo.front
  case rest =>
    rw [length, data]
    show ((s.stored ++ [(t, c)]).map snd).drop s.taken.length = _
    rw [map_append, drop_append_of_le_length (by simpa using behind), fifo.rest]
    show _ = Ring.window PIPESIZE _ s.taken.length (s.stored.length + 1 - s.taken.length)
    have more : s.stored.length + 1 - s.taken.length = (s.stored.length - s.taken.length) + 1 := by
      omega
    rw [more, Ring.window_append]
    congr 1
    · -- the new byte's cell is none of those in use
      refine (Ring.window_congr fun k lower upper => ?_).symm
      exact Ring.read_write_above _ _ (by omega) (by omega)
    · have here : s.taken.length + (s.stored.length - s.taken.length) = s.stored.length := by omega
      rw [here]
      simp [Ring.window, Ring.read, Ring.write]

theorem Fifo.take (fifo : Fifo s) (some : ¬ s.pipe.isEmpty) (t : T) : Fifo (s.take t) := by
  rw [fifo.isEmpty_iff] at some
  have behind := fifo.behind
  have length : (s.take t).taken.length = s.taken.length + 1 := by simp [State.take]
  have byte : s.pipe.data (s.pipe.nread.toNat % PIPESIZE) =
      Ring.read PIPESIZE s.pipe.data s.taken.length := by
    rw [fifo.nread, toNat_ofNat_mod]
    rfl
  have more : s.stored.length - s.taken.length = (s.stored.length - (s.taken.length + 1)) + 1 := by
    omega
  have rest := fifo.rest
  rw [more, Ring.window_cons] at rest
  -- the byte in the cell is the next one stored
  have next : (s.stored.map snd)[s.taken.length]? =
      Option.some (Ring.read PIPESIZE s.pipe.data s.taken.length) := by
    rw [← head?_drop, rest, head?_cons]
  constructor
  case nread =>
    rw [length, ofNat_add, ← fifo.nread]
    rfl
  case nwrite => exact fifo.nwrite
  case behind =>
    rw [length]
    show s.taken.length + 1 ≤ s.stored.length
    omega
  case close =>
    rw [length]
    show s.stored.length ≤ s.taken.length + 1 + PIPESIZE
    have close := fifo.close
    omega
  case front =>
    rw [length, take_add_one]
    show (s.taken ++ [(t, _)]).map snd = List.take _ (s.stored.map snd) ++
      (s.stored.map snd)[s.taken.length]?.toList
    rw [map_append, fifo.front, next, byte]
    rfl
  case rest =>
    rw [length]
    show (s.stored.map snd).drop (s.taken.length + 1) = _
    rw [← tail_drop, rest]
    rfl

/-- The number of bytes in the pipe. -/
theorem Fifo.count (fifo : Fifo s) :
    (s.pipe.nwrite - s.pipe.nread).toNat + s.taken.length = s.stored.length := by
  have behind := fifo.behind
  have close := fifo.close
  change _ ≤ _ + 512 at close
  rw [fifo.nread, fifo.nwrite, toNat_sub, toNat_ofNat, toNat_ofNat]
  omega

theorem Fifo.congr {s' : State T} (fifo : Fifo s) (pipe : s'.pipe.data = s.pipe.data)
    (nread : s'.pipe.nread = s.pipe.nread) (nwrite : s'.pipe.nwrite = s.pipe.nwrite)
    (stored : s'.stored = s.stored) (taken : s'.taken = s.taken) : Fifo s' := by
  obtain ⟨h₁, h₂, h₃, h₄, h₅, h₆⟩ := fifo
  constructor <;> simpa only [pipe, nread, nwrite, stored, taken]

end Fifo

/-! ## Stretches of a call -/

section Stretch

variable {T : Type} [DecidableEq T] {s : State T} {t : T}

/-- The bytes of one call in a list. -/
def bytesOf (t : T) (l : List (T × Byte)) : List Byte := (l.filter (·.1 = t)).map snd

theorem bytesOf_append (l l' : List (T × Byte)) : bytesOf t (l ++ l') = bytesOf t l ++ bytesOf t l' := by
  simp [bytesOf]

/-- What a stretch of a call leaves behind: the ring in order, and both lists longer at most, by
bytes of this call. -/
structure Grows (t : T) (s s' : State T) : Prop where
  fifo : Fifo s'
  stage : s'.stage = s.stage
  stored : ∃ new : List Byte, s'.stored = s.stored ++ new.map (t, ·)
  taken : ∃ new : List Byte, s'.taken = s.taken ++ new.map (t, ·)

omit [DecidableEq T] in
theorem Grows.refl (fifo : Fifo s) : Grows t s s := ⟨fifo, rfl, ⟨[], by simp⟩, ⟨[], by simp⟩⟩

variable {s' : State T} {i : Nat}

omit [DecidableEq T] in
theorem Grows.trans {s'' : State T} (first : Grows t s s') (second : Grows t s' s'') :
    Grows t s s'' := by
  obtain ⟨x, stored⟩ := first.stored
  obtain ⟨x', stored'⟩ := second.stored
  obtain ⟨y, taken⟩ := first.taken
  obtain ⟨y', taken'⟩ := second.taken
  refine ⟨second.fifo, second.stage.trans first.stage, ⟨x ++ x', ?_⟩, ⟨y ++ y', ?_⟩⟩
  · rw [stored', stored, List.append_assoc, List.map_append]
  · rw [taken', taken, List.append_assoc, List.map_append]

/-- What another call has done stays as it is. -/
theorem Grows.others (grows : Grows t s s') {u : T} (other : u ≠ t) :
    bytesOf u s'.stored = bytesOf u s.stored ∧ bytesOf u s'.taken = bytesOf u s.taken := by
  have none : ∀ new : List Byte, bytesOf u (new.map (t, ·)) = [] := by
    intro new
    simp [bytesOf, Ne.symm other]
  obtain ⟨x, stored⟩ := grows.stored
  obtain ⟨y, taken⟩ := grows.taken
  rw [stored, taken, bytesOf_append, bytesOf_append, none, none, append_nil, append_nil]
  exact ⟨rfl, rfl⟩

omit [DecidableEq T] in
theorem grows_store (fifo : Fifo s) (room : ¬ s.pipe.isFull) (c : Byte) :
    Grows t s (s.store t c) :=
  ⟨fifo.store room t c, rfl, ⟨[c], rfl⟩, ⟨[], by simp [State.store]⟩⟩

omit [DecidableEq T] in
theorem grows_take (fifo : Fifo s) (some : ¬ s.pipe.isEmpty) : Grows t s (s.take t) :=
  ⟨fifo.take some t, rfl, ⟨[], by simp [State.take]⟩, ⟨[_], rfl⟩⟩

/-- The first `k` bytes from `addr` on. -/
def bytesAt (addr : Nat → Byte) (k : Nat) : List Byte := (range k).map addr

/-- How far the loop of `pipewrite` is when the call is at this stage, if it is there. -/
def Reached (n : Int) (k : Nat) : Stage → Prop
  | .ready => k = 0
  | .asleep i => k = i ∧ i < n.toNat
  | .returned r => k ≤ n.toNat ∧ (r = n ∧ k = n.toNat ∨ r = -1)

/-- A stretch of `pipewrite` stores the bytes of its call one after the other. -/
theorem pipewrite_grows (killed : Bool) (addr : Nat → Byte) (n : Int) {rest : Nat} (fifo : Fifo s)
    (left : i + rest = n.toNat) (sofar : bytesOf t s.stored = bytesAt addr i) :
    Grows t s (pipewrite t killed addr n rest i s).1 ∧
      (pipewrite t killed addr n rest i s).1.taken = s.taken ∧
      ∃ k, bytesOf t (pipewrite t killed addr n rest i s).1.stored = bytesAt addr k ∧
        Reached n k (pipewrite t killed addr n rest i s).2 := by
  induction rest generalizing s i with
  | zero => exact ⟨.refl fifo, rfl, i, sofar, by omega, .inl ⟨rfl, by omega⟩⟩
  | succ rest ih =>
    rw [pipewrite]
    split
    next full =>
      split
      · exact ⟨.refl fifo, rfl, i, sofar, by omega, .inr rfl⟩
      · exact ⟨.refl fifo, rfl, i, sofar, rfl, by omega⟩
    next room =>
      have first : Grows t s (s.store t (addr i)) := grows_store fifo room (addr i)
      have sofar' : bytesOf t (s.store t (addr i)).stored = bytesAt addr (i + 1) := by
        show bytesOf t (s.stored ++ [(t, addr i)]) = _
        rw [bytesOf_append, sofar, bytesAt, bytesAt, range_succ, map_append]
        simp [bytesOf]
      obtain ⟨grows, taken, told⟩ := ih first.fifo (by omega) sofar'
      exact ⟨first.trans grows, taken, told⟩

/-- A stretch of the loop of `piperead` takes as many bytes as it counts. -/
theorem pipereadLoop_grows {r : Nat} (fifo : Fifo s) (sofar : (bytesOf t s.taken).length = i) :
    Grows t s (pipereadLoop t r i s).1 ∧
      (pipereadLoop t r i s).1.stored = s.stored ∧
      (pipereadLoop t r i s).2 = .returned (bytesOf t (pipereadLoop t r i s).1.taken).length ∧
      (bytesOf t (pipereadLoop t r i s).1.taken).length ≤ i + r := by
  induction r generalizing s i with
  | zero => exact ⟨.refl fifo, rfl, by rw [pipereadLoop, sofar], sofar.le⟩
  | succ rest ih =>
    rw [pipereadLoop]
    split
    next => exact ⟨.refl fifo, rfl, by rw [sofar], by rw [sofar]; omega⟩
    next some =>
      have first : Grows t s (s.take t) := grows_take fifo some
      have sofar' : (bytesOf t (s.take t).taken).length = i + 1 := by
        show (bytesOf t (s.taken ++ [_])).length = _
        rw [bytesOf_append, length_append, sofar]
        simp [bytesOf]
      obtain ⟨grows, stored, counted, few⟩ := ih first.fifo sofar'
      exact ⟨first.trans grows, stored, counted, by omega⟩

/-- What a call has to show for itself at its stage. -/
def Told (s : State T) (t : T) : Call → Prop
  | .write addr n => bytesOf t s.taken = [] ∧
      ∃ k, bytesOf t s.stored = bytesAt addr k ∧ Reached n k (s.stage t)
  | .read n => bytesOf t s.stored = [] ∧
      match s.stage t with
      | .returned r => r = (bytesOf t s.taken).length ∧ r ≤ max n 0 ∨
          r = -1 ∧ bytesOf t s.taken = []
      | _ => bytesOf t s.taken = []

variable {calls : T → Call}

/-- A stretch of a call that is not done. -/
theorem Told.run (killed : Bool) (told : Told s t (calls t)) (fifo : Fifo s)
    (going : s.stage t = .asleep i ∨ s.stage t = .ready ∧ i = 0) :
    Grows t s ((calls t).run t killed i s).1 ∧
      Told (State.setStage t ((calls t).run t killed i s)) t (calls t) := by
  have stage : (State.setStage t ((calls t).run t killed i s)).stage t =
      ((calls t).run t killed i s).2 := update_self ..
  cases call : calls t with
  | write addr n =>
    rw [call] at told stage
    obtain ⟨none, k, sofar, reached⟩ := told
    have here : k = i ∧ i ≤ n.toNat := by
      rcases going with asleep | ⟨ready, rfl⟩
      · rw [asleep] at reached
        exact ⟨reached.1, reached.2.le⟩
      · rw [ready] at reached
        exact ⟨reached, Nat.zero_le _⟩
    rw [here.1] at sofar
    obtain ⟨grows, taken, k', sofar', reached'⟩ :=
      pipewrite_grows killed addr n fifo (Nat.add_sub_cancel' here.2) sofar
    refine ⟨grows, ?_, k', sofar', ?_⟩
    · rw [← none]
      exact congrArg (bytesOf t) taken
    · rw [stage]
      exact reached'
  | read n =>
    rw [call] at told stage
    obtain ⟨none, sofar⟩ := told
    have nothing : bytesOf t s.taken = [] := by
      rcases going with asleep | ⟨ready, -⟩
      · rwa [asleep] at sofar
      · rwa [ready] at sofar
    rw [Told, stage]
    simp only [Call.run, piperead]
    split
    · split
      · exact ⟨.refl fifo, none, .inr ⟨rfl, nothing⟩⟩
      · exact ⟨.refl fifo, none, nothing⟩
    · have none' : (bytesOf t s.taken).length = 0 := by rw [nothing]; rfl
      obtain ⟨grows, stored, counted, few⟩ := pipereadLoop_grows fifo none' (r := n.toNat)
      refine ⟨grows, (congrArg (bytesOf t) stored).trans none, ?_⟩
      rw [counted]
      exact .inl ⟨rfl, by omega⟩

theorem Told.congr {call : Call} (told : Told s t call)
    (stored : bytesOf t s'.stored = bytesOf t s.stored)
    (taken : bytesOf t s'.taken = bytesOf t s.taken) (stage : s'.stage t = s.stage t) :
    Told s' t call := by
  unfold Told
  rw [stored, taken, stage]
  exact told

end Stretch

/-! ## Runs -/

section Runs

variable {T : Type} [DecidableEq T] {calls : T → Call} {s s' : State T}

structure Inv (calls : T → Call) (s : State T) : Prop where
  fifo : Fifo s
  told : ∀ t, Told s t (calls t)

theorem Start.inv (initial : Start s) : Inv calls s := by
  obtain ⟨nread, nwrite, stage, stored, taken⟩ := initial
  constructor
  case fifo =>
    constructor
    case nread => rw [nread, taken]; rfl
    case nwrite => rw [nwrite, stored]; rfl
    all_goals simp [stored, taken]
  case told =>
    intro t
    unfold Told
    rw [stored, taken, stage]
    cases calls t with
    | write addr n => exact ⟨rfl, 0, rfl, rfl⟩
    | read n => exact ⟨rfl, rfl⟩

/-- What one step does: a call goes on, or an end of the pipe is closed. -/
theorem next_cases {e : Event T} (stepped : next calls s e = some s') :
    (∃ t killed i, (s.stage t = .asleep i ∨ s.stage t = .ready ∧ i = 0) ∧
      s' = State.setStage t ((calls t).run t killed i s)) ∨
      ∃ writable, s' = { s with pipe := s.pipe.close writable } := by
  cases e with
  | close writable =>
    cases stepped
    exact .inr ⟨writable, rfl⟩
  | go t killed =>
    simp only [next] at stepped
    split at stepped
    next ready =>
      cases stepped
      exact .inl ⟨t, killed, 0, .inr ⟨ready, rfl⟩, rfl⟩
    next i asleep =>
      cases stepped
      exact .inl ⟨t, killed, i, .inl asleep, rfl⟩
    next => cases stepped

theorem close_fields (p : Pipe) (writable : Bool) :
    (p.close writable).data = p.data ∧ (p.close writable).nread = p.nread ∧
      (p.close writable).nwrite = p.nwrite := by
  cases writable <;> exact ⟨rfl, rfl, rfl⟩

theorem Inv.next {e : Event T} (inv : Inv calls s) (stepped : next calls s e = some s') :
    Inv calls s' ∧ s.stored <+: s'.stored ∧ s.taken <+: s'.taken := by
  rcases next_cases stepped with ⟨t, killed, i, going, rfl⟩ | ⟨writable, rfl⟩
  · obtain ⟨grows, told⟩ := (inv.told t).run killed inv.fifo going
    obtain ⟨x, stored⟩ := grows.stored
    obtain ⟨y, taken⟩ := grows.taken
    refine ⟨⟨?_, ?_⟩, ⟨_, stored.symm⟩, ⟨_, taken.symm⟩⟩
    · exact grows.fifo.congr rfl rfl rfl rfl rfl
    · intro u
      by_cases same : u = t
      · rw [same]
        exact told
      · obtain ⟨storedU, takenU⟩ := grows.others same
        refine (inv.told u).congr storedU takenU ?_
        show update _ t _ u = _
        rw [update_of_ne same, grows.stage]
  · obtain ⟨data, nread, nwrite⟩ := close_fields s.pipe writable
    refine ⟨⟨inv.fifo.congr data nread nwrite rfl rfl, fun t => ?_⟩, prefix_refl _,
      prefix_refl _⟩
    exact (inv.told t).congr rfl rfl rfl

theorem reach_inv {ok : State T → Event T → Prop} (reached : (system calls).Reach ok s) :
    Inv calls s := by
  induction reached with
  | start initial => exact Start.inv initial
  | step before admitted stepped ih => exact (ih.next stepped).1

/-- **A pipe is a bounded FIFO**, for any number of calls and any interleaving of them. The counters
are never more than PIPESIZE apart, as `uint`s. The bytes read, in the order they were taken, are the
front of the bytes written, in the order they were stored, and the others are still in the pipe. The
bytes a `pipewrite` has stored are the first of its own, in its order, and all of them if it returned
`n`; a `piperead` has taken as many as it returned. Nothing that was stored or taken is undone. -/
theorem pipe_is_fifo (reached : (system calls).Reachable s) :
    (s.pipe.nwrite - s.pipe.nread).toNat ≤ PIPESIZE ∧
      s.taken.map snd <+: s.stored.map snd ∧
      (s.pipe.nwrite - s.pipe.nread).toNat + s.taken.length = s.stored.length ∧
      (∀ t addr n, calls t = .write addr n →
        bytesOf t s.stored <+: bytesAt addr n.toNat ∧
          (s.stage t = .returned n → bytesOf t s.stored = bytesAt addr n.toNat)) ∧
      (∀ t n, calls t = .read n → bytesOf t s.stored = [] ∧
        ∀ r : Nat, s.stage t = .returned r → (bytesOf t s.taken).length = r) ∧
      ∀ e s', next calls s e = some s' → s.stored <+: s'.stored ∧ s.taken <+: s'.taken := by
  have inv := reach_inv reached
  have count := inv.fifo.count
  have close := inv.fifo.close
  refine ⟨by omega, ?_, count, ?_, ?_, fun e s' stepped => (inv.next stepped).2⟩
  · rw [inv.fifo.front]
    exact take_prefix _ _
  · intro t addr n call
    have told := inv.told t
    rw [call] at told
    obtain ⟨-, k, sofar, reached⟩ := told
    have few : k ≤ n.toNat := by
      cases stage : s.stage t with
      | ready =>
        rw [stage] at reached
        exact reached.le.trans (Nat.zero_le _)
      | asleep i =>
        rw [stage] at reached
        exact reached.1.le.trans reached.2.le
      | returned r =>
        rw [stage] at reached
        exact reached.1
    rw [sofar]
    refine ⟨?_, fun done => ?_⟩
    · unfold bytesAt
      rw [← Nat.add_sub_cancel' few, range_add, map_append]
      exact prefix_append _ _
    · rw [done] at reached
      obtain ⟨-, ⟨-, all⟩ | failed⟩ := reached
      · rw [all]
      · have zero : k = n.toNat := by omega
        rw [zero]
  · intro t n call
    have told := inv.told t
    rw [call] at told
    refine ⟨told.1, fun r done => ?_⟩
    have counted := told.2
    rw [done] at counted
    rcases counted with ⟨same, -⟩ | ⟨failed, -⟩ <;> omega

end Runs

/-! ## A run -/

/-- A write of 520 bytes, a read of 20 and one of 600. -/
def threeCalls : Fin 3 → Call
  | 0 => .write (fun i => UInt8.ofNat i) 520
  | 1 => .read 20
  | 2 => .read 600

def freshPipe : State (Fin 3) := ⟨⟨fun _ => 0, 0, 0, true, true⟩, fun _ => .ready, [], []⟩

/-- The writer fills the pipe and sleeps, the first reader makes room, the writer ends, and the
second reader takes what there is. -/
@[irreducible] def afterThreeCalls (w r₁ r₂ : Fin 3) : State (Fin 3) :=
  ((system threeCalls).run freshPipe [.go w false, .go r₁ false, .go w false, .go r₂ false]).getD
    freshPipe

theorem pipe_is_fifo_threeCalls :
    bytesOf 0 (afterThreeCalls 0 1 2).stored = bytesAt (fun i => UInt8.ofNat i) 520 ∧
      (bytesOf 2 (afterThreeCalls 0 1 2).taken).length = 500 ∧
      (afterThreeCalls 0 1 2).taken.map snd <+: (afterThreeCalls 0 1 2).stored.map snd := by
  have fresh : Start freshPipe := ⟨rfl, rfl, fun _ => rfl, rfl, rfl⟩
  have reached : (system threeCalls).Reachable (afterThreeCalls 0 1 2) := by
    unfold afterThreeCalls
    apply System.Reach.run_getD (.start fresh) (System.admits_true _ _ _)
    decide +kernel
  have written : (afterThreeCalls 0 1 2).stage 0 = .returned 520 := by decide +kernel
  have read : (afterThreeCalls 0 1 2).stage 2 = .returned (500 : Nat) := by decide +kernel
  obtain ⟨-, front, -, writers, readers, -⟩ := pipe_is_fifo reached
  exact ⟨(writers 0 _ 520 rfl).2 written, (readers 2 600 rfl).2 500 read, front⟩

end Pipe

end Xv6
