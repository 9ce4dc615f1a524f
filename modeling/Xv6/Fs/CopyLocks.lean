/-
# Xv6.Fs.CopyLocks -- the inode locks of concurrent `fcopy` calls

`sys_fcopy` looks its two paths up, one directory lock at a time, and calls `filecopy`, which takes the
lock of the source and then that of the destination. At the end `iunlockput` gives the source back,
and its `iput` takes it once more, for the test of `nlink`, while the destination is still locked. So a
copy waits with one lock in its hands at two places: for the destination with the source, and for the
source with the destination.

The routines are written as the sequences of their lock operations. Reading and writing the files, and
the memory of the inodes, make no difference to them. `begin_op` lets in as many calls as an empty log
has room for.

Copies that are under way together are edges between their files. `copies_deadlock_iff`: they can end
up waiting for each other exactly if some of them make up a circle along which one, two or three of
them lead from their source to their destination. Four or more do not get past `begin_op` together.
-/
import Xv6.Lib.LockProgram
import Xv6.Fs.Disk

namespace Xv6.CopyLocks
open Lib Lib.LockProgram Finset Function
open Fs (LOGSIZE MAXOPBLOCKS)
set_option autoImplicit false
set_option linter.unusedSectionVars false

/-! ## The calls -/

section Routines

variable {I : Type}

def beginOp : List (Op I) := [.enter]

def endOp : List (Op I) := [.leave]

def ilock (ip : I) : List (Op I) := [.lock ip]

def iunlock (ip : I) : List (Op I) := [.unlock ip]

/-- `acquiresleep` and `releasesleep` around the test of `nlink`. -/
def iput (ip : I) : List (Op I) := [.lock ip, .unlock ip]

def iunlockput (ip : I) : List (Op I) := iunlock ip ++ iput ip

/-- The loop of `namex`, over the directories on the path. -/
def namei (dirs : List I) : List (Op I) := dirs.flatMap fun ip => ilock ip ++ iunlockput ip

def filecopy (src dest : I) : List (Op I) :=
  beginOp ++ ilock src ++ ilock dest ++ endOp ++ iunlockput src ++ iunlockput dest

/-- A call of `fcopy` on two files that exist: the directories on their paths, and the files. -/
structure Call (I : Type) where
  srcDirs : List I
  destDirs : List I
  src : I
  dest : I
  deriving DecidableEq, Repr

def sysFcopy [DecidableEq I] (call : Call I) : List (Op I) :=
  beginOp ++ namei call.srcDirs ++ namei call.destDirs ++ endOp ++
    -- a file is not copied to itself
    if call.src = call.dest then [] else filecopy call.src call.dest

end Routines

/-- The largest number of calls that `begin_op` lets in. -/
abbrev capacity : Nat := LOGSIZE / MAXOPBLOCKS

variable {P I : Type} [DecidableEq P] [DecidableEq I]

/-- Each process makes one call, or none. -/
def program (calls : P → Option (Call I)) (p : P) : List (Op I) :=
  match calls p with
  | none => []
  | some call => sysFcopy call

def machine (calls : P → Option (Call I)) : System (State P I) P := system capacity (program calls)

/-- A set of processes inside `filecopy`, each with an inode lock and waiting for one that another of
them has. -/
def Deadlocked (calls : P → Option (Call I)) (s : State P I) : Prop :=
  ∃ waiting, Stalled s waiting ∧ ∀ p ∈ waiting, ∃ call, calls p = some call ∧
    call.src ≠ call.dest ∧ s.todo p <:+ filecopy call.src call.dest

/-- The process copies from `x`. -/
def forward (calls : P → Option (Call I)) (p : P) (x : I) : Bool :=
  match calls p with
  | none => false
  | some call => decide (call.src = x)

/-- A circle of `k` copies: the one at place `i` is between the files `x i` and `x (i + 1)`, in one
direction or the other. Along the circle, between one and `capacity` of them are forward, the last one
among them. -/
structure Knot (calls : P → Option (Call I)) (k : Nat) (p : Nat → P) (x : Nat → I) : Prop where
  two : 2 ≤ k
  closed : x k = x 0
  procs : ∀ i < k, ∀ j < k, p i = p j → i = j
  files : ∀ i < k, ∀ j < k, x i = x j → i = j
  joins : ∀ i < k, ∃ call, calls (p i) = some call ∧
    (call.src = x i ∧ call.dest = x (i + 1) ∨ call.dest = x i ∧ call.src = x (i + 1))
  last : forward calls (p (k - 1)) (x (k - 1)) = true
  few : ((range k).filter fun i => forward calls (p i) (x i)).card ≤ capacity

/-! ## Where a copy waits with a lock -/

/-- With the source, for the destination. -/
def toDest (call : Call I) : List (Op I) :=
  ilock call.dest ++ endOp ++ iunlockput call.src ++ iunlockput call.dest

/-- With the destination, for the source: the `iput` of `iunlockput`. -/
def toSrc (call : Call I) : List (Op I) := iput call.src ++ iunlockput call.dest

theorem filecopy_eq (src dest : I) : filecopy src dest =
    [.enter, .lock src, .lock dest, .leave, .unlock src, .lock src, .unlock src, .unlock dest,
      .lock dest, .unlock dest] := rfl

theorem toDest_ne_toSrc (call : Call I) : toDest call ≠ toSrc call := fun same => by
  have lengths := congrArg List.length same
  simp [toDest, toSrc, ilock, endOp, iunlockput, iunlock, iput] at lengths

variable {call : Call I}

theorem waits_cases {todo : List (Op I)} {l held : I} {rest : List (Op I)}
    (inside : todo <:+ filecopy call.src call.dest) (wants : todo = .lock l :: rest)
    (owed : owes todo held = true) :
    todo = toDest call ∧ held = call.src ∧ l = call.dest ∨
      todo = toSrc call ∧ held = call.dest ∧ l = call.src := by
  rw [filecopy_eq] at inside
  simp only [List.suffix_cons_iff, List.suffix_nil] at inside
  subst wants
  -- the suffixes that start by taking a lock
  rcases inside with case | case | case | case | case | case | case | case | case | case | case
  all_goals simp only [List.cons.injEq, Op.lock.injEq, reduceCtorEq, false_and] at case
  · obtain ⟨rfl, rfl⟩ := case
    simp only [owes] at owed
    split at owed
    · cases owed
    · split at owed
      · cases owed
      · cases owed
  · obtain ⟨rfl, rfl⟩ := case
    simp only [owes] at owed
    left
    refine ⟨rfl, ?_, rfl⟩
    split at owed
    · cases owed
    · by_contra elsewhere
      simp [elsewhere] at owed
  · obtain ⟨rfl, rfl⟩ := case
    simp only [owes] at owed
    right
    refine ⟨rfl, ?_, rfl⟩
    split at owed
    · cases owed
    · by_contra elsewhere
      simp [elsewhere] at owed
  · obtain ⟨rfl, rfl⟩ := case
    simp only [owes] at owed
    split at owed
    · cases owed
    · cases owed

/-! ## The invariant -/

theorem namei_sound (dirs : List I) {rest : List (Op I)} (sound : Sound rest)
    (nothing : ∀ l, owes rest l = false) :
    Sound (namei dirs ++ rest) ∧ (∀ l, owes (namei dirs ++ rest) l = false) ∧
      owesGate (namei dirs ++ rest) = owesGate rest := by
  induction dirs with
  | nil => exact ⟨sound, nothing, rfl⟩
  | cons ip dirs ih =>
    obtain ⟨tail, none, gate⟩ := ih
    have unfolded : namei (ip :: dirs) ++ rest =
        .lock ip :: .unlock ip :: .lock ip :: .unlock ip :: (namei dirs ++ rest) := rfl
    rw [unfolded]
    refine ⟨?_, ?_, gate⟩
    · simp [Sound, owes, none, tail]
    · intro l
      simp [owes, none]

theorem sysFcopy_sound (call : Call I) :
    Sound (sysFcopy call) ∧ (∀ l, owes (sysFcopy call) l = false) ∧ owesGate (sysFcopy call) = false := by
  have copy : ∀ rest : List (Op I), rest = (if call.src = call.dest then [] else
      filecopy call.src call.dest) → Sound (.leave :: rest) ∧ ∀ l, owes rest l = false := by
    rintro rest rfl
    split
    · simp [Sound, owes, owesGate]
    · rename_i apart
      have apart' : call.dest ≠ call.src := Ne.symm apart
      rw [filecopy_eq]
      constructor
      · simp [Sound, owes, owesGate, apart, apart']
      · intro l
        simp only [owes]
        split <;> simp_all
  obtain ⟨sound, nothing⟩ := copy _ rfl
  obtain ⟨dest, none, gate⟩ := namei_sound call.destDirs sound nothing
  obtain ⟨src, none', gate'⟩ := namei_sound call.srcDirs dest none
  have unfolded : sysFcopy call = .enter :: (namei call.srcDirs ++ (namei call.destDirs ++ (.leave ::
      if call.src = call.dest then [] else filecopy call.src call.dest))) := by
    simp only [sysFcopy, beginOp, endOp, List.append_assoc, List.cons_append, List.nil_append]
  rw [unfolded]
  exact ⟨⟨gate'.trans gate, src⟩, none', rfl⟩

/-- What holds along a run of the calls. -/
structure Copies (calls : P → Option (Call I)) (s : State P I) : Prop where
  inv : Inv capacity s
  suffix : ∀ p, s.todo p <:+ program calls p
  /-- who has the source of a copy that waits for it again has taken it after the copy took its
  destination -/
  later : ∀ p call, calls p = some call → call.src ≠ call.dest → s.todo p = toSrc call →
    ∀ q, s.owner call.src = some q → s.since call.dest < s.since call.src

section Runs

variable {calls : P → Option (Call I)} {s s' : State P I} {p : P}

/-- The operation before `toSrc` gives the source back. -/
theorem before_toSrc {op : Op I} (called : calls p = some call) (apart : call.src ≠ call.dest)
    (suffix : op :: toSrc call <:+ program calls p) : op = .unlock call.src := by
  have copy : program calls p = (beginOp ++ namei call.srcDirs ++ namei call.destDirs ++ endOp ++
      (beginOp ++ ilock call.src ++ ilock call.dest ++ endOp)) ++ (.unlock call.src :: toSrc call) := by
    simp only [program, called, sysFcopy, if_neg apart, filecopy, toSrc, iunlockput, iunlock, iput,
      List.append_assoc, List.cons_append, List.nil_append]
  have suffix' : .unlock call.src :: toSrc call <:+ program calls p := ⟨_, copy.symm⟩
  have same := List.suffix_of_suffix_length_le suffix suffix' (by simp)
  have equal := same.eq_of_length (by simp)
  exact (List.cons.inj equal).1

theorem toSrc_owes (call : Call I) (apart : call.src ≠ call.dest) :
    owes (toSrc call) call.dest = true := by
  simp [toSrc, iput, iunlockput, iunlock, owes, Ne.symm apart]

theorem step_copies (copies : Copies calls s) (stepped : step capacity s p = some s') :
    Copies calls s' := by
  obtain ⟨op, rest, here, todo⟩ := step_todo stepped
  refine ⟨step_inv copies.inv stepped, ?_, ?_⟩
  · intro q
    by_cases same : q = p
    · subst same
      rw [todo, update_self]
      exact (List.suffix_cons op rest).trans (here ▸ copies.suffix q)
    · rw [todo, update_of_ne same]
      exact copies.suffix q
  · intro q call called apart there r owned
    by_cases same : q = p
    · -- the copy has just given the source back
      subst same
      rw [todo, update_self] at there
      subst there
      have op := before_toSrc called apart (here ▸ copies.suffix q)
      rw [step_unlock stepped (op ▸ here)] at owned
      cases owned
    · rw [todo, update_of_ne same] at there
      have dest : s.owner call.dest = some q := by
        rw [copies.inv.owner, there]
        exact toSrc_owes call apart
      have kept : s'.since call.dest = s.since call.dest := by
        rcases step_lock stepped call.dest with ⟨-, same⟩ | ⟨free, -⟩ | ⟨mine, -⟩
        · exact same
        · cases dest.symm.trans free
        · exact absurd (Option.some.inj (dest.symm.trans mine)) same
      rw [kept]
      rcases step_lock stepped call.src with ⟨sameOwner, sameTime⟩ | ⟨-, now⟩ | ⟨-, free⟩
      · rw [sameTime]
        exact copies.later q call called apart there r (sameOwner.symm.trans owned)
      · have old := copies.inv.since call.dest
        omega
      · cases owned.symm.trans free

theorem reach_copies (reached : (machine calls).Reachable s) : Copies calls s := by
  refine System.Reach.invariant ?_ ?_ reached
  · intro s initial
    refine ⟨start_inv ?_ ?_ ?_ initial, ?_, ?_⟩
    · intro p
      unfold program
      split
      · trivial
      · exact (sysFcopy_sound _).1
    · intro p l
      unfold program
      split
      · rfl
      · exact (sysFcopy_sound _).2.1 l
    · intro p
      unfold program
      split
      · rfl
      · exact (sysFcopy_sound _).2.2
    · intro p
      rw [initial.todo]
    · intro p call called apart there q owned
      rw [initial.owner] at owned
      cases owned
  · intro s p s' copies _ stepped
    exact step_copies copies stepped

end Runs

/-! ## A deadlock is a knot -/

section Circle

variable {calls : P → Option (Call I)} {s : State P I} {waiting : Set P} {p : P} {h l : I}

/-- The process has the lock `h`, and no other, and waits for `l`. -/
structure Waits (calls : P → Option (Call I)) (s : State P I) (p : P) (h l : I) : Prop where
  owner : s.owner h = some p
  only : ∀ x, s.owner x = some p → x = h
  next : s.owner l = some (s.blocker p)
  place : ∃ call, calls p = some call ∧ call.src ≠ call.dest ∧
    (s.todo p = toDest call ∧ h = call.src ∧ l = call.dest ∨
      s.todo p = toSrc call ∧ h = call.dest ∧ l = call.src)

theorem exists_waits (copies : Copies calls s) (stalled : Stalled s waiting)
    (inside : ∀ p ∈ waiting, ∃ call, calls p = some call ∧ call.src ≠ call.dest ∧
      s.todo p <:+ filecopy call.src call.dest) (mem : p ∈ waiting) :
    ∃ h l, Waits calls s p h l := by
  obtain ⟨call, called, apart, suffix⟩ := inside p mem
  obtain ⟨-, -, l, wants, owned⟩ := stalled.blocker mem
  obtain ⟨⟨h, mine⟩, -⟩ := stalled.2 p mem
  have first : ∃ rest, s.todo p = .lock l :: rest := by
    unfold State.wants at wants
    split at wants
    · rename_i rest here
      cases wants
      exact ⟨rest, here⟩
    · cases wants
  obtain ⟨rest, here⟩ := first
  have places := fun x (owned : s.owner x = some p) =>
    waits_cases suffix here ((copies.inv.owner x p).mp owned)
  refine ⟨h, l, mine, ?_, owned, call, called, apart, places h mine⟩
  -- both places name the one lock that the process has there
  intro x owned
  rcases places h mine with ⟨-, first, wanted⟩ | ⟨-, first, wanted⟩
  · rcases places x owned with ⟨-, second, -⟩ | ⟨-, -, wanted'⟩
    · exact second.trans first.symm
    · exact absurd (wanted'.symm.trans wanted) apart
  · rcases places x owned with ⟨-, -, wanted'⟩ | ⟨-, second, -⟩
    · exact absurd (wanted.symm.trans wanted') apart
    · exact second.trans first.symm

/-- Not all copies of a circle wait for their source: each would have taken its destination after the
one before it. -/
theorem exists_toDest (copies : Copies calls s) {q : Nat → P} {x : Nat → I} {k : Nat} (some' : 0 < k)
    (waits : ∀ i, Waits calls s (q i) (x i) (x (i + 1))) (closed : x k = x 0) :
    ∃ i call, calls (q i) = some call ∧ s.todo (q i) = toDest call := by
  by_contra none
  have grows : ∀ i, s.since (x i) < s.since (x (i + 1)) := by
    intro i
    obtain ⟨call, called, apart, ⟨there, -, -⟩ | ⟨there, dest, src⟩⟩ := (waits i).place
    · exact absurd ⟨i, call, called, there⟩ none
    · rw [dest, src]
      exact copies.later (q i) call called apart there _ (src ▸ (waits i).next)
  have far : ∀ n, s.since (x 0) + n ≤ s.since (x n) := by
    intro n
    induction n with
    | zero => exact le_rfl
    | succ n ih =>
      have := grows n
      omega
  have back := far k
  rw [closed] at back
  omega

/-- **A deadlock is a knot.** -/
theorem knot_of_deadlocked (copies : Copies calls s) (deadlocked : Deadlocked calls s) :
    ∃ k p x, Knot calls k p x := by
  obtain ⟨waiting, stalled, inside⟩ := deadlocked
  obtain ⟨q, mem, periodic, two⟩ := exists_circle copies.inv stalled
  have exists_chain : ∀ q ∈ waiting, ∃ x : Nat → I,
      ∀ i, Waits calls s (s.blocker^[i] q) (x i) (x (i + 1)) := by
    intro q mem
    choose x y waits using fun i => exists_waits copies stalled inside (stalled.iterate mem i)
    refine ⟨x, fun i => ?_⟩
    have next : y i = x (i + 1) := by
      refine (waits (i + 1)).only (y i) ?_
      rw [(waits i).next, iterate_succ_apply']
    exact next ▸ waits i
  have positive : 0 < minimalPeriod s.blocker q := by omega
  obtain ⟨x, waits⟩ := exists_chain q mem
  have closed : x (minimalPeriod s.blocker q) = x 0 := by
    refine (waits 0).only _ ?_
    rw [(waits _).owner, iterate_minimalPeriod]
    rfl
  obtain ⟨j, call, called, there⟩ := exists_toDest copies positive waits closed
  -- the circle from behind a copy that waits for its destination
  have period := minimalPeriod_apply_iterate periodic (j + 1)
  obtain ⟨y, waits'⟩ := exists_chain _ (stalled.iterate mem (j + 1))
  generalize size : minimalPeriod s.blocker q = k at *
  have procs : ∀ i < k, ∀ i' < k, s.blocker^[i] (s.blocker^[j + 1] q) =
      s.blocker^[i'] (s.blocker^[j + 1] q) → i = i' := by
    intro i below i' below' same
    rw [← period] at below below'
    exact iterate_injOn_Iio_minimalPeriod below below' same
  have lastProc : s.blocker^[k - 1] (s.blocker^[j + 1] q) = s.blocker^[j] q := by
    have around : k - 1 + (j + 1) = j + k := by omega
    rw [← iterate_add_apply, around, ← size, iterate_add_minimalPeriod_eq]
  refine ⟨k, fun i => s.blocker^[i] (s.blocker^[j + 1] q), y, two, ?_, procs, ?_, ?_, ?_, ?_⟩
  · refine (waits' 0).only _ ?_
    rw [(waits' k).owner, ← period, iterate_minimalPeriod]
    rfl
  · intro i below i' below' same
    refine procs i below i' below' (Option.some.inj ?_)
    rw [← (waits' i).owner, ← (waits' i').owner, same]
  · intro i _
    obtain ⟨call, called, -, ⟨-, src, dest⟩ | ⟨-, dest, src⟩⟩ := (waits' i).place
    · exact ⟨call, called, .inl ⟨src.symm, dest.symm⟩⟩
    · exact ⟨call, called, .inr ⟨dest.symm, src.symm⟩⟩
  · obtain ⟨call', called', -, ⟨-, src, -⟩ | ⟨there', -, -⟩⟩ := (waits' (k - 1)).place
    · simp only [forward, called', src, decide_true]
    · rw [lastProc] at called' there'
      cases called.symm.trans called'
      exact absurd (there.symm.trans there') (toDest_ne_toSrc call)
  · refine le_trans (card_le_card_of_injOn (fun i => s.blocker^[i] (s.blocker^[j + 1] q)) ?_ ?_)
      copies.inv.full
    · intro i mem
      obtain ⟨-, fwd⟩ := mem_filter.mp mem
      obtain ⟨call, called, apart, ⟨there, -, -⟩ | ⟨-, dest, -⟩⟩ := (waits' i).place
      · refine (copies.inv.inside _).mpr ?_
        rw [there]
        rfl
      · simp only [forward, called, decide_eq_true_eq] at fwd
        exact absurd (fwd.trans dest) apart
    · intro i mem i' mem' same
      have below := mem_range.mp (mem_filter.mp mem).1
      have below' := mem_range.mp (mem_filter.mp mem').1
      exact procs i below i' below' same

end Circle

/-! ## A knot can be tied -/

section Tie

variable {calls : P → Option (Call I)} {s : State P I} {q : P} {l : I} {rest : List (Op I)}

section

variable (reached : (machine calls).Reachable s)
include reached

/-- A run that goes on with one operation of `q`. -/
theorem reach_enter (here : s.todo q = .enter :: rest) (room : s.inside.card < capacity) :
    ∃ s', (machine calls).Reachable s' ∧ s'.todo = update s.todo q rest ∧
      s'.owner = s.owner ∧ s'.inside = insert q s.inside := by
  have stepped : step capacity s q =
      some { s with todo := update s.todo q rest, inside := insert q s.inside } := by
    simp only [step, here, if_pos room]
  exact ⟨_, reached.step trivial stepped, rfl, rfl, rfl⟩

theorem reach_leave (here : s.todo q = .leave :: rest) :
    ∃ s', (machine calls).Reachable s' ∧ s'.todo = update s.todo q rest ∧
      s'.owner = s.owner ∧ s'.inside = s.inside.erase q := by
  have stepped : step capacity s q =
      some { s with todo := update s.todo q rest, inside := s.inside.erase q } := by
    simp only [step, here]
  exact ⟨_, reached.step trivial stepped, rfl, rfl, rfl⟩

theorem reach_lock (here : s.todo q = .lock l :: rest) (free : s.owner l = none) :
    ∃ s', (machine calls).Reachable s' ∧ s'.todo = update s.todo q rest ∧
      s'.owner = update s.owner l (some q) ∧ s'.inside = s.inside := by
  have stepped : step capacity s q = some { s with
      todo := update s.todo q rest
      owner := update s.owner l (some q)
      clock := s.clock + 1
      since := update s.since l (s.clock + 1) } := by
    simp only [step, here, if_pos free]
  exact ⟨_, reached.step trivial stepped, rfl, rfl, rfl⟩

theorem reach_unlock (here : s.todo q = .unlock l :: rest) (mine : s.owner l = some q) :
    ∃ s', (machine calls).Reachable s' ∧ s'.todo = update s.todo q rest ∧
      s'.owner = update s.owner l none ∧ s'.inside = s.inside := by
  have stepped : step capacity s q = some { s with
      todo := update s.todo q rest
      owner := update s.owner l none } := by
    simp only [step, here, if_pos mine]
  exact ⟨_, reached.step trivial stepped, rfl, rfl, rfl⟩

/-- A lock that is free is taken and given back at once. -/
theorem reach_touch (here : s.todo q = .lock l :: .unlock l :: rest) (free : s.owner l = none) :
    ∃ s', (machine calls).Reachable s' ∧ s'.todo = update s.todo q rest ∧
      s'.owner = s.owner ∧ s'.inside = s.inside := by
  obtain ⟨t, reached, todo, owner, inside⟩ := reach_lock reached here free
  obtain ⟨s', reached, todo', owner', inside'⟩ :=
    reach_unlock reached (by rw [todo, update_self]) (by rw [owner, update_self])
  refine ⟨s', reached, ?_, ?_, inside'.trans inside⟩
  · rw [todo', todo, update_idem]
  · rw [owner', owner, update_idem, ← free, update_eq_self]

end

theorem reach_namei (dirs : List I) (reached : (machine calls).Reachable s)
    (here : s.todo q = namei dirs ++ rest) (free : ∀ l, s.owner l = none) :
    ∃ s', (machine calls).Reachable s' ∧ s'.todo = update s.todo q rest ∧
      s'.owner = s.owner ∧ s'.inside = s.inside := by
  induction dirs generalizing s with
  | nil => exact ⟨s, reached, by rw [← show s.todo q = rest from here, update_eq_self], rfl, rfl⟩
  | cons ip dirs ih =>
    have here : s.todo q =
        .lock ip :: .unlock ip :: .lock ip :: .unlock ip :: (namei dirs ++ rest) := here
    obtain ⟨t, reached, todo, owner, inside⟩ := reach_touch reached here (free ip)
    obtain ⟨t', reached, todo', owner', inside'⟩ :=
      reach_touch reached (by rw [todo, update_self]) (owner ▸ free ip)
    obtain ⟨s', reached, todo'', owner'', inside''⟩ := ih reached
      (by rw [todo', update_self]) (by rw [owner', owner]; exact free)
    refine ⟨s', reached, ?_, owner''.trans (owner'.trans owner), inside''.trans (inside'.trans inside)⟩
    rw [todo'', todo', todo, update_idem, update_idem]

/-- With all locks free and nobody inside, a call looks its paths up and comes to `filecopy`. -/
theorem reach_filecopy (reached : (machine calls).Reachable s) (here : s.todo q = sysFcopy call)
    (apart : call.src ≠ call.dest) (free : ∀ l, s.owner l = none) (empty : s.inside = ∅) :
    ∃ s', (machine calls).Reachable s' ∧
      s'.todo = update s.todo q (filecopy call.src call.dest) ∧
      s'.owner = s.owner ∧ s'.inside = ∅ := by
  have here : s.todo q = .enter :: (namei call.srcDirs ++ (namei call.destDirs ++ (.leave ::
      filecopy call.src call.dest))) := by
    simp only [here, sysFcopy, if_neg apart, beginOp, endOp, List.append_assoc, List.cons_append,
      List.nil_append]
  obtain ⟨a, reached, todoA, ownerA, insideA⟩ := reach_enter reached here (by rw [empty, card_empty]; decide)
  obtain ⟨b, reached, todoB, ownerB, insideB⟩ := reach_namei call.srcDirs reached
    (by rw [todoA, update_self]) (by rw [ownerA]; exact free)
  obtain ⟨c, reached, todoC, ownerC, insideC⟩ := reach_namei call.destDirs reached
    (by rw [todoB, update_self]) (by rw [ownerB, ownerA]; exact free)
  obtain ⟨d, reached, todoD, ownerD, insideD⟩ := reach_leave reached
    (by rw [todoC, update_self])
  refine ⟨d, reached, ?_, ?_, ?_⟩
  · rw [todoD, todoC, todoB, todoA]
    simp only [update_idem]
  · rw [ownerD, ownerC, ownerB, ownerA]
  · rw [insideD, insideC, insideB, insideA, empty]
    simp

variable {k : Nat} {p : Nat → P} {x : Nat → I}

theorem Knot.files_ne (knot : Knot calls k p x) {i : Nat} (below : i < k) : x i ≠ x (i + 1) := by
  intro same
  have two := knot.two
  by_cases last : i + 1 = k
  · rw [last, knot.closed] at same
    have := knot.files i below 0 (by omega) same
    omega
  · have := knot.files i below (i + 1) (by omega) same
    omega

/-- The first `n` processes of the knot have come to `filecopy`. -/
theorem Knot.reach_copies (knot : Knot calls k p x) (n : Nat) (few : n ≤ k) :
    ∃ s, (machine calls).Reachable s ∧ (∀ l, s.owner l = none) ∧ s.inside = ∅ ∧
      (∀ i < n, ∀ call, calls (p i) = some call → s.todo (p i) = filecopy call.src call.dest) ∧
      ∀ i, n ≤ i → i < k → s.todo (p i) = program calls (p i) := by
  induction n with
  | zero =>
    refine ⟨⟨program calls, fun _ => none, ∅, 0, fun _ => 0⟩, .start ⟨rfl, fun _ => rfl, rfl, ?_⟩,
      fun _ => rfl, rfl, by simp, fun _ _ _ => rfl⟩
    exact fun _ => le_rfl
  | succ n ih =>
    obtain ⟨s, reached, free, empty, done, left⟩ := ih (by omega)
    obtain ⟨call, called, join⟩ := knot.joins n few
    have apart : call.src ≠ call.dest := by
      have ne := knot.files_ne few
      rcases join with ⟨src, dest⟩ | ⟨dest, src⟩
      · rwa [src, dest]
      · rw [src, dest]
        exact ne.symm
    have here : s.todo (p n) = sysFcopy call := by
      rw [left n le_rfl few, program, called]
    obtain ⟨s', reached, todo, owner, empty⟩ := reach_filecopy reached here apart free empty
    have others : ∀ i < k, i ≠ n → s'.todo (p i) = s.todo (p i) := by
      intro i below other
      rw [todo, update_of_ne fun same => other (knot.procs i below n few same)]
    refine ⟨s', reached, by rw [owner]; exact free, empty, ?_, ?_⟩
    · intro i below call' called'
      by_cases same : i = n
      · subst same
        cases called.symm.trans called'
        rw [todo, update_self]
      · rw [others i (by omega) same]
        exact done i (by omega) call' called'
    · intro i above below
      rw [others i below (by omega)]
      exact left i (by omega) below

/-- Where a process of the knot ends up. -/
def Knot.resting (calls : P → Option (Call I)) (q : P) (y : I) (call : Call I) : List (Op I) :=
  if forward calls q y then toDest call else toSrc call

/-- The first `n` processes of the knot hold their files and wait for the next ones. -/
structure Knot.Tied (calls : P → Option (Call I)) (k : Nat) (p : Nat → P) (x : Nat → I) (n : Nat)
    (s : State P I) : Prop where
  reached : (machine calls).Reachable s
  held : ∀ i < n, s.owner (x i) = some (p i)
  free : ∀ l, (∀ i < n, l ≠ x i) → s.owner l = none
  inside : s.inside = ((range n).filter fun i => forward calls (p i) (x i)).image p
  tied : ∀ i < n, ∀ call, calls (p i) = some call →
    s.todo (p i) = Knot.resting calls (p i) (x i) call
  left : ∀ i, n ≤ i → i < k → ∀ call, calls (p i) = some call →
    s.todo (p i) = filecopy call.src call.dest

variable {n : Nat}

section

variable (knot : Knot calls k p x) (tied : Knot.Tied calls k p x n s)
include knot tied

/-- There is room behind `begin_op` for one more. -/
theorem Knot.Tied.room (below : n < k) : s.inside.card < capacity := by
  refine lt_of_lt_of_le ?_ knot.few
  rw [tied.inside]
  refine lt_of_le_of_lt card_image_le (card_lt_card ?_)
  refine ⟨?_, ?_⟩
  · intro i mem
    obtain ⟨inside, fwd⟩ := mem_filter.mp mem
    have := mem_range.mp inside
    exact mem_filter.mpr ⟨mem_range.mpr (by omega), fwd⟩
  · intro subset
    have last := subset (mem_filter.mpr ⟨mem_range.mpr (by omega), knot.last⟩)
    have := mem_range.mp (mem_filter.mp last).1
    omega

/-- The next process has come to its place. -/
theorem Knot.Tied.extend {s' : State P I} (below : n < k) (called : calls (p n) = some call)
    (reached : (machine calls).Reachable s') (mine : s'.owner (x n) = some (p n))
    (owner : ∀ l, l ≠ x n → s'.owner l = s.owner l)
    (inside : s'.inside = if forward calls (p n) (x n) then insert (p n) s.inside else s.inside)
    (todo : s'.todo = update s.todo (p n) (Knot.resting calls (p n) (x n) call)) :
    Knot.Tied calls k p x (n + 1) s' := by
  have others : ∀ i < k, i ≠ n → s'.todo (p i) = s.todo (p i) := by
    intro i below' other
    rw [todo, update_of_ne fun same => other (knot.procs i below' n below same)]
  refine ⟨reached, ?_, ?_, ?_, ?_, ?_⟩
  · intro i inFront
    by_cases same : i = n
    · rw [same]
      exact mine
    · rw [owner (x i) fun equal => same (knot.files i (by omega) n below equal)]
      exact tied.held i (by omega)
  · intro l elsewhere
    rw [owner l (elsewhere n (by omega))]
    exact tied.free l fun i inFront => elsewhere i (by omega)
  · rw [inside, tied.inside, range_add_one, filter_insert]
    split
    · rw [image_insert]
    · rfl
  · intro i inFront call' called'
    by_cases same : i = n
    · subst same
      cases called.symm.trans called'
      rw [todo, update_self]
    · rw [others i (by omega) same]
      exact tied.tied i (by omega) call' called'
  · intro i above below' call' called'
    rw [others i below' (by omega)]
    exact tied.left i (by omega) below' call' called'

theorem Knot.Tied.next (below : n < k) : ∃ s', Knot.Tied calls k p x (n + 1) s' := by
  obtain ⟨call, called, join⟩ := knot.joins n below
  have ne := knot.files_ne below
  have room := tied.room knot below
  have here : s.todo (p n) = .enter :: .lock call.src :: .lock call.dest :: .leave ::
      .unlock call.src :: toSrc call := tied.left n le_rfl below call called
  have mine : s.owner (x n) = none := by
    refine tied.free (x n) fun i inFront same => ?_
    have := knot.files n below i (by omega) same
    omega
  obtain ⟨a, reached, todoA, ownerA, insideA⟩ := reach_enter tied.reached here room
  rcases join with ⟨src, dest⟩ | ⟨dest, src⟩
  · -- it takes its source and waits for its destination
    have fwd : forward calls (p n) (x n) = true := by simp only [forward, called, src, decide_true]
    obtain ⟨b, reached, todoB, ownerB, insideB⟩ := reach_lock reached
      (by rw [todoA, update_self]) (by rw [ownerA, src]; exact mine)
    refine ⟨b, tied.extend knot below called reached ?_ ?_ ?_ ?_⟩
    · rw [ownerB, src, update_self]
    · intro l other
      rw [ownerB, src, update_of_ne other, ownerA]
    · rw [insideB, insideA, if_pos fwd]
    · rw [todoB, todoA, update_idem, Knot.resting, if_pos fwd]
      rfl
  · -- it takes both and gives the source back
    have back : ¬ forward calls (p n) (x n) = true := by
      simp only [forward, called, src, decide_eq_true_eq]
      exact ne.symm
    have notLast : n + 1 < k := by
      by_contra last
      have : n = k - 1 := by omega
      exact back (this ▸ knot.last)
    have free : s.owner call.src = none := by
      rw [src]
      refine tied.free _ fun i inFront same => ?_
      have := knot.files (n + 1) notLast i (by omega) same
      omega
    have outside : p n ∉ s.inside := by
      rw [tied.inside]
      intro mem
      obtain ⟨i, inFront, same⟩ := mem_image.mp mem
      have := mem_range.mp (mem_filter.mp inFront).1
      have := knot.procs i (by omega) n below same
      omega
    have apart : call.dest ≠ call.src := by rwa [dest, src]
    obtain ⟨b, reached, todoB, ownerB, insideB⟩ := reach_lock reached
      (by rw [todoA, update_self]) (by rw [ownerA]; exact free)
    obtain ⟨c, reached, todoC, ownerC, insideC⟩ := reach_lock reached
      (by rw [todoB, update_self])
      (by rw [ownerB, update_of_ne apart, ownerA, dest]; exact mine)
    obtain ⟨d, reached, todoD, ownerD, insideD⟩ := reach_leave reached
      (by rw [todoC, update_self])
    obtain ⟨e, reached, todoE, ownerE, insideE⟩ := reach_unlock reached
      (by rw [todoD, update_self])
      (by rw [ownerD, ownerC, update_of_ne apart.symm, ownerB, update_self])
    refine ⟨e, tied.extend knot below called reached ?_ ?_ ?_ ?_⟩
    · rw [ownerE, ← dest, update_of_ne apart, ownerD, ownerC, update_self]
    · intro l other
      rw [ownerE, ownerD, ownerC, ownerB, ownerA, dest]
      by_cases same : l = call.src
      · rw [same, update_self, free]
      · rw [update_of_ne same, update_of_ne other, update_of_ne same]
    · rw [insideE, insideD, insideC, insideB, insideA, if_neg back, erase_insert outside]
    · rw [todoE, todoD, todoC, todoB, todoA, Knot.resting, if_neg back]
      simp only [update_idem]

/-- At its place, a process is inside `filecopy` and waits for the next file. -/
theorem Knot.Tied.waits {i : Nat} (inFront : i < n) (below : i < k) :
    s.wants (p i) = some (x (i + 1)) ∧ ∃ call, calls (p i) = some call ∧ call.src ≠ call.dest ∧
      s.todo (p i) <:+ filecopy call.src call.dest := by
  obtain ⟨call, called, join⟩ := knot.joins i below
  have ne := knot.files_ne below
  have there := tied.tied i inFront call called
  unfold Knot.resting at there
  rcases join with ⟨src, dest⟩ | ⟨dest, src⟩
  · rw [if_pos (by simp only [forward, called, src, decide_true])] at there
    refine ⟨?_, call, called, by rwa [src, dest], ?_⟩
    · rw [State.wants, there, ← dest]
      rfl
    · rw [there]
      exact ⟨beginOp ++ ilock call.src, by simp [filecopy, toDest]⟩
  · have back : ¬ forward calls (p i) (x i) = true := by
      simp only [forward, called, src, decide_eq_true_eq]
      exact ne.symm
    rw [if_neg back] at there
    refine ⟨?_, call, called, by rw [src, dest]; exact ne.symm, ?_⟩
    · rw [State.wants, there, ← src]
      rfl
    · rw [there]
      exact ⟨beginOp ++ ilock call.src ++ ilock call.dest ++ endOp ++ iunlock call.src,
        by simp [filecopy, toSrc, iunlockput]⟩

end

/-- **A knot can be tied.** -/
theorem Knot.deadlock (knot : Knot calls k p x) :
    ∃ s, (machine calls).Reachable s ∧ Deadlocked calls s := by
  have all : ∀ n ≤ k, ∃ s, Knot.Tied calls k p x n s := by
    intro n few
    induction n with
    | zero =>
      obtain ⟨s, reached, free, empty, done, -⟩ := knot.reach_copies k le_rfl
      exact ⟨s, reached, by simp, fun l _ => free l, by simp [empty], by simp,
        fun i _ below => done i below⟩
    | succ n ih =>
      obtain ⟨s, tied⟩ := ih (by omega)
      exact tied.next knot few
  obtain ⟨s, tied⟩ := all k le_rfl
  have two := knot.two
  refine ⟨s, tied.reached, {q | ∃ i < k, q = p i}, ⟨⟨p 0, 0, by omega, rfl⟩, ?_⟩, ?_⟩
  · rintro q ⟨i, below, rfl⟩
    have wants := (tied.waits knot below below).1
    refine ⟨⟨x i, tied.held i below⟩, x (i + 1), ?_⟩
    by_cases last : i + 1 = k
    · rw [last, knot.closed] at wants ⊢
      refine ⟨p 0, wants, tied.held 0 (by omega), ⟨0, by omega, rfl⟩, fun same => ?_⟩
      have := knot.procs 0 (by omega) i below same
      omega
    · refine ⟨p (i + 1), wants, tied.held (i + 1) (by omega), ⟨i + 1, by omega, rfl⟩, fun same => ?_⟩
      have := knot.procs (i + 1) (by omega) i below same
      omega
  · rintro q ⟨i, below, rfl⟩
    exact (tied.waits knot below below).2

end Tie

/-! ## The condition -/

/-- **When concurrent copies can deadlock.** For any calls of `fcopy` on existing files, by any number
of processes: no state is reached in which some of them wait for each other inside `filecopy`, each with
an inode lock, exactly if no part of the calls is a knot. -/
theorem copies_deadlock_iff (calls : P → Option (Call I)) :
    (∀ s, (machine calls).Reachable s → ¬ Deadlocked calls s) ↔ ¬ ∃ k p x, Knot calls k p x := by
  constructor
  · rintro safe ⟨k, p, x, knot⟩
    obtain ⟨s, reached, deadlocked⟩ := knot.deadlock
    exact safe s reached deadlocked
  · intro none s reached deadlocked
    exact none (knot_of_deadlocked (reach_copies reached) deadlocked)

/-- Process 0 copies file 10 to file 20, and process 1 copies file 20 to file 10; both paths start at
the root, inode 1. -/
def crossing : Fin 2 → Option (Call Nat)
  | 0 => some ⟨[1], [1], 10, 20⟩
  | 1 => some ⟨[1], [1], 20, 10⟩

theorem crossing_deadlock : ∃ s, (machine crossing).Reachable s ∧ Deadlocked crossing s := by
  have knot : Knot crossing 2 (fun i => if i = 0 then 0 else 1) (fun i => if i = 1 then 20 else 10) := by
    refine ⟨le_rfl, rfl, by decide, by decide, ?_, by decide, by decide⟩
    intro i below
    interval_cases i
    · exact ⟨_, rfl, .inl ⟨rfl, rfl⟩⟩
    · exact ⟨_, rfl, .inl ⟨rfl, rfl⟩⟩
  exact knot.deadlock

-- two copies of file 10 to file 20: the first holds the destination in its `iput`
example : ∃ s, (machine fun _ : Fin 2 => some (⟨[1], [1], 10, 20⟩ : Call Nat)).Reachable s ∧
    Deadlocked (fun _ => some ⟨[1], [1], 10, 20⟩) s := by
  have knot : Knot (fun _ : Fin 2 => some (⟨[1], [1], 10, 20⟩ : Call Nat)) 2
      (fun i => if i = 0 then 0 else 1) (fun i => if i = 1 then 10 else 20) := by
    refine ⟨le_rfl, rfl, by decide, by decide, ?_, by decide, by decide⟩
    intro i below
    interval_cases i
    · exact ⟨_, rfl, .inr ⟨rfl, rfl⟩⟩
    · exact ⟨_, rfl, .inl ⟨rfl, rfl⟩⟩
  exact knot.deadlock

end Xv6.CopyLocks
