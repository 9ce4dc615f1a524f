/-
# Xv6.Fs.Fcopy -- fcopy leaves the file system out of balance

A system call should leave `log.outstanding`, the reference counts and the locks of the inodes as it
found them, and put inodes and log blocks only inside a transaction of its own. `fcopy` does none of
this once it has its two paths (`fcopy_balanced_iff`):

* the source does not exist: it returns without `endOp`;
* source and destination are one inode: the two references `namei` gave are never put back;
* the destination has to be made: a failing `create` ends in the panic of `iunlock(0)`; after one that
  succeeds, the transaction is left open, and `filecopy` opens and closes another;
* the destination exists: `filecopy` ends its transaction first and puts the inodes after it.
-/
import Xv6.Fs.Balance

namespace Xv6.Fs
open Lib
set_option autoImplicit false

/-! ## The property -/

/-- A system call begins without a transaction of its own. -/
def State.enter (s : State) : State := { s with own := 0, stray := false }

/-- The call gave back what it took, and did what belongs into a transaction in one of its own. -/
structure Even (s s' : State) : Prop where
  outstanding : s'.log.outstanding = s.log.outstanding
  refs : ∀ i, (s'.icache i).ref = (s.icache i).ref
  locks : ∀ i, (s'.icache i).lock.locked = (s.icache i).lock.locked
  inside : s'.stray = false

/-- The call returns, and the balance is even. -/
def FcopyBalanced (u : User) (s : State) : Prop :=
  ∃ fuel r s', sysFcopy fuel u s.enter = .ok (r, s') ∧ Even s s'

/-- One of the two arguments is no string of the process. -/
def Rejected (u : User) : Prop :=
  u.argstr 0 = .ok none ∨ ∃ path, u.argstr 0 = .ok (some path) ∧ u.argstr 1 = .ok none

/-! ## What the parts add -/

section Parts

variable {fuel : Nat} {src dest i : Slot} {s s' : State} {r : Int}

theorem setSize_keeps {size : Nat} : Keeps Moved (setSize i size) := setInode_keeps fun _ => rfl

theorem copyLoop_keeps (fuel offset : Nat) : Keeps Moved (copyLoop src dest fuel offset) := by
  induction fuel generalizing offset with
  | zero => exact stop_adds
  | succ fuel ih =>
    refine .bind readi_keeps fun read => ?_
    split
    · exact .pure
    · refine .bind .get fun s => .bind setSize_keeps fun _ => ?_
      exact .bind writei_keeps fun _ => .bind iupdate_keeps fun _ => ih _

theorem copyTransaction_keeps : Keeps Moved (copyTransaction fuel src dest) := by
  refine Adds.bind beginOp_adds fun _ => Adds.after ilock_keeps fun _ => ?_
  refine .after ilock_keeps fun _ => .after setSize_keeps fun _ => ?_
  refine Adds.after (copyLoop_keeps fuel 0) fun _ => endOp_adds.congr fun _ => ?_
  exact (zero_sub _).symm

theorem filecopy_adds : Adds Moved (fun _ => -oneRef src - oneRef dest) (filecopy fuel src dest) := by
  refine .after copyTransaction_keeps fun _ => .bind iunlockput_adds fun _ => ?_
  refine .bind iunlockput_adds fun _ => .pure ?_
  abel

/-- An inode put without a transaction of one's own is remembered. -/
theorem iunlockput_strays {a : Unit} (ran : iunlockput i s = .ok (a, s')) (outside : s.own < 1) :
    s'.stray = true := by
  obtain ⟨_, s₁, unlocked, ran⟩ := run_bind ran
  obtain ⟨_, s₂, marked, ran⟩ := run_bind ran
  have still : s₁.own < 1 := by
    have same := (iunlock_keeps s _ s₁ unlocked).own
    rw [Prod.fst_zero, add_zero] at same
    rwa [same]
  have strayed : s₂.stray = true := by
    rw [run_modify marked]
    simp [still]
  exact (putRef_adds s₂ _ s' ran).stray strayed

/-- Without another transaction, `filecopy` puts its inodes outside of any. -/
theorem filecopy_strays (ran : filecopy fuel src dest s = .ok (r, s')) (outside : s.own < 1) :
    s'.stray = true := by
  obtain ⟨_, s₁, copied, ran⟩ := run_bind ran
  obtain ⟨_, s₂, putSrc, ran⟩ := run_bind ran
  obtain ⟨_, s₃, putDest, ran⟩ := run_bind ran
  obtain ⟨-, rfl⟩ := run_pure ran
  have still : s₁.own < 1 := by
    have same := (copyTransaction_keeps s _ s₁ copied).own
    rw [Prod.fst_zero, add_zero] at same
    rwa [same]
  exact (iunlockput_adds s₂ _ s' putDest).stray (iunlockput_strays putSrc still)

/-- Where the destination is made, `create` returned one: `iunlock` panics otherwise. -/
theorem copyToNew_adds {path : List Byte} :
    Adds Moved (fun _ => -oneRef src) (copyToNew fuel src path) := by
  refine .bind create_adds fun dest => ?_
  cases dest with
  | none =>
    intro s r s' ran
    obtain ⟨_, s₁, unlocked, -⟩ := run_bind ran
    cases unlocked
  | some dest =>
    refine .after iunlock_keeps fun _ => filecopy_adds.congr fun _ => ?_
    exact sub_eq_sub_iff_add_eq_add.mpr rfl

theorem copyOver_strays (ran : copyOver fuel src dest s = .ok (r, s')) (own : s.own = 1) :
    s'.stray = true := by
  obtain ⟨_, s₁, printed, ran⟩ := run_bind ran
  obtain ⟨_, s₂, ended, ran⟩ := run_bind ran
  have before := (cprintf_keeps s _ s₁ printed).own
  have after := (endOp_adds s₁ _ s₂ ended).own
  refine filecopy_strays ran ?_
  simp only [Prod.fst_zero, Prod.fst_neg, oneOp] at before after
  omega

end Parts

/-! ## No way through is even -/

theorem refOf_fst (p : Option Slot) : (refOf p).1 = 0 := by
  cases p <;> rfl

/-- Whatever way `fcopy` takes to its end, the balance is not even. -/
theorem fcopy_uneven {fuel : Nat} {srcPath destPath : List Byte} {s s' : State} {r : Int}
    (ran : fcopy fuel srcPath destPath s.enter = .ok (r, s')) : ¬Even s s' := by
  intro even
  obtain ⟨_, s₁, began, ran⟩ := run_bind ran
  obtain ⟨src, s₂, walkedSrc, ran⟩ := run_bind ran
  obtain ⟨dest, s₃, walkedDest, ran⟩ := run_bind ran
  have moved : Moved (oneOp + refOf src + refOf dest) s.enter s₃ :=
    Graded.trans (Graded.trans (beginOp_adds _ _ _ began) (namei_adds _ _ _ walkedSrc))
      (namei_adds _ _ _ walkedDest)
  -- an open transaction shows in `outstanding`
  have open_uneven : ∀ {g : Count}, Moved g s₃ s' → g.1 = 0 → False := by
    intro g rest zero
    have total := (Graded.trans moved rest).outstanding
    rw [even.outstanding] at total
    simp only [Prod.fst_add, refOf_fst, oneOp, zero, State.enter] at total
    omega
  cases src with
  | none =>
    obtain ⟨_, s₄, printed, ran⟩ := run_bind ran
    obtain ⟨-, rfl⟩ := run_pure ran
    exact open_uneven (cprintf_keeps _ _ _ printed) rfl
  | some src =>
    dsimp only at ran
    split at ran
    · rename_i same
      obtain ⟨_, s₄, printed, ran⟩ := run_bind ran
      obtain ⟨_, s₅, ended, ran⟩ := run_bind ran
      obtain ⟨-, rfl⟩ := run_pure ran
      have total := (Graded.trans moved (Graded.trans (cprintf_keeps _ _ _ printed)
        (endOp_adds _ _ _ ended))).refs src
      rw [even.refs, same] at total
      simp only [Prod.snd_add, Prod.snd_neg, Prod.snd_zero, oneOp, refOf, oneRef, Pi.add_apply,
        Pi.neg_apply, Pi.zero_apply, Pi.single_eq_same, State.enter] at total
      omega
    · cases dest with
      | none => exact open_uneven (copyToNew_adds _ _ _ ran) (by simp [oneRef])
      | some dest =>
        have own := moved.own
        simp only [Prod.fst_add, refOf_fst, oneOp, State.enter] at own
        have strayed := copyOver_strays ran (by omega)
        rw [even.inside] at strayed
        cases strayed

/-- A call that gets its arguments goes on to `fcopy`. -/
theorem FcopyBalanced.rejected {u : User} {s : State} (balanced : FcopyBalanced u s) :
    Rejected u := by
  obtain ⟨fuel, r, s', ran, even⟩ := balanced
  obtain ⟨src, s₁, gotSrc, ran⟩ := run_bind ran
  cases first : u.argstr 0 with
  | error fault =>
    rw [first] at gotSrc
    cases gotSrc
  | ok arg =>
    rw [first] at gotSrc
    obtain ⟨rfl, rfl⟩ := run_pure gotSrc
    cases src with
    | none => exact .inl first
    | some src =>
      obtain ⟨dest, s₂, gotDest, ran⟩ := run_bind ran
      cases second : u.argstr 1 with
      | error fault =>
        rw [second] at gotDest
        cases gotDest
      | ok arg =>
        rw [second] at gotDest
        obtain ⟨rfl, rfl⟩ := run_pure gotDest
        cases dest with
        | none => exact .inr ⟨src, first, second⟩
        | some dest => exact absurd even (fcopy_uneven ran)

theorem Rejected.balanced {u : User} (rejected : Rejected u) (s : State) : FcopyBalanced u s := by
  refine ⟨0, -1, s.enter, ?_, ⟨rfl, fun _ => rfl, fun _ => rfl, rfl⟩⟩
  rcases rejected with first | ⟨path, first, second⟩
  · rw [sysFcopy, first]
    rfl
  · rw [sysFcopy, first, second]
    rfl

/-- **fcopy.** A call of fcopy returns with an even balance exactly if it is rejected for its
arguments, before it has done anything. -/
theorem fcopy_balanced_iff (u : User) (s : State) : FcopyBalanced u s ↔ Rejected u :=
  ⟨fun balanced => balanced.rejected, fun rejected => rejected.balanced s⟩

/-! ## A missing source -/

/-- The layout `mkfs` computes. -/
def mkfsSb : Superblock where
  size := 1000
  nblocks := 941
  ninodes := 200
  nlog := 30
  logstart := 2
  inodestart := 32
  bmapstart := 58

/-- The root directory as `mkfs` makes it: one block, with the entries `.` and `..`. -/
def rootDinode : Dinode := ⟨T_DIR, 0, 0, 1, BSIZE, fun i => if i = 0 then 59 else 0⟩

/-- An image with nothing but the root directory, where init is at work. -/
def emptyImage : State where
  sb := mkfsSb
  blocks := fun b =>
    if b = 32 then Block.put (fun _ => 0) (inodeOff ROOTINO) rootDinode.encode
    else if b = 59 then Block.put (Block.put (fun _ => 0) 0 [1, 0, 46]) 16 [1, 0, 46, 46]
    else fun _ => 0
  held := []
  dirty := []
  log := ⟨2, 30, 0, false, []⟩
  icache := fun i => if i = 0 then ⟨ROOTDEV, ROOTINO, 1, ⟨false, false, 0⟩, false, .free⟩
    else ⟨0, 0, 0, ⟨false, false, 0⟩, false, .free⟩
  pid := 1
  cwd := 0
  input := []
  printed := []
  own := 0
  stray := false

/-- `fcopy("a", "b")`: the two strings and, from address 16 on, a return address and pointers to
them, in one page. -/
def copyAToB : User where
  space :=
    { dir := ⟨2, fun t => if t = 0 then some ⟨3, fun v => if v = 0 then ⟨4, true, true, true⟩ else .zero⟩
        else none⟩
      mem := ⟨⟨0, 0⟩, [], fun _ i => [97, 0, 98, 0, 0, 0, 0, 0, 0, 0, 0, 0, 0, 0, 0, 0,
        0, 0, 0, 0, 0, 0, 0, 0, 2, 0, 0, 0].getD i 0, false⟩ }
  sz := 4096
  esp := 16

/-- The call reports the missing source and returns, with the log still waiting for it. -/
def leaksOp : Except Fault (Int × State) → Bool
  | .ok (r, s) => r == -1 && s.log.outstanding == 1
  | .error _ => false

theorem copyAToB_args : copyAToB.argstr 0 = .ok (some [97]) ∧ copyAToB.argstr 1 = .ok (some [98]) :=
  ⟨rfl, rfl⟩

theorem fcopy_missing_source : ¬FcopyBalanced copyAToB emptyImage ∧
    ∃ s', sysFcopy 0 copyAToB emptyImage.enter = .ok (-1, s') ∧
      emptyImage.log.outstanding = 0 ∧ s'.log.outstanding = 1 := by
  obtain ⟨first, second⟩ := copyAToB_args
  refine ⟨fun balanced => ?_, ?_⟩
  · rcases balanced.rejected with none | ⟨_, _, none⟩
    · simp [first] at none
    · simp [second] at none
  · have leaks : leaksOp (sysFcopy 0 copyAToB emptyImage.enter) = true := by decide +kernel
    cases ran : sysFcopy 0 copyAToB emptyImage.enter with
    | error fault => simp [ran, leaksOp] at leaks
    | ok result =>
      obtain ⟨r, s'⟩ := result
      simp only [ran, leaksOp, Bool.and_eq_true, beq_iff_eq] at leaks
      exact ⟨s', by rw [leaks.1], rfl, leaks.2⟩

end Xv6.Fs
