/-
# Xv6.Fs.Balance -- what file-system functions add to reference and transaction counts

`Moved` counts what a stretch of execution adds to `log.outstanding` and to the reference count of each
inode in memory; it also says that `stray`, once set, stays set. Only `beginOp` and `endOp` move the
first, only `iget`, `idup` and `iput` the second. Every other function keeps both, and what the larger
ones add follows from the way they are put together: `namei` and `create` add one reference to the
inode they return and nothing else, whatever the path and the disk.
-/
import Xv6.Lib.Graded
import Xv6.Fs.Calls

namespace Xv6.Fs
open Lib
set_option autoImplicit false

/-- Transactions and references. -/
abbrev Count := Int × (Slot → Int)

structure Moved (g : Count) (s s' : State) : Prop where
  outstanding : s'.log.outstanding = s.log.outstanding + g.1
  own : s'.own = s.own + g.1
  refs : ∀ i, (s'.icache i).ref = (s.icache i).ref + g.2 i
  stray : s.stray = true → s'.stray = true

instance : Graded Moved where
  refl := fun s => ⟨by simp, by simp, by simp, fun isStray => isStray⟩
  trans := by
    intro g h s s' s'' first second
    refine ⟨?_, ?_, ?_, ?_⟩
    · rw [second.outstanding, first.outstanding, Prod.fst_add, add_assoc]
    · rw [second.own, first.own, Prod.fst_add, add_assoc]
    · intro i
      rw [second.refs, first.refs, Prod.snd_add, Pi.add_apply, add_assoc]
    · intro isStray
      exact second.stray (first.stray isStray)

/-- One transaction. -/
def oneOp : Count := (1, 0)

/-- One reference to inode `i`. -/
def oneRef (i : Slot) : Count := (0, Pi.single i 1)

/-- One reference to what a pointer points to. -/
def refOf : Option Slot → Count
  | none => 0
  | some i => oneRef i

/-! ## The parts that count nothing -/

variable {s : State} {type n major minor : Nat}

section Primitives

variable {α : Type} {i : Slot} {b : Nat} {g : α → Count}

theorem stop_adds {fault : Fault} : Adds Moved g (stop fault) := Adds.stop

theorem panic_adds {text : Panic} : Adds Moved g (panic text) := Adds.stop

theorem panicIf_keeps {c : Prop} [Decidable c] {text : Panic} : Keeps Moved (panicIf c text) := by
  unfold panicIf
  split
  · exact panic_adds
  · exact .pure

/-- What the counts read. -/
def State.counted (s : State) : Int × Int × (Slot → Inode) × Bool :=
  (s.log.outstanding, s.own, s.icache, s.stray)

/-- A change to anything else. -/
theorem update_keeps {t : State → State} (same : ∀ s, (t s).counted = s.counted) :
    Keeps Moved (modify t : FsM Unit) := by
  refine .update fun s => ?_
  have same := same s
  simp only [State.counted, Prod.mk.injEq] at same
  obtain ⟨outstanding, own, icache, stray⟩ := same
  exact ⟨by simp [outstanding], by simp [own], by simp [icache], by simp [stray]⟩

theorem setInode_ref {ip : Inode} (l : Slot) :
    ((s.setInode i ip).icache l).ref = if l = i then ip.ref else (s.icache l).ref := by
  unfold State.setInode
  by_cases same : l = i
  · simp [same]
  · simp [same]

/-- A change to an inode in memory that leaves its reference count. -/
theorem setInode_keeps {t : State → Inode} (refs : ∀ s, (t s).ref = (s.icache i).ref) :
    Keeps Moved (modify fun s => s.setInode i (t s) : FsM Unit) := by
  refine .update fun s => ⟨by simp [State.setInode], by simp [State.setInode], ?_, fun isStray => isStray⟩
  intro l
  rw [setInode_ref]
  split
  · rename_i same
    simp [refs, same]
  · simp

theorem cprintf_keeps {text : String} : Keeps Moved (cprintf text) :=
  update_keeps fun _ => rfl

theorem needsOwn_keeps : Keeps Moved needsOwn :=
  .update fun s => ⟨by simp, by simp, by simp, fun isStray => by simp [isStray]⟩

theorem brelse_keeps : Keeps Moved (brelse b) :=
  update_keeps fun _ => rfl

theorem setData_keeps {data : Block} : Keeps Moved (setData b data) :=
  update_keeps fun _ => rfl

theorem acquiresleep_keeps : Keeps Moved (acquiresleep i) := by
  refine .bind .get fun s => ?_
  split
  · exact stop_adds
  · split
    · exact stop_adds
    · exact setInode_keeps fun _ => rfl

theorem releasesleep_keeps : Keeps Moved (releasesleep i) := by
  refine .bind .get fun s => ?_
  dsimp only
  split
  · exact stop_adds
  · split
    · exact setInode_keeps fun _ => rfl
    · exact setInode_keeps fun _ => rfl

theorem holdingsleep_keeps : Keeps Moved (holdingsleep i) := by
  refine .bind .get fun s => ?_
  dsimp only
  split
  · exact stop_adds
  · exact .pure

theorem bread_keeps : Keeps Moved (bread b) := by
  have hold : ∀ data : Block, Keeps Moved (do
      modify fun s : State => { s with held := b :: s.held }
      return data : FsM Block) := fun data =>
    .bind (update_keeps fun _ => rfl) fun _ => .pure
  refine .bind .get fun s => ?_
  split
  · exact stop_adds
  · split
    · exact hold _
    · split
      · exact panic_adds
      · split
        · exact panic_adds
        · exact hold _

theorem bwrite_keeps : Keeps Moved (bwrite b) :=
  .bind panicIf_keeps fun _ =>
    update_keeps fun _ => rfl

theorem logWrite_keeps : Keeps Moved (logWrite b) := by
  refine .bind needsOwn_keeps fun _ => .bind .get fun s => ?_
  refine .bind panicIf_keeps fun _ => .bind panicIf_keeps fun _ => ?_
  exact update_keeps fun _ => rfl

end Primitives

/-! ## Transactions -/

section Log

variable {start : Nat}

theorem writeLog_keeps (tail : Nat) (bs : List Nat) : Keeps Moved (writeLog start tail bs) := by
  induction bs generalizing tail with
  | nil => exact .pure
  | cons b rest ih =>
    refine .bind bread_keeps fun _ => .bind bread_keeps fun _ => ?_
    refine .bind setData_keeps fun _ => .bind bwrite_keeps fun _ => ?_
    exact .bind brelse_keeps fun _ => .bind brelse_keeps fun _ => ih (tail + 1)

theorem installTrans_keeps (tail : Nat) (bs : List Nat) :
    Keeps Moved (installTrans start tail bs) := by
  induction bs generalizing tail with
  | nil => exact .pure
  | cons b rest ih =>
    refine .bind bread_keeps fun _ => .bind bread_keeps fun _ => ?_
    refine .bind setData_keeps fun _ => .bind bwrite_keeps fun _ => ?_
    exact .bind brelse_keeps fun _ => .bind brelse_keeps fun _ => ih (tail + 1)

theorem writeHead_keeps : Keeps Moved writeHead := by
  refine .bind .get fun s => .bind bread_keeps fun _ => ?_
  exact .bind setData_keeps fun _ => .bind bwrite_keeps fun _ => brelse_keeps

theorem commit_keeps : Keeps Moved commit := by
  refine .bind .get fun s => ?_
  split
  · refine .bind (writeLog_keeps 0 _) fun _ => .bind writeHead_keeps fun _ => ?_
    refine .bind (installTrans_keeps 0 _) fun _ => ?_
    exact .bind (update_keeps fun _ => rfl) fun _ => writeHead_keeps
  · exact .pure

theorem beginOp_adds : Adds Moved (fun _ => oneOp) beginOp := by
  refine .after .get fun s => ?_
  split
  · exact stop_adds
  · split
    · exact stop_adds
    · exact .update fun s => ⟨rfl, rfl, by simp [oneOp], fun isStray => isStray⟩

theorem endOp_adds : Adds Moved (fun _ => -oneOp) endOp := by
  refine .bind (g := fun _ => -oneOp) ?_ fun _ => ?_
  · exact Adds.update fun s => ⟨rfl, rfl, by simp [oneOp], fun isStray => isStray⟩
  · refine Keeps.bind Keeps.get fun s => ?_
    split
    · exact panic_adds
    · split
      · refine .bind (update_keeps fun _ => rfl) fun _ => ?_
        exact .bind commit_keeps fun _ => update_keeps fun _ => rfl
      · exact .pure

end Log

/-! ## Inodes -/

variable {inum : Nat}

section Inodes

variable {i : Slot} {b : Nat} {sb : Superblock}

theorem bzero_keeps : Keeps Moved (bzero b) := by
  refine .bind bread_keeps fun _ => .bind setData_keeps fun _ => ?_
  exact .bind logWrite_keeps fun _ => brelse_keeps

theorem ballocLoop_keeps (bases : List Nat) : Keeps Moved (ballocLoop sb bases) := by
  induction bases with
  | nil => exact panic_adds
  | cons b rest ih =>
    refine .bind bread_keeps fun data => ?_
    split
    · refine .bind setData_keeps fun _ => .bind logWrite_keeps fun _ => ?_
      refine .bind brelse_keeps fun _ => .bind bzero_keeps fun _ => ?_
      exact .pure
    · exact .bind brelse_keeps fun _ => ih

theorem balloc_keeps : Keeps Moved balloc :=
  .bind .get fun _ => ballocLoop_keeps _

theorem bfree_keeps : Keeps Moved (bfree b) := by
  refine .bind .get fun s => .bind bread_keeps fun data => ?_
  refine .bind panicIf_keeps fun _ => .bind setData_keeps fun _ => ?_
  exact .bind logWrite_keeps fun _ => brelse_keeps

theorem setDisk_keeps {d : Dinode} : Keeps Moved (setDisk i d) := setInode_keeps fun _ => rfl

theorem iupdate_keeps : Keeps Moved (iupdate i) := by
  refine .bind .get fun s => .bind bread_keeps fun data => ?_
  refine .bind setData_keeps fun _ => ?_
  exact .bind logWrite_keeps fun _ => brelse_keeps

/-- `n` references to inode `i`. -/
theorem addRef_moved {n : Int} {ip : Inode} (ref : ip.ref = (s.icache i).ref + n) :
    Moved (0, Pi.single i n) s (s.setInode i ip) := by
  refine ⟨by simp [State.setInode], by simp [State.setInode], fun l => ?_, fun isStray => isStray⟩
  rw [setInode_ref]
  by_cases same : l = i
  · simp [same, ref]
  · simp [same]

theorem addRef_adds {n : Int} : Adds Moved (fun _ => (0, Pi.single i n)) (addRef i n) :=
  .update fun _ => addRef_moved rfl

theorem idup_adds : Adds Moved oneRef (idup i) := by
  refine .bind addRef_adds fun _ => ?_
  exact .pure (sub_self _)

theorem emptySlot_ref (empty : s.emptySlot = some i) : (s.icache i).ref = 0 := by
  simpa using List.find?_some empty

variable {dev : Nat}

/-- A slot is recycled only without references, so `iget` adds one in any case. -/
theorem iget_adds : Adds Moved oneRef (iget dev inum) := by
  intro s a s' ran
  obtain ⟨_, _, got, ran⟩ := run_bind ran
  cases got
  cases found : s.cached dev inum with
  | some i =>
    rw [found] at ran
    obtain ⟨_, s₁, added, ran⟩ := run_bind ran
    obtain ⟨rfl, rfl⟩ := run_pure ran
    exact addRef_adds s _ _ added
  | none =>
    rw [found] at ran
    cases empty : s.emptySlot with
    | none =>
      rw [empty] at ran
      cases ran
    | some i =>
      rw [empty] at ran
      obtain ⟨_, s₁, stored, ran⟩ := run_bind ran
      obtain ⟨rfl, rfl⟩ := run_pure ran
      rw [run_modify stored]
      exact addRef_moved (by simp [emptySlot_ref empty])

theorem iallocLoop_adds (inums : List Nat) : Adds Moved oneRef (iallocLoop sb dev type inums) := by
  induction inums with
  | nil => exact panic_adds
  | cons inum rest ih =>
    refine .after bread_keeps fun data => ?_
    split
    · refine .after setData_keeps fun _ => .after logWrite_keeps fun _ => ?_
      exact .after brelse_keeps fun _ => iget_adds
    · exact .after brelse_keeps fun _ => ih

theorem ialloc_adds : Adds Moved oneRef (ialloc dev type) :=
  .after .get fun _ => iallocLoop_adds _

theorem loadInode_keeps : Keeps Moved (loadInode i) := by
  refine .bind .get fun s => ?_
  dsimp only
  split
  · exact .pure
  · refine .bind bread_keeps fun data => .bind setDisk_keeps fun _ => ?_
    refine .bind brelse_keeps fun _ => ?_
    exact .bind (setInode_keeps fun _ => rfl) fun _ => panicIf_keeps

variable {ip : Option Slot}

theorem ilock_keeps : Keeps Moved (ilock ip) := by
  cases ip with
  | none => exact panic_adds
  | some i =>
    refine .bind .get fun s => .bind panicIf_keeps fun _ => ?_
    exact .bind acquiresleep_keeps fun _ => loadInode_keeps

theorem iunlock_keeps : Keeps Moved (iunlock ip) := by
  cases ip with
  | none => exact panic_adds
  | some i =>
    refine .bind holdingsleep_keeps fun _ => .bind .get fun s => ?_
    exact .bind panicIf_keeps fun _ => releasesleep_keeps

theorem itruncDirect_keeps (ks : List (Fin (NDIRECT + 1))) : Keeps Moved (itruncDirect i ks) := by
  induction ks with
  | nil => exact .pure
  | cons k rest ih =>
    refine .bind .get fun s => ?_
    split
    · exact .bind bfree_keeps fun _ => .bind setDisk_keeps fun _ => ih
    · exact ih

theorem itruncIndirect_keeps {data : Block} (js : List Nat) :
    Keeps Moved (itruncIndirect data js) := by
  induction js with
  | nil => exact .pure
  | cons j rest ih =>
    unfold itruncIndirect
    split
    · exact .bind bfree_keeps fun _ => ih
    · exact ih

theorem itruncLast_keeps : Keeps Moved (itruncLast i) := by
  refine .bind .get fun s => ?_
  dsimp only
  split
  · refine .bind bread_keeps fun data => .bind (itruncIndirect_keeps _) fun _ => ?_
    refine .bind brelse_keeps fun _ => ?_
    exact .bind bfree_keeps fun _ => setDisk_keeps
  · exact .pure

theorem itrunc_keeps : Keeps Moved (itrunc i) := by
  refine .bind (itruncDirect_keeps _) fun _ => .bind itruncLast_keeps fun _ => ?_
  exact .bind (setInode_keeps fun _ => rfl) fun _ => iupdate_keeps

theorem freeUnlinked_keeps : Keeps Moved (freeUnlinked i) := by
  refine .bind .get fun s => ?_
  dsimp only
  split
  · refine .bind itrunc_keeps fun _ => .bind (setInode_keeps fun _ => rfl) fun _ => ?_
    exact .bind iupdate_keeps fun _ => setInode_keeps fun _ => rfl
  · exact .pure

theorem putRef_adds : Adds Moved (fun _ => -oneRef i) (putRef i) := by
  refine .after acquiresleep_keeps fun _ => .after freeUnlinked_keeps fun _ => ?_
  refine .after releasesleep_keeps fun _ => addRef_adds.congr fun _ => ?_
  rw [oneRef, Prod.neg_mk, neg_zero, Pi.single_neg]

theorem iput_adds : Adds Moved (fun _ => -oneRef i) (iput i) :=
  .after needsOwn_keeps fun _ => putRef_adds

theorem iunlockput_adds : Adds Moved (fun _ => -oneRef i) (iunlockput i) :=
  .after iunlock_keeps fun _ => iput_adds

/-! ## Contents -/

theorem bmapAt_keeps {k : Fin (NDIRECT + 1)} : Keeps Moved (bmapAt i k) := by
  refine .bind .get fun s => ?_
  split
  · exact .bind balloc_keeps fun _ => .bind setDisk_keeps fun _ => .pure
  · exact .pure

theorem bmap_keeps {bn : Nat} : Keeps Moved (bmap i bn) := by
  unfold bmap
  split
  · exact bmapAt_keeps
  · split
    · refine .bind bmapAt_keeps fun table => .bind bread_keeps fun data => ?_
      dsimp only
      split
      · refine .bind balloc_keeps fun _ => .bind setData_keeps fun _ => ?_
        refine .bind logWrite_keeps fun _ => ?_
        exact .bind brelse_keeps fun _ => .pure
      · exact .bind brelse_keeps fun _ => .pure
    · exact panic_adds

theorem consoleread_keeps : Keeps Moved (consoleread i n) := by
  refine .bind iunlock_keeps fun _ => .bind .get fun s => ?_
  split
  · exact .bind ilock_keeps fun _ => .pure
  · split
    · exact stop_adds
    · refine .bind (update_keeps fun _ => rfl) fun _ => ?_
      exact .bind ilock_keeps fun _ => .pure
    · refine .bind (update_keeps fun _ => rfl) fun _ => ?_
      exact .bind ilock_keeps fun _ => .pure

theorem consolewrite_keeps {text : List Byte} : Keeps Moved (consolewrite i text n) := by
  refine .bind iunlock_keeps fun _ => ?_
  split
  · refine .bind (update_keeps fun _ => rfl) fun _ => ?_
    exact .bind ilock_keeps fun _ => .pure
  · exact .bind ilock_keeps fun _ => .pure

theorem readLoop_keeps (off n : Nat) : Keeps Moved (readLoop i off n) := by
  fun_induction readLoop i off n with
  | case1 off n more ih =>
    refine .bind bmap_keeps fun b => .bind bread_keeps fun data => ?_
    refine .bind brelse_keeps fun _ => ?_
    exact .bind ih fun _ => .pure
  | case2 off n done => exact .pure

theorem readi_keeps {off : Nat} : Keeps Moved (readi i off n) := by
  refine .bind .get fun s => ?_
  split
  · split
    · exact consoleread_keeps
    · exact .pure
  · split
    · exact .pure
    · exact .bind (readLoop_keeps _ _) fun _ => .pure

theorem writeLoop_keeps (off : Nat) (text : List Byte) (n : Nat) :
    Keeps Moved (writeLoop i off text n) := by
  fun_induction writeLoop i off text n with
  | case1 off text n more ih =>
    refine .bind bmap_keeps fun b => .bind bread_keeps fun data => ?_
    refine .bind setData_keeps fun _ => .bind logWrite_keeps fun _ => ?_
    exact .bind brelse_keeps fun _ => ih
  | case2 off text n done => exact .pure

theorem growTo_keeps {off : Nat} : Keeps Moved (growTo i off n) := by
  refine .bind .get fun s => ?_
  split
  · exact .bind setDisk_keeps fun _ => iupdate_keeps
  · exact .pure

theorem writei_keeps {text : List Byte} {off : Nat} : Keeps Moved (writei i text off n) := by
  refine .bind .get fun s => ?_
  split
  · split
    · exact consolewrite_keeps
    · exact .pure
  · split
    · exact .pure
    · split
      · exact .pure
      · refine .bind (writeLoop_keeps _ _ _) fun _ => ?_
        exact .bind growTo_keeps fun _ => .pure

end Inodes

/-! ## Directories and paths -/

variable (offs : List Nat)

section Paths

variable {dp ip : Slot} {name : List Byte}

theorem readDirent_keeps {off : Nat} {text : Panic} : Keeps Moved (readDirent dp off text) := by
  refine .bind readi_keeps fun read => ?_
  split
  · exact panic_adds
  · exact .bind panicIf_keeps fun _ => .pure

theorem dirlookupLoop_adds :
    Adds Moved (fun r => refOf (r.map Prod.fst)) (dirlookupLoop dp name offs) := by
  induction offs with
  | nil => exact .pure rfl
  | cons off rest ih =>
    refine .after readDirent_keeps fun entry => ?_
    dsimp only
    split
    · refine .after .get fun s => .bind iget_adds fun i => ?_
      exact .pure (sub_self _)
    · exact ih

theorem dirlookup_adds : Adds Moved (fun r => refOf (r.map Prod.fst)) (dirlookup dp name) := by
  refine .after .get fun s => .after panicIf_keeps fun _ => ?_
  exact dirlookupLoop_adds _

theorem freeDirent_keeps {last : Nat} : Keeps Moved (freeDirent dp last offs) := by
  induction offs with
  | nil => exact .pure
  | cons off rest ih =>
    refine .bind readDirent_keeps fun entry => ?_
    dsimp only
    split
    · exact .pure
    · exact ih

/-- If the name is there already, the reference `dirlookup` gave is put back. -/
theorem dirlink_keeps : Keeps Moved (dirlink dp name inum) := by
  refine Adds.bind dirlookup_adds fun found => ?_
  cases found with
  | some found =>
    refine Adds.bind iput_adds fun _ => Adds.pure ?_
    simp [refOf]
  | none =>
    refine Adds.after Keeps.get fun s => Adds.after (freeDirent_keeps _) fun off => ?_
    refine Adds.after writei_keeps fun _ => Adds.after panicIf_keeps fun _ => Adds.pure ?_
    simp [refOf]

/-- The walk gives up its reference to `ip` and has one to what it finds. -/
theorem namexLoop_adds (parent : Bool) (path last : List Byte) (ip : Slot) :
    Adds Moved (fun r => refOf (r.map Prod.fst) - oneRef ip) (namexLoop parent path last ip) := by
  fun_induction namexLoop parent path last ip with
  | case1 path last ip done isParent =>
    refine .bind iput_adds fun _ => .pure ?_
    simp [refOf]
  | case2 path last ip done notParent =>
    refine .pure ?_
    simp [refOf]
  | case3 path last ip name rest elem ih =>
    refine .after ilock_keeps fun _ => .after .get fun s => ?_
    split
    · refine .bind iunlockput_adds fun _ => .pure ?_
      simp [refOf]
    · split
      · refine .after iunlock_keeps fun _ => .pure ?_
        simp [refOf]
      · refine .bind dirlookup_adds fun next => ?_
        cases next with
        | none =>
          refine .bind iunlockput_adds fun _ => .pure ?_
          simp [refOf]
        | some next =>
          refine .bind iunlockput_adds fun _ => (ih next.1).congr fun r => ?_
          abel

variable {path : List Byte}

theorem namex_adds {parent : Bool} :
    Adds Moved (fun r => refOf (r.map Prod.fst)) (namex parent path) := by
  unfold namex
  split
  · exact .bind iget_adds fun ip => namexLoop_adds parent path [] ip
  · refine .after .get fun s => ?_
    exact .bind idup_adds fun ip => namexLoop_adds parent path [] ip

theorem namei_adds : Adds Moved refOf (namei path) := by
  refine .bind namex_adds fun found => .pure ?_
  exact sub_self _

theorem createDots_keeps : Keeps Moved (createDots type ip dp) := by
  unfold createDots
  split
  · refine .bind (setInode_keeps fun _ => rfl) fun _ => .bind iupdate_keeps fun _ => ?_
    refine .bind .get fun s => .bind dirlink_keeps fun _ => ?_
    refine .bind panicIf_keeps fun _ => ?_
    exact .bind dirlink_keeps fun _ => panicIf_keeps
  · exact .pure

/-- The reference to the directory is given up for one to the new inode. -/
theorem createIn_adds :
    Adds Moved (fun ip => oneRef ip - oneRef dp) (createIn dp name type major minor) := by
  refine .after .get fun s => .bind ialloc_adds fun ip => ?_
  refine .after ilock_keeps fun _ => .after (setInode_keeps fun _ => rfl) fun _ => ?_
  refine .after iupdate_keeps fun _ => .after createDots_keeps fun _ => ?_
  refine .after .get fun s => .after dirlink_keeps fun _ => ?_
  refine .after panicIf_keeps fun _ => .bind iunlockput_adds fun _ => .pure ?_
  abel

theorem create_adds : Adds Moved refOf (create path type major minor) := by
  refine .bind namex_adds fun found => ?_
  cases found with
  | none =>
    refine .pure ?_
    simp [refOf]
  | some found =>
    refine .after ilock_keeps fun _ => .bind dirlookup_adds fun existing => ?_
    cases existing with
    | some existing =>
      refine .bind iunlockput_adds fun _ => .after ilock_keeps fun _ => ?_
      refine .after .get fun s => ?_
      split
      · refine .pure ?_
        simp [refOf]
      · refine .bind iunlockput_adds fun _ => .pure ?_
        simp only [refOf, Option.map_some]
        abel
    | none =>
      refine .bind createIn_adds fun ip => .pure ?_
      simp [refOf]

end Paths

/-! ## System calls -/

section Calls

variable {dp ip : Slot} {path : List Byte} {α : Type}

/-- An inode put at the end of a transaction. -/
theorem iunlockputEnd_adds {a : α} {g : α → Count} (total : g a = -oneRef ip - oneOp) :
    Adds Moved g (do iunlockput ip; endOp; return a : FsM α) := by
  refine .bind iunlockput_adds fun _ => .bind endOp_adds fun _ => .pure ?_
  rw [total]
  abel

theorem endOpReturn_adds {a : α} {g : α → Count} (total : g a = -oneOp) :
    Adds Moved g (do endOp; return a : FsM α) := by
  refine .bind endOp_adds fun _ => .pure ?_
  rw [total, sub_self]

/-- An inode in hand comes with the transaction that it was found in. -/
def opened (ip : Option Slot) : Count :=
  match ip with
  | none => 0
  | some ip => oneRef ip + oneOp

theorem openInode_adds {omode : Nat} : Adds Moved opened (openInode path omode) := by
  refine .bind beginOp_adds fun _ => ?_
  split
  · refine .bind create_adds fun ip => ?_
    cases ip with
    | none => exact endOpReturn_adds (by simp [opened, refOf])
    | some ip => exact .pure (by simp [opened, refOf])
  · refine .bind namei_adds fun ip => ?_
    cases ip with
    | none => exact endOpReturn_adds (by simp [opened, refOf])
    | some ip =>
      refine .after ilock_keeps fun _ => .after .get fun s => ?_
      split
      · refine iunlockputEnd_adds ?_
        simp only [opened, refOf]
        abel
      · exact .pure (by simp [opened, refOf])

/-- `create` and the end of the calls that make a directory or a device. -/
theorem createEnd_adds : Adds Moved (fun _ => -oneOp) (do
    let ip ← create path type major minor
    match ip with
    | none =>
      endOp
      return -1
    | some ip =>
      iunlockput ip
      endOp
      return 0 : FsM Int) := by
  refine .bind create_adds fun ip => ?_
  cases ip with
  | none => exact endOpReturn_adds (by simp [refOf])
  | some ip =>
    refine iunlockputEnd_adds ?_
    abel

theorem sysMkdir_keeps {path : Option (List Byte)} : Keeps Moved (sysMkdir path) := by
  refine Adds.bind beginOp_adds fun _ => ?_
  cases path with
  | none => exact endOpReturn_adds (zero_sub _)
  | some path => exact createEnd_adds.congr fun _ => (zero_sub _).symm

theorem sysMknod_keeps {path : Option (List Byte)} {major minor : Option Nat} :
    Keeps Moved (sysMknod path major minor) := by
  refine Adds.bind beginOp_adds fun _ => ?_
  split
  · exact createEnd_adds.congr fun _ => (zero_sub _).symm
  · exact endOpReturn_adds (zero_sub _)

/-- The new directory is in hand, and the reference to `cwd` is gone. -/
def moved (cwd : Slot) (ip : Option Slot) : Count :=
  match ip with
  | none => 0
  | some ip => oneRef ip - oneRef cwd

theorem chdirInode_adds {cwd : Slot} {path : Option (List Byte)} :
    Adds Moved (moved cwd) (chdirInode cwd path) := by
  refine .bind beginOp_adds fun _ => ?_
  cases path with
  | none => exact endOpReturn_adds (zero_sub _)
  | some path =>
    refine .bind namei_adds fun ip => ?_
    cases ip with
    | none => exact endOpReturn_adds (by simp [moved, refOf])
    | some ip =>
      refine .after ilock_keeps fun _ => .after .get fun s => ?_
      split
      · refine iunlockputEnd_adds ?_
        simp only [moved, refOf]
        abel
      · refine .after iunlock_keeps fun _ => .bind iput_adds fun _ => ?_
        refine endOpReturn_adds ?_
        simp only [moved, refOf]
        abel

theorem addLink_keeps : Keeps Moved (addLink ip n) := setInode_keeps fun _ => rfl

theorem linkBad_adds : Adds Moved (fun _ => -oneRef ip - oneOp) (linkBad ip) := by
  refine .after ilock_keeps fun _ => .after addLink_keeps fun _ => ?_
  exact .after iupdate_keeps fun _ => iunlockputEnd_adds rfl

theorem linkEntry_adds : Adds Moved (fun _ => -oneRef ip - oneOp) (linkEntry ip path) := by
  refine .bind namex_adds fun found => ?_
  cases found with
  | none => exact linkBad_adds.congr fun _ => by simp [refOf]
  | some found =>
    -- both failures put the directory first
    have bad : Adds Moved (fun _ => -oneRef ip - oneOp - oneRef found.1)
        (do iunlockput found.1; linkBad ip : FsM Int) := by
      refine .bind iunlockput_adds fun _ => linkBad_adds.congr fun _ => ?_
      abel
    refine .after ilock_keeps fun _ => .after .get fun s => ?_
    split
    · exact bad
    · refine .after dirlink_keeps fun linked => ?_
      split
      · exact bad
      · refine .bind iunlockput_adds fun _ => .bind iput_adds fun _ => ?_
        refine endOpReturn_adds ?_
        simp only [Option.map_some, refOf]
        abel

theorem sysLink_keeps {new : List Byte} : Keeps Moved (sysLink path new) := by
  refine Adds.bind beginOp_adds fun _ => Adds.bind namei_adds fun ip => ?_
  cases ip with
  | none => exact endOpReturn_adds (by simp [refOf])
  | some ip =>
    refine Adds.after ilock_keeps fun _ => Adds.after Keeps.get fun s => ?_
    split
    · refine iunlockputEnd_adds ?_
      abel
    · refine Adds.after addLink_keeps fun _ => Adds.after iupdate_keeps fun _ => ?_
      refine Adds.after iunlock_keeps fun _ => linkEntry_adds.congr fun _ => ?_
      simp only [refOf]
      abel

theorem isdiremptyLoop_keeps : Keeps Moved (isdiremptyLoop dp offs) := by
  induction offs with
  | nil => exact .pure
  | cons off rest ih =>
    refine .bind readDirent_keeps fun entry => ?_
    dsimp only
    split
    · exact .pure
    · exact ih

theorem unlinkBad_adds : Adds Moved (fun _ => -oneRef dp - oneOp) (unlinkBad dp) :=
  iunlockputEnd_adds rfl

theorem unlinkDots_keeps : Keeps Moved (unlinkDots dp ip) := by
  refine .bind .get fun s => ?_
  split
  · exact .bind addLink_keeps fun _ => iupdate_keeps
  · exact .pure

theorem unlinkEntry_adds {off : Nat} :
    Adds Moved (fun _ => -oneRef dp - oneRef ip - oneOp) (unlinkEntry dp ip off) := by
  refine .after writei_keeps fun _ => .after panicIf_keeps fun _ => ?_
  refine .after unlinkDots_keeps fun _ => .bind iunlockput_adds fun _ => ?_
  refine .after addLink_keeps fun _ => .after iupdate_keeps fun _ => ?_
  refine iunlockputEnd_adds ?_
  abel

theorem unlinkFound_adds {off : Nat} :
    Adds Moved (fun _ => -oneRef dp - oneRef ip - oneOp) (unlinkFound dp ip off) := by
  refine .after ilock_keeps fun _ => .after .get fun s => ?_
  refine .after panicIf_keeps fun _ => ?_
  split
  · refine .after (.bind .get fun _ => isdiremptyLoop_keeps _) fun empty => ?_
    split
    · exact unlinkEntry_adds
    · refine .bind iunlockput_adds fun _ => unlinkBad_adds.congr fun _ => ?_
      abel
  · exact unlinkEntry_adds

theorem sysUnlink_keeps : Keeps Moved (sysUnlink path) := by
  refine Adds.bind beginOp_adds fun _ => Adds.bind namex_adds fun found => ?_
  cases found with
  | none => exact endOpReturn_adds (by simp [refOf])
  | some found =>
    refine Adds.after ilock_keeps fun _ => ?_
    have bad : Adds Moved (fun _ => 0 - oneOp - oneRef found.1) (unlinkBad found.1) := by
      refine unlinkBad_adds.congr fun _ => ?_
      abel
    split
    · exact bad
    · refine Adds.bind dirlookup_adds fun existing => ?_
      cases existing with
      | none => exact bad.congr fun _ => by simp [refOf]
      | some existing =>
        refine unlinkFound_adds.congr fun _ => ?_
        simp only [Option.map_some, refOf]
        abel

end Calls

end Xv6.Fs
