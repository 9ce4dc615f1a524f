/-
# Xv6.Fs.Effects -- what block and inode functions do to the blocks, the log and the inodes

`Core` is the part of the state that decides which blocks a call logs: the superblock, the blocks,
the log and the inodes in memory. Each function has one lemma that gives the core it leaves behind if
it returns. A function may also end in a fault, but given room in the log not in the panic of
`log_write`.
-/
import Xv6.Lib.Absorb
import Xv6.Lib.Ensures
import Xv6.Fs.Copy

namespace Xv6.Fs
open Lib Function
set_option autoImplicit false

/-- The panic of `log_write`. -/
def tooBig : Fault := .panic "too big a transaction"

structure Core where
  sb : Superblock
  blocks : Nat → Block
  log : Log
  icache : Slot → Inode

def State.core (s : State) : Core := ⟨s.sb, s.blocks, s.log, s.icache⟩

namespace Core

def store (c : Core) (b : Nat) (data : Block) : Core :=
  { c with blocks := update c.blocks b data }

def logged (c : Core) (b : Nat) : Core := { c with log := { c.log with lh := absorb c.log.lh b } }

/-- `bread`, a change to the data, `log_write` and `brelse`. -/
def write (c : Core) (b : Nat) (data : Block) : Core := (c.store b data).logged b

def setDisk (c : Core) (i : Slot) (d : Dinode) : Core :=
  { c with icache := update c.icache i { c.icache i with disk := d } }

end Core

/-- It does not end in the panic of `log_write`, and if it returns, `Q` holds. -/
abbrev Safe {α : Type} (m : FsM α) (s : State) (Q : α → State → Prop) : Prop :=
  Ensures (fun e => e = tooBig) m s Q

/-- There is room for `n` more blocks. -/
def Room (n : Nat) (s : State) : Prop := s.log.size = LOGSIZE ∧ s.log.lh.length + n < LOGSIZE

variable {n : Nat} (b : Nat)

section Primitives

variable {s : State} {α : Type}

theorem stop_ensures {Q : α → State → Prop} {e : Fault} (other : e ≠ tooBig) :
    Safe (stop e) s Q := .stop other

theorem panicIf_ensures {c : Prop} [Decidable c] {text : Panic} (other : Fault.panic text ≠ tooBig) :
    Safe (panicIf c text) s fun _ s' => s' = s := by
  unfold panicIf
  split
  · exact stop_ensures other
  · exact .pure rfl

theorem bread_ensures : Safe (bread b) s fun data s' => data = s.blocks b ∧ s'.core = s.core := by
  refine .getBind ?_
  split
  · exact stop_ensures (by decide)
  · split
    · exact .updateBind (.pure ⟨rfl, rfl⟩)
    · split
      · exact stop_ensures (by decide)
      · split
        · exact stop_ensures (by decide)
        · exact .updateBind (.pure ⟨rfl, rfl⟩)

theorem brelse_ensures : Safe (brelse b) s fun _ s' => s'.core = s.core :=
  .update rfl

theorem setData_ensures (data : Block) :
    Safe (setData b data) s fun _ s' => s'.core = s.core.store b data :=
  .update rfl

theorem logWrite_ensures (room : Room 1 s) :
    Safe (logWrite b) s fun _ s' => s'.core = s.core.logged b := by
  refine .updateBind (.getBind ?_)
  refine .bind (P := fun _ s' => s'.core = s.core) ?_ fun _ s₁ same => ?_
  · unfold panicIf
    split
    next full =>
      obtain ⟨size, short⟩ := room
      change LOGSIZE ≤ s.log.lh.length ∨ (s.log.size : Int) - 1 ≤ s.log.lh.length at full
      exact absurd full (by omega)
    next => exact .pure rfl
  · refine Ensures.bind (P := fun _ s' => s' = s₁) (panicIf_ensures (by decide)) ?_
    rintro _ _ rfl
    apply Ensures.update
    exact congrArg (Core.logged · b) same

/-- Room for fewer blocks, in a state with the same log. -/
theorem Room.congr {k : Nat} {s' : State} (room : Room n s) (same : s'.log.size = s.log.size)
    (short : s'.log.lh.length + k ≤ s.log.lh.length + n) : Room k s' := by
  obtain ⟨size, less⟩ := room
  exact ⟨same.trans size, by omega⟩

/-- The end of every change to a block. -/
theorem relog_ensures (data : Block) (room : Room 1 s) :
    Safe (do setData b data; logWrite b; brelse b) s
      fun _ s' => s'.core = s.core.write b data := by
  refine .bind (setData_ensures b data) fun _ s₁ stored => ?_
  have log : s₁.log = s.log := congrArg Core.log stored
  have room₁ : Room 1 s₁ := room.congr (by rw [log]) (by rw [log])
  refine .bind (logWrite_ensures b room₁) fun _ s₂ logged => ?_
  refine (brelse_ensures b).mono fun _ s₃ released => ?_
  rw [released, logged, stored]
  rfl

/-- The same with more to come. -/
theorem relog_then {rest : FsM α} {R : α → State → Prop} (data : Block) (room : Room 1 s)
    (next : ∀ s', s'.core = s.core.write b data → Safe rest s' R) :
    Safe (do setData b data; logWrite b; brelse b; rest) s R := by
  have first : Safe ((do setData b data; logWrite b; brelse b : FsM Unit) >>= fun _ => rest)
      s R := .bind (relog_ensures b data room) fun _ s' => next s'
  simpa only [bind_assoc] using first

end Primitives

/-! ## Blocks -/

/-- The bitmap has the block as used. -/
def Used (data : Block) (b : Nat) : Prop := data (b / 8) &&& bitMask b ≠ 0

/-- The bitmap with the block marked. -/
def mark (data : Block) (b : Nat) : Block :=
  update data (b / 8) (data (b / 8) ||| bitMask b)

theorem or_and_ne_zero {x z : Byte} (y : Byte) (set : x &&& z ≠ 0) : (x ||| y) &&& z ≠ 0 := by
  intro clear
  apply set
  apply UInt8.toBitVec_inj.mp
  have bits := congrArg UInt8.toBitVec clear
  ext i inside
  have bit := congrArg (fun v => v.getLsbD i) bits
  simp at bit ⊢
  grind

theorem bitMask_ne_zero : bitMask b ≠ 0 := by
  have small : b % 8 < 8 := Nat.mod_lt _ (by decide)
  unfold bitMask
  generalize b % 8 = n at small
  interval_cases n <;> decide

theorem Used.mark {data : Block} {b : Nat} (used : Used data b) (c : Nat) :
    Used (mark data c) b := by
  unfold Used Fs.mark
  by_cases same : b / 8 = c / 8
  · rw [same, update_self]
    rw [Used, same] at used
    exact or_and_ne_zero _ used
  · rw [update_of_ne same]
    exact used

theorem used_mark (data : Block) (b : Nat) : Used (Fs.mark data b) b := by
  unfold Used Fs.mark
  rw [update_self, UInt8.or_comm]
  apply or_and_ne_zero
  rw [UInt8.and_self]
  exact bitMask_ne_zero b

section Blocks

variable {s : State}
theorem bzero_ensures (room : Room 1 s) :
    Safe (bzero b) s fun _ s' => s'.core = s.core.write b fun _ => 0 := by
  refine .bind (bread_ensures b) ?_
  rintro _ s₁ ⟨-, same⟩
  have log : s₁.log = s.log := congrArg Core.log same
  rw [← same]
  exact relog_ensures b _ (room.congr (by rw [log]) (by rw [log]))

/-- With one block of bitmap, `balloc` marks a block there that was free, and clears it. -/
theorem balloc_ensures (small : s.sb.size ≤ BPB) (room : Room 2 s) :
    Safe balloc s fun b s' => ¬ Used (s.blocks (bblock s.sb 0)) b ∧
      s'.core = (s.core.write (bblock s.sb 0) (mark (s.blocks (bblock s.sb 0)) b)).write b
        fun _ => 0 := by
  refine .getBind ?_
  have bases : (List.range ((s.sb.size + BPB - 1) / BPB)).map (· * BPB) = [] ∨
      (List.range ((s.sb.size + BPB - 1) / BPB)).map (· * BPB) = [0] := by
    by_cases none : s.sb.size = 0
    · left
      simp [none]
    · right
      have one : (s.sb.size + BPB - 1) / BPB = 1 := by
        change s.sb.size ≤ 4096 at small
        show (s.sb.size + 4096 - 1) / 4096 = 1
        omega
      simp [one]
  rcases bases with none | one
  · rw [none]
    exact stop_ensures (by decide)
  · rw [one]
    refine .bind (bread_ensures _) ?_
    rintro _ s₁ ⟨rfl, same⟩
    have log : s₁.log = s.log := congrArg Core.log same
    split
    next bi found =>
      have free := List.find?_some found
      refine relog_then _ _ (room.congr (by rw [log]) (by rw [log]; omega)) fun s₂ written => ?_
      rw [same] at written
      have lh : s₂.log.lh = absorb s.log.lh (bblock s.sb 0) :=
        congrArg (fun c => c.log.lh) written
      have size : s₂.log.size = s.log.size := congrArg (fun c => c.log.size) written
      have longer := absorb_length_le s.log.lh (bblock s.sb 0)
      have room₂ : Room 1 s₂ := room.congr size (by rw [lh]; omega)
      refine .bind (bzero_ensures _ room₂) fun _ s₃ zeroed => ?_
      rw [Nat.zero_add] at zeroed ⊢
      refine .pure ⟨by simpa [Used] using free, ?_⟩
      rw [zeroed, written]
      rfl
    next =>
      refine .bind (brelse_ensures _) fun _ _ _ => ?_
      exact stop_ensures (by decide)

end Blocks

/-! ## Inodes -/

/-- Block `bn` of the inode is there. -/
def Dinode.Mapped (d : Dinode) (blocks : Nat → Block) (bn : Nat) : Prop :=
  if direct : bn < NDIRECT then d.addrs ⟨bn, Nat.lt_succ_of_lt direct⟩ ≠ 0
  else bn - NDIRECT < NINDIRECT ∧ d.addrs (Fin.last NDIRECT) ≠ 0 ∧
    (blocks (d.addrs (Fin.last NDIRECT))).le (4 * (bn - NDIRECT)) 4 ≠ 0

namespace Core

def iblock (c : Core) (i : Slot) : Nat := Fs.iblock c.sb (c.icache i).inum

theorem iblock_congr {c c' : Core} {i : Slot} (sb : c.sb = c'.sb)
    (inum : (c.icache i).inum = (c'.icache i).inum) : c.iblock i = c'.iblock i := by
  unfold iblock
  rw [sb, inum]

/-- The inode as `ilock` finds it. -/
def loaded (c : Core) (i : Slot) : Dinode :=
  if (c.icache i).valid then (c.icache i).disk
  else Dinode.decode (c.blocks (c.iblock i)) (inodeOff (c.icache i).inum)

/-- Only inode `i` may differ, and of it only the lock, and whether and what it has been read. -/
structure Relocked (i : Slot) (valid : Bool) (d : Dinode) (c c' : Core) : Prop where
  sb : c'.sb = c.sb
  blocks : c'.blocks = c.blocks
  log : c'.log = c.log
  others : ∀ j, j ≠ i → c'.icache j = c.icache j
  inum : (c'.icache i).inum = (c.icache i).inum
  valid : (c'.icache i).valid = valid
  disk : (c'.icache i).disk = d

section Relocked

variable {i : Slot} {v v' : Bool} {d d' : Dinode} {c c' c'' : Core}

theorem setDisk_relocked (c : Core) (i : Slot) (d : Dinode) :
    Relocked i (c.icache i).valid d c (c.setDisk i d) := by
  constructor
  case others =>
    intro j other
    exact update_of_ne other _ _
  all_goals simp [setDisk]

theorem Relocked.trans (first : Relocked i v d c c') (second : Relocked i v' d' c' c'') :
    Relocked i v' d' c c'' where
  sb := second.sb.trans first.sb
  blocks := second.blocks.trans first.blocks
  log := second.log.trans first.log
  others := fun j other => (second.others j other).trans (first.others j other)
  inum := second.inum.trans first.inum
  valid := second.valid
  disk := second.disk

/-- Who has the lock does not matter to what is read. -/
theorem Relocked.loaded (relocked : Relocked i (c.icache i).valid (c.icache i).disk c c') :
    c'.loaded i = c.loaded i := by
  unfold Core.loaded Core.iblock
  rw [relocked.valid, relocked.disk, relocked.blocks, relocked.sb, relocked.inum]

theorem Relocked.loaded_other (relocked : Relocked i v d c c') {j : Slot} (other : j ≠ i) :
    c'.loaded j = c.loaded j := by
  unfold Core.loaded Core.iblock
  rw [relocked.others j other, relocked.blocks, relocked.sb]

end Relocked

end Core

section Inodes

variable {s : State} {i : Slot}

/-- The lock of an inode changes hands. -/
theorem setLock_relocked (s : State) (i : Slot) (lock : Sleeplock) :
    Core.Relocked i (s.icache i).valid (s.disk i) s.core
      (s.setInode i ((s.icache i).setLock lock)).core := by
  constructor
  case others =>
    intro j other
    exact update_of_ne other _ _
  all_goals simp [State.core, State.setInode, Inode.setLock, State.disk]

theorem setDisk_ensures (d : Dinode) :
    Safe (setDisk i d) s fun _ s' => s'.core = s.core.setDisk i d := .update rfl

theorem setSize_ensures (size : Nat) :
    Safe (setSize i size) s
      fun _ s' => s'.core = s.core.setDisk i { s.disk i with size := size } :=
  .update rfl

theorem iupdate_ensures (room : Room 1 s) :
    Safe (iupdate i) s fun _ s' => ∃ data, s'.core = s.core.write (s.core.iblock i) data := by
  refine .getBind (.bind (bread_ensures _) ?_)
  rintro _ s₁ ⟨-, same⟩
  have log : s₁.log = s.log := congrArg Core.log same
  refine (relog_ensures _ _ (room.congr (by rw [log]) (by rw [log]))).mono fun _ s₂ written => ?_
  rw [same] at written
  exact ⟨_, written⟩

theorem acquiresleep_ensures :
    Safe (acquiresleep i) s fun _ s' =>
      Core.Relocked i (s.icache i).valid (s.disk i) s.core s'.core := by
  refine .getBind ?_
  split
  · exact stop_ensures (by decide)
  · split
    · exact stop_ensures (by decide)
    · exact .update (setLock_relocked s i _)

theorem releasesleep_ensures :
    Safe (releasesleep i) s fun _ s' =>
      Core.Relocked i (s.icache i).valid (s.disk i) s.core s'.core := by
  refine .getBind ?_
  dsimp only
  split
  · exact stop_ensures (by decide)
  · split
    · exact .update (setLock_relocked s i _)
    · exact .update (setLock_relocked s i _)

theorem iunlock_ensures :
    Safe (iunlock (some i)) s fun _ s' =>
      Core.Relocked i (s.icache i).valid (s.disk i) s.core s'.core := by
  have holding : Safe (holdingsleep i) s fun _ s' => s' = s := by
    refine .getBind ?_
    dsimp only
    split
    · exact stop_ensures (by decide)
    · exact .pure rfl
  refine .bind holding ?_
  rintro held _ rfl
  refine .getBind (.bind (panicIf_ensures (by decide)) ?_)
  rintro _ _ rfl
  exact releasesleep_ensures

theorem loadInode_ensures :
    Safe (loadInode i) s fun _ s' =>
      Core.Relocked i true (s.core.loaded i) s.core s'.core := by
  refine .getBind ?_
  dsimp only
  split
  next valid =>
    refine .pure ⟨rfl, rfl, rfl, fun _ _ => rfl, rfl, valid, ?_⟩
    exact (if_pos valid).symm
  next stale =>
    refine .bind (bread_ensures _) ?_
    rintro _ s₁ ⟨rfl, same₁⟩
    refine .bind (setDisk_ensures _) fun _ s₂ same₂ => ?_
    refine .bind (brelse_ensures _) fun _ s₃ same₃ => ?_
    refine .updateBind ?_
    refine (panicIf_ensures (by decide)).mono ?_
    rintro _ _ rfl
    have core : s₃.core = s.core.setDisk i
        (Dinode.decode (s.blocks (iblock s.sb (s.icache i).inum)) (inodeOff (s.icache i).inum)) := by
      rw [same₃, same₂, same₁]
    have loaded : s.core.loaded i = Dinode.decode (s.blocks (iblock s.sb (s.icache i).inum))
        (inodeOff (s.icache i).inum) := if_neg stale
    rw [← loaded] at core
    have entry : s₃.icache = update s.icache i { s.icache i with disk := s.core.loaded i } :=
      congrArg Core.icache core
    have sb : s₃.sb = s.sb := congrArg Core.sb core
    have blocks : s₃.blocks = s.blocks := congrArg Core.blocks core
    have log : s₃.log = s.log := congrArg Core.log core
    constructor
    case sb => exact sb
    case blocks => exact blocks
    case log => exact log
    case others =>
      intro j other
      show update s₃.icache i _ j = s.icache j
      rw [update_of_ne other, entry, update_of_ne other]
    all_goals simp [State.core, State.setInode, entry]

theorem ilock_ensures :
    Safe (ilock (some i)) s fun _ s' =>
      Core.Relocked i true (s.core.loaded i) s.core s'.core := by
  refine .getBind (.bind (panicIf_ensures (by decide)) ?_)
  rintro _ s rfl
  refine .bind (acquiresleep_ensures) fun _ s₁ locked => ?_
  refine (loadInode_ensures).mono fun _ s₂ loaded => ?_
  rw [Core.Relocked.loaded (c := s.core) locked] at loaded
  exact locked.trans loaded

variable {k : Fin (NDIRECT + 1)} {bn : Nat}

/-- A hole is filled by `balloc`. -/
theorem bmapAt_fills (small : s.sb.size ≤ BPB) (room : Room 2 s) (hole : (s.disk i).addrs k = 0) :
    Safe (bmapAt i k) s fun b s' => ¬ Used (s.blocks (bblock s.sb 0)) b ∧
      s'.core = ((s.core.write (bblock s.sb 0) (mark (s.blocks (bblock s.sb 0)) b)).write b
        fun _ => 0).setDisk i { s.disk i with addrs := update (s.disk i).addrs k b } := by
  refine .getBind ?_
  rw [if_pos hole]
  refine .bind (balloc_ensures small room) ?_
  rintro b s₁ ⟨free, filled⟩
  refine .bind (setDisk_ensures _) fun _ s₂ set => ?_
  refine .pure ⟨free, ?_⟩
  rw [set, filled]

theorem bmapAt_finds (there : (s.disk i).addrs k ≠ 0) :
    Safe (bmapAt i k) s fun b s' => b = (s.disk i).addrs k ∧ s' = s := by
  refine .getBind ?_
  rw [if_neg there]
  exact .pure ⟨rfl, rfl⟩

theorem bmap_direct (direct : bn < NDIRECT) :
    bmap i bn = bmapAt i ⟨bn, Nat.lt_succ_of_lt direct⟩ := by
  unfold bmap
  rw [dif_pos direct]

/-- A block that is there is found without a change. -/
theorem bmap_finds (mapped : (s.disk i).Mapped s.blocks bn) :
    Safe (bmap i bn) s fun _ s' => s'.core = s.core := by
  unfold Dinode.Mapped at mapped
  by_cases direct : bn < NDIRECT
  · rw [dif_pos direct] at mapped
    rw [bmap_direct direct]
    exact (bmapAt_finds mapped).mono fun _ _ found => by rw [found.2]
  · rw [dif_neg direct] at mapped
    obtain ⟨inside, table, entry⟩ := mapped
    unfold bmap
    rw [dif_neg direct, if_pos inside]
    refine .bind (bmapAt_finds table) ?_
    rintro _ s₁ ⟨rfl, rfl⟩
    refine .bind (bread_ensures _) ?_
    rintro _ s₂ ⟨rfl, same⟩
    rw [if_neg entry]
    refine .bind (brelse_ensures _) fun _ s₃ released => ?_
    exact .pure (released.trans same)

theorem readLoop_ensures {off : Nat}
    (mapped : ∀ bn, bn * BSIZE < off + n → (s.disk i).Mapped s.blocks bn) :
    Safe (readLoop i off n) s fun text s' => text.length = n ∧ s'.core = s.core := by
  induction n using Nat.strong_induction_on generalizing off s with
  | _ n ih =>
    rw [readLoop]
    split
    next more =>
      have here : off / BSIZE * BSIZE < off + n := by
        have := Nat.div_mul_le_self off BSIZE
        omega
      refine .bind (bmap_finds (mapped _ here)) fun b s₁ same₁ => ?_
      refine .bind (bread_ensures b) ?_
      rintro data s₂ ⟨-, same₂⟩
      refine .bind (brelse_ensures b) fun _ s₃ same₃ => ?_
      have same : s₃.core = s.core := same₃.trans (same₂.trans same₁)
      have some : 0 < chunk off n := chunk_pos more
      have inside : chunk off n ≤ n := Nat.min_le_left _ _
      have rest : ∀ bn, bn * BSIZE < off + chunk off n + (n - chunk off n) →
          (s₃.disk i).Mapped s₃.blocks bn := by
        intro bn below
        rw [Nat.add_assoc, Nat.add_sub_cancel' inside] at below
        have disk : s₃.disk i = s.disk i := congrArg (fun c => (c.icache i).disk) same
        have blocks : s₃.blocks = s.blocks := congrArg Core.blocks same
        rw [disk, blocks]
        exact mapped bn below
      have less : n - chunk off n < n := Nat.sub_lt (Nat.pos_of_ne_zero more) some
      have tail : Safe (readLoop i (off + chunk off n) (n - chunk off n)) s₃
          fun text s' => text.length = n - chunk off n ∧ s'.core = s₃.core := ih _ less rest
      refine .bind tail ?_
      rintro text s₄ ⟨length, same₄⟩
      refine .pure ⟨?_, same₄.trans same⟩
      simp [Block.slice, length]
      omega
    next none =>
      exact .pure ⟨by simpa using Eq.symm (not_ne_iff.mp none), rfl⟩

/-- Reading a file whose blocks are all there. -/
theorem readi_ensures {off : Nat} (file : (s.disk i).type ≠ T_DEV) (inside : off ≤ (s.disk i).size)
    (few : off + n < 2 ^ 32) (mapped : ∀ bn, bn * BSIZE < (s.disk i).size → bn * BSIZE < off + n →
      (s.disk i).Mapped s.blocks bn) :
    Safe (readi i off n) s fun read s' =>
      bytesRead read = min n ((s.disk i).size - off) ∧ s'.core = s.core := by
  refine .getBind ?_
  have fits : ¬ ((s.disk i).size < off ∨ u32 (off + n) < off) := by
    rw [u32, Nat.mod_eq_of_lt few]
    omega
  rw [if_neg file, if_neg fits]
  refine .bind (readLoop_ensures fun bn below => mapped bn (by omega) (by omega)) ?_
  rintro text s₁ ⟨length, same⟩
  exact .pure ⟨length, same⟩

/-- A console gives its inode away while it writes, and takes it back as it was. -/
theorem consolewrite_ensures {text : List Byte} (valid : (s.icache i).valid = true) :
    Safe (consolewrite i text n) s fun _ s' =>
      Core.Relocked i true (s.disk i) s.core s'.core := by
  refine .bind iunlock_ensures fun _ s₁ unlocked => ?_
  have valid₁ : (s₁.icache i).valid = true := unlocked.valid.trans valid
  have again : ∀ t : State, t.core = s₁.core →
      Safe (ilock (some i)) t fun _ s' => Core.Relocked i true (s.disk i) s.core s'.core := by
    intro t same
    refine ilock_ensures.mono fun _ s₂ locked => ?_
    have loaded : t.core.loaded i = s.disk i := by
      rw [same]
      exact (if_pos valid₁).trans unlocked.disk
    rw [loaded, same] at locked
    exact unlocked.trans locked
  split
  · refine .updateBind ?_
    refine .bind (again _ rfl) fun _ s₂ relocked => ?_
    exact .pure relocked
  · refine .bind (again _ rfl) fun _ s₂ relocked => ?_
    exact .pure relocked

end Inodes

end Xv6.Fs
