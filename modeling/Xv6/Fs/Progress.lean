/-
# Xv6.Fs.Progress -- the copy loop and the blocks it logs

The loop of `filecopy`, round by round, and its invariant `Progress`: which blocks are in the log
after a number of bytes. These are the blocks of the destination written so far, the block with its
inode, and the bitmap if one of them had to be allocated. The invariant is carried only as far as the
direct blocks go; MAXOPBLOCKS of them are already too many for one transaction.
-/
import Xv6.Fs.Effects
import Xv6.Lib.Graded

namespace Xv6.Fs
open Lib Finset Function
set_option autoImplicit false

/-! ## The copy, round by round -/

/-- One round of the copy loop: the new offset, or `none` at the end of the source. -/
def copyRound (src dest : Slot) (offset : Nat) : FsM (Option Nat) := do
  let read ← readi src offset BUF_SIZE
  if bytesRead read = 0 then
    return none
  else
    let s ← get
    setSize dest (u32 ((s.disk dest).size + bytesRead read))
    let _ ← writei dest (read.getD []) offset (bytesRead read)
    iupdate dest
    return some (u32 (offset + bytesRead read))

/-- The copy loop, broken off after some rounds. -/
def copyRounds (src dest : Slot) : Nat → Nat → FsM Unit
  | 0, _ => pure ()
  | rounds + 1, offset => do
    match ← copyRound src dest offset with
    | none => return ()
    | some offset => copyRounds src dest rounds offset

/-- The transaction of `filecopy` up to its loop. -/
def copyStart (src dest : Slot) : FsM Unit := do
  beginOp
  ilock (some src)
  ilock (some dest)
  setSize dest 0

/-- The transaction of `filecopy`, broken off after some rounds. -/
def copyPrefix (rounds : Nat) (src dest : Slot) : FsM Unit := do
  copyStart src dest
  copyRounds src dest rounds 0

/-- The transaction of `filecopy` before its `end_op`. -/
def copyBody (fuel : Nat) (src dest : Slot) : FsM Unit := do
  copyStart src dest
  copyLoop src dest fuel 0

section Loop

variable {src dest : Slot}

theorem copyLoop_succ (fuel offset : Nat) :
    copyLoop src dest (fuel + 1) offset = copyRound src dest offset >>= fun
      | none => pure ()
      | some offset => copyLoop src dest fuel offset := by
  rw [copyLoop, copyRound]
  simp only [bind_assoc]
  congr 1
  funext read
  split
  · rfl
  · simp only [bind_assoc, pure_bind]

variable {fuel offset : Nat} {s : State}

/-- A loop that comes to its end can be broken off anywhere. -/
theorem copyRounds_of_loop {s' : State} (ran : copyLoop src dest fuel offset s = .ok ((), s'))
    (rounds : Nat) : ∃ s'', copyRounds src dest rounds offset s = .ok ((), s'') := by
  induction rounds generalizing fuel offset s with
  | zero => exact ⟨s, rfl⟩
  | succ rounds ih =>
    cases fuel with
    | zero => cases ran
    | succ fuel =>
      rw [copyLoop_succ] at ran
      obtain ⟨next, s₁, first, rest⟩ := run_bind ran
      rw [copyRounds, bind_ran first]
      cases next with
      | none => exact ⟨s₁, rfl⟩
      | some offset => exact ih rest

/-- A loop that ends in the panic of `log_write` does so in some round. -/
theorem copyRounds_of_panic (ran : copyLoop src dest fuel offset s = .error tooBig) :
    copyRounds src dest fuel offset s = .error tooBig := by
  induction fuel generalizing offset s with
  | zero => cases ran
  | succ fuel ih =>
    rw [copyLoop_succ] at ran
    cases first : copyRound src dest offset s with
    | error e =>
      rw [bind_failed first] at ran
      rw [copyRounds, bind_failed first, ran]
    | ok p =>
      obtain ⟨next, s₁⟩ := p
      rw [bind_ran first] at ran
      rw [copyRounds, bind_ran first]
      cases next with
      | none => cases ran
      | some offset => exact ih ran

end Loop

/-! ## The state before -/

/-- The number of blocks that so many bytes take. -/
def blocksOf (size : Nat) : Nat := (size + (BSIZE - 1)) / BSIZE

/-- The block of the bitmap; one is enough for FSSIZE blocks. -/
def State.bitmap (s : State) : Nat := bblock s.sb 0

/-- A file system in order, as far as the copy of `src` to `dest` is concerned. -/
structure Admitted (s : State) (src dest : Slot) : Prop where
  apart : src ≠ dest
  outstanding : 0 ≤ s.log.outstanding
  idle : s.log.outstanding = 0 → s.log.lh = []
  capacity : s.log.size = LOGSIZE
  size : s.sb.size ≤ FSSIZE
  -- the source is a file, and has its blocks
  file : (s.core.loaded src).type ≠ T_DEV
  length : (s.core.loaded src).size ≤ MAXFILE * BSIZE
  mapped : ∀ bn, bn * BSIZE < (s.core.loaded src).size →
    (s.core.loaded src).Mapped s.blocks bn
  table : (s.core.loaded src).addrs (Fin.last NDIRECT) ≠ s.core.iblock dest
  -- no two things are in one block, and the bitmap knows
  bitmap : s.bitmap ≠ s.core.iblock dest
  marked : ∀ b, b = 0 ∨ b = s.bitmap ∨ b = s.core.iblock dest → Used (s.blocks s.bitmap) b
  placed : ∀ k, k.1 < NDIRECT → (s.core.loaded dest).addrs k ≠ 0 →
    Used (s.blocks s.bitmap) ((s.core.loaded dest).addrs k) ∧
      (s.core.loaded dest).addrs k ≠ s.bitmap ∧ (s.core.loaded dest).addrs k ≠ s.core.iblock dest
  distinct : ∀ j k, j.1 < NDIRECT → k.1 < NDIRECT → (s.core.loaded dest).addrs j ≠ 0 →
    (s.core.loaded dest).addrs j = (s.core.loaded dest).addrs k → j = k

/-! ## The blocks in the log -/

/-- A place of an inode. -/
abbrev Place := Fin (NDIRECT + 1)

/-- What is logged once the first `m` blocks of the destination have been written, and, with `ino`,
its inode. -/
def touched (s₀ : State) (dest : Slot) (ino : Bool) (m : Nat) (addrs : Place → Nat) : Finset Nat :=
  (if ino then {s₀.core.iblock dest} else ∅) ∪
    (if ∃ k : Place, k.1 < m ∧ (s₀.core.loaded dest).addrs k = 0 then {s₀.bitmap} else ∅) ∪
      (univ.filter fun k : Place => k.1 < m).image addrs

variable {b : Nat}

section Touched

variable {s₀ : State} {dest : Slot} {ino : Bool} {m : Nat} {addrs : Place → Nat}

theorem mem_touched : b ∈ touched s₀ dest ino m addrs ↔
    (ino = true ∧ b = s₀.core.iblock dest) ∨
      ((∃ k : Place, k.1 < m ∧ (s₀.core.loaded dest).addrs k = 0) ∧ b = s₀.bitmap) ∨
        ∃ k : Place, k.1 < m ∧ addrs k = b := by
  simp only [touched, mem_union, mem_image, mem_filter, mem_univ,
    true_and]
  rw [or_assoc]
  refine or_congr ?_ (or_congr ?_ Iff.rfl)
  · split <;> simp [*]
  · split <;> simp [*]

theorem card_places (few : m ≤ NDIRECT + 1) :
    (univ.filter fun k : Place => k.1 < m).card = m := by
  interval_cases m <;> rfl

end Touched

/-- How far the copy is: the first `m` blocks of the destination are written, which is `size` bytes
long, and with `ino` its inode. -/
structure Progress (s₀ : State) (src dest : Slot) (ino : Bool) (m size : Nat) (c : Core) : Prop where
  sb : c.sb = s₀.sb
  capacity : c.log.size = s₀.log.size
  outstanding : c.log.outstanding = s₀.log.outstanding + 1
  source : (c.icache src).disk = s₀.core.loaded src
  inum : (c.icache dest).inum = (s₀.icache dest).inum
  type : (c.icache dest).disk.type = (s₀.core.loaded dest).type
  length : (c.icache dest).disk.size = size
  later : ∀ k : Place, m ≤ k.1 → (c.icache dest).disk.addrs k = (s₀.core.loaded dest).addrs k
  there : ∀ k : Place, k.1 < m → (c.icache dest).disk.addrs k ≠ 0
  marked : ∀ b, b = 0 ∨ b = s₀.bitmap ∨ b = s₀.core.iblock dest → Used (c.blocks s₀.bitmap) b
  placed : ∀ k : Place, k.1 < NDIRECT → (c.icache dest).disk.addrs k ≠ 0 →
    Used (c.blocks s₀.bitmap) ((c.icache dest).disk.addrs k) ∧
      (c.icache dest).disk.addrs k ≠ s₀.bitmap ∧
      (c.icache dest).disk.addrs k ≠ s₀.core.iblock dest
  distinct : ∀ j k : Place, j.1 < NDIRECT → k.1 < NDIRECT → (c.icache dest).disk.addrs j ≠ 0 →
    (c.icache dest).disk.addrs j = (c.icache dest).disk.addrs k → j = k
  log : Absorbs s₀.log.lh (touched s₀ dest ino m (c.icache dest).disk.addrs) c.log.lh

section Progress

variable {s₀ : State} {src dest : Slot} {ino : Bool} {m size : Nat} {c : Core}

section

variable (progress : Progress s₀ src dest ino m size c)
include progress

/-- The exact number of blocks. -/
theorem Progress.card (bitmap : s₀.bitmap ≠ s₀.core.iblock dest) (few : m ≤ NDIRECT) :
    (touched s₀ dest ino m (c.icache dest).disk.addrs).card = (if ino then 1 else 0) +
      (if ∃ k : Place, k.1 < m ∧ (s₀.core.loaded dest).addrs k = 0 then 1 else 0) + m := by
  have places : ((univ.filter fun k : Place => k.1 < m).image
      (c.icache dest).disk.addrs).card = m := by
    rw [card_image_of_injOn, card_places (by omega)]
    intro j inside k inside' same
    rw [mem_coe, mem_filter] at inside inside'
    exact progress.distinct j k (by omega) (by omega) (progress.there j inside.2) same
  have data : ∀ b, b ∈ (univ.filter fun k : Place => k.1 < m).image
      (c.icache dest).disk.addrs → b ≠ s₀.bitmap ∧ b ≠ s₀.core.iblock dest := by
    intro b inside
    rw [mem_image] at inside
    obtain ⟨k, below, rfl⟩ := inside
    rw [mem_filter] at below
    exact (progress.placed k (by omega) (progress.there k below.2)).2
  unfold touched
  rw [card_union_of_disjoint, card_union_of_disjoint, places]
  · congr 2
    · split <;> rfl
    · split <;> rfl
  · rw [disjoint_left]
    intro b inode
    split at inode
    · rw [mem_singleton] at inode
      subst inode
      split
      · rw [mem_singleton]
        exact bitmap.symm
      · exact notMem_empty _
    · exact absurd inode (notMem_empty _)
  · rw [disjoint_left]
    intro b front inside
    obtain ⟨notBitmap, notInode⟩ := data b inside
    rw [mem_union] at front
    rcases front with front | front
    · split at front
      · exact notInode (mem_singleton.mp front)
      · exact notMem_empty _ front
    · split at front
      · exact notBitmap (mem_singleton.mp front)
      · exact notMem_empty _ front

/-- A block other than the bitmap is written. -/
theorem Progress.write (data : Block) (other : b ≠ s₀.bitmap) {ino' : Bool} {m' : Nat}
    (more : m ≤ m') (there : ∀ k : Place, k.1 < m' → (c.icache dest).disk.addrs k ≠ 0)
    (adds : touched s₀ dest ino' m' (c.icache dest).disk.addrs =
      insert b (touched s₀ dest ino m (c.icache dest).disk.addrs)) :
    Progress s₀ src dest ino' m' size (c.write b data) := by
  have bitmap : (c.write b data).blocks s₀.bitmap = c.blocks s₀.bitmap :=
    update_of_ne other.symm _ _
  refine { progress with
    later := fun k after => progress.later k (more.trans after)
    there := there
    marked := bitmap ▸ progress.marked
    placed := bitmap ▸ progress.placed
    log := ?_ }
  show Absorbs _ (touched _ _ _ _ (c.icache dest).disk.addrs) (absorb c.log.lh b)
  rw [adds]
  exact progress.log.insert b

/-- A block of the destination that is there is written. -/
theorem Progress.writeData {k : Place} (direct : k.1 < NDIRECT) (next : k.1 ≤ m)
    (there : (c.icache dest).disk.addrs k ≠ 0) (data : Block) :
    Progress s₀ src dest ino (max m (k.1 + 1)) size
      (c.write ((c.icache dest).disk.addrs k) data) := by
  apply progress.write data (progress.placed k direct there).2.1 (le_max_left _ _)
  case there =>
    intro j below
    by_cases old : j.1 < m
    · exact progress.there j old
    · have same : j = k := Fin.ext (by omega)
      rwa [same]
  case adds =>
    have upto : ∀ j : Place, j.1 < max m (k.1 + 1) ↔ j.1 < m ∨ j = k := by
      intro j
      rw [Fin.ext_iff]
      omega
    -- nothing is allocated: a block that is there and not yet written was there before
    have holes : (∃ j : Place, j.1 < max m (k.1 + 1) ∧ (s₀.core.loaded dest).addrs j = 0) ↔
        ∃ j : Place, j.1 < m ∧ (s₀.core.loaded dest).addrs j = 0 := by
      constructor
      · rintro ⟨j, below, hole⟩
        by_cases old : j.1 < m
        · exact ⟨j, old, hole⟩
        · rcases (upto j).mp below with before | rfl
          · exact absurd before old
          · rw [← progress.later j (by omega)] at hole
            exact absurd hole there
      · rintro ⟨j, below, hole⟩
        exact ⟨j, (upto j).mpr (.inl below), hole⟩
    ext b
    rw [mem_insert, mem_touched, mem_touched, holes]
    have data : (∃ j : Place, j.1 < max m (k.1 + 1) ∧ (c.icache dest).disk.addrs j = b) ↔
        b = (c.icache dest).disk.addrs k ∨
          ∃ j : Place, j.1 < m ∧ (c.icache dest).disk.addrs j = b := by
      simp only [upto, or_and_right, exists_or, exists_eq_left]
      rw [or_comm, eq_comm]
    rw [data, or_left_comm (b := b = (c.icache dest).disk.addrs k)]
    exact or_left_comm

/-- The inode of the destination is written. -/
theorem Progress.writeInode (bitmap : s₀.bitmap ≠ s₀.core.iblock dest) (data : Block) :
    Progress s₀ src dest true m size (c.write (s₀.core.iblock dest) data) := by
  apply progress.write data bitmap.symm le_rfl progress.there
  ext b
  rw [mem_insert, mem_touched, mem_touched]
  by_cases same : b = s₀.core.iblock dest
  · simp [same]
  · simp [same]

end

/-- The core after `bmap` has allocated block `b` for place `k`. -/
def Core.fill (c : Core) (bitmap : Nat) (i : Slot) (k : Place) (b : Nat) : Core :=
  ((c.write bitmap (mark (c.blocks bitmap) b)).write b fun _ => 0).setDisk i
    { (c.icache i).disk with addrs := update (c.icache i).disk.addrs k b }

section Fill

variable {b : Nat} {k : Place}

theorem Core.fill_disk : ((c.fill s₀.bitmap dest k b).icache dest) = { c.icache dest with disk :=
    { (c.icache dest).disk with addrs := update (c.icache dest).disk.addrs k b } } :=
  update_self ..

theorem Core.fill_addrs (j : Place) : ((c.fill s₀.bitmap dest k b).icache dest).disk.addrs j =
    if j = k then b else (c.icache dest).disk.addrs j := by
  rw [Core.fill_disk]
  exact update_apply ..

theorem Core.fill_bitmap (other : b ≠ s₀.bitmap) :
    (c.fill s₀.bitmap dest k b).blocks s₀.bitmap = mark (c.blocks s₀.bitmap) b := by
  show update (update c.blocks s₀.bitmap _) b _ s₀.bitmap = _
  rw [update_of_ne other.symm, update_self]

section

variable (progress : Progress s₀ src dest ino m size c)
include progress

/-- An allocation logs the bitmap and the block. -/
theorem Progress.touched_fill (next : k.1 = m) (hole : (c.icache dest).disk.addrs k = 0) :
    touched s₀ dest ino (m + 1) ((c.fill s₀.bitmap dest k b).icache dest).disk.addrs =
      insert b (insert s₀.bitmap (touched s₀ dest ino m (c.icache dest).disk.addrs)) := by
  have allocated : ∃ j : Place, j.1 < m + 1 ∧ (s₀.core.loaded dest).addrs j = 0 :=
    ⟨k, by omega, by rw [← progress.later k next.ge]; exact hole⟩
  ext x
  have data : (∃ j : Place, j.1 < m + 1 ∧
      ((c.fill s₀.bitmap dest k b).icache dest).disk.addrs j = x) ↔
        x = b ∨ ∃ j : Place, j.1 < m ∧ (c.icache dest).disk.addrs j = x := by
    constructor
    · rintro ⟨j, below, here⟩
      rw [Core.fill_addrs] at here
      split at here
      next => exact .inl here.symm
      next other => exact .inr ⟨j, by rw [Fin.ext_iff] at other; omega, here⟩
    · rintro (rfl | ⟨j, below, here⟩)
      · exact ⟨k, by omega, by rw [Core.fill_addrs, if_pos rfl]⟩
      · exact ⟨j, by omega, by rw [Core.fill_addrs, if_neg (by rintro rfl; omega)]; exact here⟩
  rw [mem_insert, mem_insert, mem_touched, mem_touched, data]
  constructor
  · rintro (inode | ⟨-, bitmap⟩ | new | old)
    · exact .inr (.inr (.inl inode))
    · exact .inr (.inl bitmap)
    · exact .inl new
    · exact .inr (.inr (.inr (.inr old)))
  · rintro (new | bitmap | inode | ⟨-, bitmap⟩ | old)
    · exact .inr (.inr (.inl new))
    · exact .inr (.inl ⟨allocated, bitmap⟩)
    · exact .inl inode
    · exact .inr (.inl ⟨allocated, bitmap⟩)
    · exact .inr (.inr (.inr old))

/-- A free block is none of those that matter. -/
theorem Progress.fresh (free : ¬ Used (c.blocks s₀.bitmap) b) :
    b ≠ 0 ∧ b ≠ s₀.bitmap ∧ b ≠ s₀.core.iblock dest ∧
      ∀ j : Place, j.1 < NDIRECT → (c.icache dest).disk.addrs j ≠ b := by
  have special : ∀ x, x = 0 ∨ x = s₀.bitmap ∨ x = s₀.core.iblock dest → b ≠ x := by
    rintro x special rfl
    exact free (progress.marked _ special)
  have nonzero := special 0 (.inl rfl)
  refine ⟨nonzero, special _ (.inr (.inl rfl)), special _ (.inr (.inr rfl)), ?_⟩
  intro j inside same
  have used := (progress.placed j inside (by rwa [same])).1
  rw [same] at used
  exact free used

/-- The next block of the destination is allocated. -/
theorem Progress.fill (apart : src ≠ dest) (direct : k.1 < NDIRECT) (next : k.1 = m)
    (hole : (c.icache dest).disk.addrs k = 0) (free : ¬ Used (c.blocks s₀.bitmap) b) :
    Progress s₀ src dest ino (m + 1) size (c.fill s₀.bitmap dest k b) := by
  obtain ⟨nonzero, notBitmap, notInode, fresh⟩ := progress.fresh free
  constructor
  case sb => exact progress.sb
  case capacity => exact progress.capacity
  case outstanding => exact progress.outstanding
  case source =>
    show (update c.icache dest _ src).disk = _
    rw [update_of_ne apart]
    exact progress.source
  case inum =>
    rw [Core.fill_disk]
    exact progress.inum
  case type =>
    rw [Core.fill_disk]
    exact progress.type
  case length =>
    rw [Core.fill_disk]
    exact progress.length
  case later =>
    intro j after
    rw [Core.fill_addrs, if_neg (by rintro rfl; omega)]
    exact progress.later j (by omega)
  case there =>
    intro j below
    rw [Core.fill_addrs]
    split
    next => exact nonzero
    next other => exact progress.there j (by rw [Fin.ext_iff] at other; omega)
  case marked =>
    intro x special
    rw [Core.fill_bitmap notBitmap]
    exact (progress.marked x special).mark b
  case placed =>
    intro j inside
    rw [Core.fill_bitmap notBitmap, Core.fill_addrs]
    split
    next => exact fun _ => ⟨used_mark _ b, notBitmap, notInode⟩
    next =>
      intro there
      obtain ⟨used, others⟩ := progress.placed j inside there
      exact ⟨used.mark b, others⟩
  case distinct =>
    intro j j' inside inside'
    rw [Core.fill_addrs, Core.fill_addrs]
    split <;> split
    next same same' => exact fun _ _ => same.trans same'.symm
    next => exact fun _ same => absurd same.symm (fresh j' inside')
    next => exact fun _ same => absurd same (fresh j inside)
    next => exact progress.distinct j j' inside inside'
  case log =>
    rw [progress.touched_fill next hole]
    exact (progress.log.insert _).insert _

end

end Fill

end Progress

/-! ## The loop -/

theorem blocksOf_bounds (off : Nat) : off / BSIZE ≤ blocksOf off ∧ blocksOf off ≤ off / BSIZE + 1 := by
  show off / 512 ≤ (off + 511) / 512 ∧ (off + 511) / 512 ≤ off / 512 + 1
  omega

variable {n : Nat}

/-- A chunk ends in the block it starts in. -/
theorem blocksOf_chunk {off : Nat} (more : n ≠ 0) :
    blocksOf (off + chunk off n) = off / BSIZE + 1 := by
  show (off + min n (512 - off % 512) + 511) / 512 = off / 512 + 1
  omega

section Rounds

variable {s₀ : State} {src dest : Slot} {ino : Bool} {m size : Nat} {s : State}

/-- There is room as long as only direct blocks are written. -/
theorem Progress.room (progress : Progress s₀ src dest ino m size s.core)
    (admitted : Admitted s₀ src dest) (short : s₀.log.lh.length ≤ MAXOPBLOCKS)
    (few : m ≤ NDIRECT) : Room 2 s := by
  refine ⟨progress.capacity.trans admitted.capacity, ?_⟩
  have length := progress.log.length_le
  have card : (touched s₀ dest ino m (s.core.icache dest).disk.addrs).card ≤ m + 2 := by
    rw [progress.card admitted.bitmap few]
    split <;> split <;> omega
  change s.log.lh.length ≤ _ at length
  change m ≤ 12 at few
  change s₀.log.lh.length ≤ 10 at short
  show s.log.lh.length + 2 < 30
  omega

theorem Room.one (room : Room (n + 1) s) : Room 1 s := room.congr rfl (by omega)

variable (admitted : Admitted s₀ src dest) (short : s₀.log.lh.length ≤ MAXOPBLOCKS)
include admitted short

/-- One block of the destination is found or allocated. -/
theorem bmap_progress (progress : Progress s₀ src dest ino m size s.core) {k : Nat}
    (direct : k < NDIRECT) (next : k ≤ m) (few : m ≤ NDIRECT) :
    Safe (bmap dest k) s fun b s' =>
      ∃ m', m ≤ m' ∧ m' ≤ max m (k + 1) ∧ Progress s₀ src dest ino m' size s'.core ∧
        b = (s'.disk dest).addrs ⟨k, Nat.lt_succ_of_lt direct⟩ ∧ b ≠ 0 ∧ k ≤ m' := by
  rw [bmap_direct direct]
  by_cases hole : (s.disk dest).addrs ⟨k, Nat.lt_succ_of_lt direct⟩ = 0
  · have last : k = m := by
      by_contra other
      exact progress.there ⟨k, Nat.lt_succ_of_lt direct⟩ (by show k < m; omega) hole
    have sb : s.sb = s₀.sb := progress.sb
    have bitmap : bblock s.sb 0 = s₀.bitmap := by rw [sb]; rfl
    have small : s.sb.size ≤ BPB := by
      rw [sb]
      exact admitted.size.trans (by decide)
    have room := progress.room admitted short few
    refine (bmapAt_fills small room hole).mono ?_
    rintro b s' ⟨free, filled⟩
    rw [bitmap] at free filled
    have grown := progress.fill admitted.apart direct last hole free
    have core : s'.core = s.core.fill s₀.bitmap dest ⟨k, Nat.lt_succ_of_lt direct⟩ b := filled
    have here : (s'.disk dest).addrs ⟨k, Nat.lt_succ_of_lt direct⟩ = b := by
      show (s'.core.icache dest).disk.addrs _ = b
      rw [core]
      simp [Core.fill, Core.setDisk]
    rw [← core] at grown
    refine ⟨m + 1, by omega, by omega, grown, here.symm, ?_, by omega⟩
    rw [← here]
    exact grown.there _ (by show k < m + 1; omega)
  · refine (bmapAt_finds hole).mono ?_
    rintro b s' ⟨rfl, rfl⟩
    exact ⟨m, le_rfl, le_max_left _ _, progress, rfl, hole, next⟩

theorem writeLoop_progress {off : Nat} {text : List Byte}
    (progress : Progress s₀ src dest ino (blocksOf off) size s.core)
    (inside : off + n ≤ NDIRECT * BSIZE) :
    Safe (writeLoop dest off text n) s fun _ s' =>
      Progress s₀ src dest ino (blocksOf (off + n)) size s'.core := by
  induction n using Nat.strong_induction_on generalizing off text s with
  | _ n ih =>
    rw [writeLoop]
    split
    next more =>
      have direct : off / BSIZE < NDIRECT := by
        change off + n ≤ 6144 at inside
        show off / 512 < 12
        omega
      obtain ⟨lower, upper⟩ := blocksOf_bounds off
      have found := bmap_progress admitted short progress direct lower (by omega)
      refine .bind found ?_
      rintro b s₁ ⟨m', atLeast, atMost, progress₁, rfl, there, next⟩
      refine .bind (bread_ensures _) ?_
      rintro data s₂ ⟨-, same⟩
      rw [← same] at progress₁
      have disk : s₁.disk dest = s₂.disk dest := congrArg (fun c => (c.icache dest).disk) same.symm
      rw [disk] at there ⊢
      have room := progress₁.room admitted short (by omega)
      refine relog_then _ _ room.one fun s₃ written => ?_
      have progress₂ := progress₁.writeData direct next there
        (data.put (off % BSIZE) (text.take (chunk off n)))
      have reached : max m' (off / BSIZE + 1) = blocksOf (off + chunk off n) := by
        rw [blocksOf_chunk more]
        omega
      rw [show s₂.core.write ((s₂.core.icache dest).disk.addrs _) _ = s₃.core from written.symm,
        reached] at progress₂
      have some : 0 < chunk off n := chunk_pos more
      have part : chunk off n ≤ n := Nat.min_le_left _ _
      have less : n - chunk off n < n := Nat.sub_lt (Nat.pos_of_ne_zero more) some
      have total : off + chunk off n + (n - chunk off n) = off + n := by omega
      have tail : Safe (writeLoop dest (off + chunk off n) (text.drop (chunk off n))
          (n - chunk off n)) s₃ fun _ s' => Progress s₀ src dest ino
            (blocksOf (off + chunk off n + (n - chunk off n))) size s'.core :=
        ih _ less progress₂ (by omega)
      rwa [total] at tail
    next none =>
      rw [not_ne_iff.mp none]
      exact .pure progress

omit admitted short in
/-- The size in memory changes. -/
theorem Progress.resize {c : Core} (progress : Progress s₀ src dest ino m size c)
    (apart : src ≠ dest) (size' : Nat) :
    Progress s₀ src dest ino m size'
      (c.setDisk dest { (c.icache dest).disk with size := size' }) := by
  have inode : (c.setDisk dest { (c.icache dest).disk with size := size' }).icache dest =
      { c.icache dest with disk := { (c.icache dest).disk with size := size' } } :=
    update_self ..
  have source : (c.setDisk dest { (c.icache dest).disk with size := size' }).icache src =
      c.icache src := update_of_ne apart _ _
  obtain ⟨sb, capacity, outstanding, disk, inum, type, -, later, there, marked, placed, distinct,
    log⟩ := progress
  constructor <;> (try rw [inode]) <;> (try rw [source]) <;> assumption

theorem writei_progress {off : Nat} {text : List Byte}
    (progress : Progress s₀ src dest ino (blocksOf off) (off + n) s.core)
    (file : (s₀.core.loaded dest).type ≠ T_DEV) (inside : off + n ≤ NDIRECT * BSIZE) :
    Safe (writei dest text off n) s fun _ s' =>
      Progress s₀ src dest ino (blocksOf (off + n)) (off + n) s'.core := by
  have type : (s.disk dest).type ≠ T_DEV := by
    rw [show (s.disk dest).type = _ from progress.type]
    exact file
  have length : (s.disk dest).size = off + n := progress.length
  change off + n ≤ 6144 at inside
  have wraps : u32 (off + n) = off + n := Nat.mod_eq_of_lt (by omega)
  refine .getBind ?_
  rw [if_neg type, if_neg (by rw [length, wraps]; omega),
    if_neg (by rw [wraps]; show ¬ 71680 < off + n; omega)]
  refine .bind (writeLoop_progress admitted short progress inside) fun _ s₁ progress₁ => ?_
  have length₁ : (s₁.disk dest).size = off + n := progress₁.length
  refine .bind (P := fun _ s' => s' = s₁) ?_ ?_
  · refine .getBind ?_
    rw [if_neg (by rw [length₁]; omega)]
    exact .pure rfl
  · rintro _ _ rfl
    exact .pure progress₁

omit short in
/-- What the copy reads of the source, wherever it is. -/
theorem readSource_ensures {off : Nat} (source : (s.core.icache src).disk = s₀.core.loaded src)
    (started : off ≤ (s₀.core.loaded src).size)
    (mapped : ∀ bn, bn * BSIZE < (s₀.core.loaded src).size → bn * BSIZE < off + BUF_SIZE →
      (s₀.core.loaded src).Mapped s.blocks bn) :
    Safe (readi src off BUF_SIZE) s fun read s' =>
      bytesRead read = min BUF_SIZE ((s₀.core.loaded src).size - off) ∧ s'.core = s.core := by
  have bound := admitted.length
  change (s₀.core.loaded src).size ≤ 71680 at bound
  change s.disk src = _ at source
  rw [← source] at started mapped bound ⊢
  apply readi_ensures _ started _ mapped
  · rw [source]
    exact admitted.file
  · show off + 50 < 2 ^ 32
    omega

/-- One round of the loop. -/
theorem copyRound_progress {off : Nat}
    (progress : Progress s₀ src dest (decide (0 < off)) (blocksOf off) off s.core)
    (file : (s₀.core.loaded dest).type ≠ T_DEV) (started : off ≤ (s₀.core.loaded src).size)
    (inside : min (s₀.core.loaded src).size (off + BUF_SIZE) ≤ NDIRECT * BSIZE) :
    Safe (copyRound src dest off) s fun next s' =>
      (next = none ∧ off = (s₀.core.loaded src).size ∧ s'.core = s.core) ∨
        ∃ off', next = some off' ∧ off' = min (s₀.core.loaded src).size (off + BUF_SIZE) ∧
          Progress s₀ src dest (decide (0 < off')) (blocksOf off') off' s'.core := by
  change min (s₀.core.loaded src).size (off + 50) ≤ 6144 at inside
  have mapped : ∀ bn, bn * BSIZE < (s₀.core.loaded src).size → bn * BSIZE < off + BUF_SIZE →
      (s₀.core.loaded src).Mapped s.blocks bn := by
    intro bn below below'
    have direct : bn < NDIRECT := by
      change bn * 512 < _ at below below'
      change _ < off + 50 at below'
      show bn < 12
      omega
    have there := admitted.mapped bn below
    unfold Dinode.Mapped at there ⊢
    rw [dif_pos direct] at there ⊢
    exact there
  refine .bind (readSource_ensures admitted progress.source started mapped) ?_
  rintro text s₁ ⟨length, same⟩
  rw [← same] at progress
  split
  next none =>
    refine .pure (.inl ⟨rfl, ?_, same⟩)
    change _ = min 50 _ at length
    omega
  next some =>
    have total : off + bytesRead text = min (s₀.core.loaded src).size (off + BUF_SIZE) := by
      change _ = min 50 _ at length
      show _ = min _ (off + 50)
      omega
    change _ = min _ (off + 50) at total
    have wraps : ∀ x, x = off + bytesRead text → u32 x = off + bytesRead text := by
      rintro x rfl
      exact Nat.mod_eq_of_lt (by omega)
    refine .getBind ?_
    have size₁ : (s₁.disk dest).size = off := progress.length
    rw [wraps _ (by rw [size₁]), wraps _ rfl]
    refine .bind (setSize_ensures _) fun _ s₂ resized => ?_
    have progress₂ := progress.resize admitted.apart (off + bytesRead text)
    rw [show s₁.core.setDisk dest { (s₁.core.icache dest).disk with size := off + bytesRead text } =
      s₂.core from resized.symm] at progress₂
    have written : Safe (writei dest (text.getD []) off (bytesRead text)) s₂ fun _ s' =>
        Progress s₀ src dest (decide (0 < off)) (blocksOf (off + bytesRead text))
          (off + bytesRead text) s'.core :=
      writei_progress admitted short progress₂ file (by show _ ≤ 6144; omega)
    refine .bind written fun _ s₃ progress₃ => ?_
    have few : blocksOf (off + bytesRead text) ≤ NDIRECT := by
      show (off + bytesRead text + 511) / 512 ≤ 12
      omega
    refine .bind (iupdate_ensures (progress₃.room admitted short few).one) ?_
    rintro _ s₄ ⟨data, updated⟩
    have progress₄ := progress₃.writeInode admitted.bitmap data
    have inode : s₃.core.iblock dest = s₀.core.iblock dest :=
      Core.iblock_congr progress₃.sb progress₃.inum
    rw [← inode, ← updated] at progress₄
    refine .pure (.inr ⟨_, rfl, total, ?_⟩)
    rwa [show decide (0 < off + bytesRead text) = true from decide_eq_true (by omega)]

/-- Where the copy is after a number of rounds, as long as these stay with the direct blocks. -/
theorem copyRounds_progress {off rounds : Nat}
    (progress : Progress s₀ src dest (decide (0 < off)) (blocksOf off) off s.core)
    (file : (s₀.core.loaded dest).type ≠ T_DEV) (started : off ≤ (s₀.core.loaded src).size)
    (inside : min (s₀.core.loaded src).size (off + rounds * BUF_SIZE) ≤ NDIRECT * BSIZE) :
    Safe (copyRounds src dest rounds off) s fun _ s' =>
      ∃ off', off' = min (s₀.core.loaded src).size (off + rounds * BUF_SIZE) ∧
        Progress s₀ src dest (decide (0 < off')) (blocksOf off') off' s'.core := by
  induction rounds generalizing off s with
  | zero => exact .pure ⟨off, by omega, progress⟩
  | succ rounds ih =>
    change min _ (off + (rounds + 1) * 50) ≤ 6144 at inside
    have round := copyRound_progress admitted short progress file started
      (by show min _ (off + 50) ≤ 6144; omega)
    refine .bind round ?_
    rintro next s₁ (⟨rfl, done, same⟩ | ⟨off', rfl, here, progress₁⟩)
    · rw [← same] at progress
      exact .pure ⟨off, by show off = min _ (off + (rounds + 1) * 50); omega, progress⟩
    · change off' = min _ (off + 50) at here
      refine (ih progress₁ (by omega) (by show min _ (off' + rounds * 50) ≤ 6144; omega)).mono ?_
      rintro _ s₂ ⟨off'', there, progress₂⟩
      change off'' = min _ (off' + rounds * 50) at there
      exact ⟨off'', by show off'' = min _ (off + (rounds + 1) * 50); omega, progress₂⟩

end Rounds

end Xv6.Fs
