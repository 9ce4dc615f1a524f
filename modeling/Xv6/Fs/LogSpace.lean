/-
# Xv6.Fs.LogSpace -- how many blocks filecopy logs

`begin_op` reserves room for MAXOPBLOCKS blocks in the log. `filewrite` writes long data in several
transactions for that reason; `filecopy` copies a whole file in one. A file of `n` blocks makes it log

* the `n` blocks of the destination,
* the block with the inode of the destination,
* the bitmap, if one of the blocks has to be allocated,

so the copy fits exactly if `n` is at most MAXOPBLOCKS - 2, or one more and nothing is allocated
(`filecopy_fits_log`). To a device it writes no block, and logs only the inode.
-/
import Xv6.Fs.Fcopy
import Xv6.Fs.Progress

namespace Xv6.Fs
open Lib Function
set_option autoImplicit false

/-! ## The property and the condition -/

/-- The transaction of `filecopy` keeps to its share of the log, however far it gets: it adds at most
MAXOPBLOCKS blocks, leaves the other calls theirs, and does not make `log_write` panic. -/
structure FitsLog (s : State) (src dest : Slot) : Prop where
  few : ∀ rounds s', copyPrefix rounds src dest s = .ok ((), s') →
    s'.log.lh.length ≤ s.log.lh.length + MAXOPBLOCKS
  reserved : ∀ rounds s', copyPrefix rounds src dest s = .ok ((), s') →
    s'.log.lh.length + (s'.log.outstanding - 1) * MAXOPBLOCKS ≤ LOGSIZE
  fits : ∀ rounds, copyPrefix rounds src dest s ≠ .error tooBig

/-- The blocks `D` have been logged when the first `off` bytes are copied. -/
def Logged (s : State) (dest : Slot) (off : Nat) (s' : State) (D : Finset Nat) : Prop :=
  Absorbs s.log.lh D s'.log.lh ∧
    if (s.core.loaded dest).type = T_DEV then D ⊆ {s.core.iblock dest}
    else D = touched s dest (decide (0 < off)) (blocksOf off) (s'.icache dest).disk.addrs

/-- The transaction logs at most MAXOPBLOCKS distinct blocks, those counted that the log had before. -/
def LogsFew (s : State) (src dest : Slot) : Prop :=
  ∀ rounds s', copyPrefix rounds src dest s = .ok ((), s') →
    ∃ D, Logged s dest (min (s.core.loaded src).size (rounds * BUF_SIZE)) s' D ∧ D.card ≤ MAXOPBLOCKS

/-- The copy needs no more blocks than `begin_op` reserves. -/
def SmallCopy (s : State) (src dest : Slot) : Prop :=
  (s.core.loaded dest).type = T_DEV ∨ blocksOf (s.core.loaded src).size + 2 ≤ MAXOPBLOCKS ∨
    blocksOf (s.core.loaded src).size + 1 = MAXOPBLOCKS ∧
      ∀ k, k.1 < blocksOf (s.core.loaded src).size → (s.core.loaded dest).addrs k ≠ 0

/-- The copy is not cut short by another failure than that of the log, such as a full disk. -/
def Uncut (s : State) (src dest : Slot) : Prop :=
  ∃ fuel, (∃ s', copyBody fuel src dest s = .ok ((), s')) ∨ copyBody fuel src dest s = .error tooBig

/-! ## The start of the transaction -/

theorem beginOp_ensures {s : State} : Safe beginOp s fun _ s' =>
    s.log.lh.length + (s.log.outstanding + 1) * MAXOPBLOCKS ≤ LOGSIZE ∧
      s'.core = { s.core with log := { s.log with outstanding := s.log.outstanding + 1 } } := by
  refine .getBind ?_
  split
  · exact stop_ensures (by decide)
  · split
    · exact stop_ensures (by decide)
    next reserved => exact .update ⟨not_lt.mp reserved, rfl⟩

/-- The state in which the loop starts. -/
structure Started (s₀ : State) (src dest : Slot) (c : Core) : Prop where
  reserved : s₀.log.lh.length + (s₀.log.outstanding + 1) * MAXOPBLOCKS ≤ LOGSIZE
  sb : c.sb = s₀.sb
  blocks : c.blocks = s₀.blocks
  log : c.log = { s₀.log with outstanding := s₀.log.outstanding + 1 }
  source : (c.icache src).disk = s₀.core.loaded src
  inum : (c.icache dest).inum = (s₀.icache dest).inum
  valid : (c.icache dest).valid = true
  disk : (c.icache dest).disk = { s₀.core.loaded dest with size := 0 }

theorem copyStart_ensures {s₀ : State} {src dest : Slot} (apart : src ≠ dest) :
    Safe (copyStart src dest) s₀ fun _ s' => Started s₀ src dest s'.core := by
  refine .bind beginOp_ensures ?_
  rintro _ s₁ ⟨reserved, begun⟩
  refine .bind ilock_ensures fun _ s₂ lockedSrc => ?_
  refine .bind ilock_ensures fun _ s₃ lockedDest => ?_
  refine (setSize_ensures 0).mono fun _ s₄ emptied => ?_
  have loadedSrc : s₁.core.loaded src = s₀.core.loaded src := by rw [begun]; rfl
  have loadedDest : s₂.core.loaded dest = s₀.core.loaded dest := by
    rw [lockedSrc.loaded_other apart.symm, begun]
    rfl
  rw [emptied]
  constructor
  case reserved => exact reserved
  case sb => exact lockedDest.sb.trans (lockedSrc.sb.trans (congrArg Core.sb begun))
  case blocks => exact lockedDest.blocks.trans (lockedSrc.blocks.trans (congrArg Core.blocks begun))
  case log => exact lockedDest.log.trans (lockedSrc.log.trans (congrArg Core.log begun))
  case source =>
    show (update s₃.core.icache dest _ src).disk = _
    rw [update_of_ne apart, lockedDest.others src apart, lockedSrc.disk, loadedSrc]
  case inum =>
    show (update s₃.core.icache dest _ dest).inum = _
    rw [update_self]
    rw [lockedDest.inum, lockedSrc.others dest apart.symm, begun]
    rfl
  case valid =>
    show (update s₃.core.icache dest _ dest).valid = _
    rw [update_self]
    exact lockedDest.valid
  case disk =>
    show (update s₃.core.icache dest _ dest).disk = _
    rw [update_self]
    show { (s₃.core.icache dest).disk with size := 0 } = _
    rw [lockedDest.disk, loadedDest]

section Started

variable {s₀ : State} {src dest : Slot} {c : Core}

/-- Nothing is logged yet. -/
theorem Started.progress (started : Started s₀ src dest c) (admitted : Admitted s₀ src dest) :
    Progress s₀ src dest (decide (0 < 0)) (blocksOf 0) 0 c := by
  have addrs : (c.icache dest).disk.addrs = (s₀.core.loaded dest).addrs := by rw [started.disk]
  constructor
  case sb => exact started.sb
  case capacity => rw [started.log]
  case outstanding => rw [started.log]
  case source => exact started.source
  case inum => exact started.inum
  case type => rw [started.disk]
  case length => rw [started.disk]
  case later =>
    intro k _
    rw [addrs]
  case there =>
    intro k below
    exact absurd below (Nat.not_lt_zero _)
  case marked =>
    rw [started.blocks]
    exact admitted.marked
  case placed =>
    rw [started.blocks, addrs]
    exact admitted.placed
  case distinct =>
    rw [addrs]
    exact admitted.distinct
  case log =>
    have nothing : touched s₀ dest (decide (0 < 0)) (blocksOf 0) (c.icache dest).disk.addrs = ∅ := by
      have zero : blocksOf 0 = 0 := rfl
      simp [touched, zero]
    rw [nothing, started.log]
    exact Absorbs.refl _

/-- A log with an unfinished transaction in it leaves room for at most two shares, and one without is
empty. -/
theorem Started.short (started : Started s₀ src dest c) (admitted : Admitted s₀ src dest) :
    s₀.log.lh.length ≤ MAXOPBLOCKS := by
  have reserved := started.reserved
  have positive := admitted.outstanding
  by_cases first : s₀.log.outstanding = 0
  · rw [admitted.idle first]
    exact Nat.zero_le _
  · change (s₀.log.lh.length : Int) + (s₀.log.outstanding + 1) * 10 ≤ 30 at reserved
    show s₀.log.lh.length ≤ 10
    omega

end Started

/-! ## A device as destination -/

/-- The copy to a device: nothing is logged but its inode. -/
structure Echo (s₀ : State) (src dest : Slot) (c : Core) : Prop where
  sb : c.sb = s₀.sb
  blocks : ∀ b, b ≠ s₀.core.iblock dest → c.blocks b = s₀.blocks b
  capacity : c.log.size = s₀.log.size
  outstanding : c.log.outstanding = s₀.log.outstanding + 1
  source : (c.icache src).disk = s₀.core.loaded src
  inum : (c.icache dest).inum = (s₀.icache dest).inum
  valid : (c.icache dest).valid = true
  device : (c.icache dest).disk.type = T_DEV
  log : ∃ D, D ⊆ {s₀.core.iblock dest} ∧ Absorbs s₀.log.lh D c.log.lh

section Echo

variable {s₀ : State} {src dest : Slot} {c : Core}

theorem Started.echo (started : Started s₀ src dest c)
    (device : (s₀.core.loaded dest).type = T_DEV) : Echo s₀ src dest c := by
  constructor
  case sb => exact started.sb
  case blocks =>
    intro b _
    rw [started.blocks]
  case capacity => rw [started.log]
  case outstanding => rw [started.log]
  case source => exact started.source
  case inum => exact started.inum
  case valid => exact started.valid
  case device =>
    rw [started.disk]
    exact device
  case log =>
    rw [started.log]
    exact ⟨∅, Finset.empty_subset _, Absorbs.refl _⟩

/-- The inode of the device changes in memory, but not its type. -/
theorem Echo.relocked (echo : Echo s₀ src dest c) (apart : src ≠ dest) {d : Dinode} {c' : Core}
    (relocked : Core.Relocked dest true d c c') (device : d.type = T_DEV) :
    Echo s₀ src dest c' where
  sb := relocked.sb.trans echo.sb
  blocks := fun b other => by rw [relocked.blocks, echo.blocks b other]
  capacity := by rw [relocked.log, echo.capacity]
  outstanding := by rw [relocked.log, echo.outstanding]
  source := by rw [relocked.others src apart, echo.source]
  inum := relocked.inum.trans echo.inum
  valid := relocked.valid
  device := by rw [relocked.disk, device]
  log := by rw [relocked.log]; exact echo.log

theorem Echo.writeInode (echo : Echo s₀ src dest c) (data : Block) :
    Echo s₀ src dest (c.write (s₀.core.iblock dest) data) := by
  obtain ⟨D, inside, absorbs⟩ := echo.log
  refine { echo with blocks := fun b other => ?_, log := ?_ }
  · exact (update_of_ne other _ _).trans (echo.blocks b other)
  · exact ⟨_, Finset.insert_subset (Finset.mem_singleton_self _) inside, absorbs.insert _⟩

variable {s : State}

theorem Echo.logged (echo : Echo s₀ src dest s.core) (off : Nat)
    (device : (s₀.core.loaded dest).type = T_DEV) : ∃ D, Logged s₀ dest off s D ∧ D.card ≤ 1 := by
  obtain ⟨D, inside, absorbs⟩ := echo.log
  exact ⟨D, ⟨absorbs, by rwa [if_pos device]⟩, Finset.card_le_card inside⟩

theorem Echo.length (echo : Echo s₀ src dest s.core) :
    s.log.lh.length ≤ s₀.log.lh.length + 1 := by
  obtain ⟨D, inside, absorbs⟩ := echo.log
  exact absorbs.length_le.trans (Nat.add_le_add_left (Finset.card_le_card inside) _)

variable (admitted : Admitted s₀ src dest) (short : s₀.log.lh.length ≤ MAXOPBLOCKS)
include admitted short

omit short in
theorem writei_echo {off n : Nat} {text : List Byte} (echo : Echo s₀ src dest s.core) :
    Safe (writei dest text off n) s fun _ s' => Echo s₀ src dest s'.core := by
  have device : (s.disk dest).type = T_DEV := echo.device
  refine .getBind ?_
  rw [if_pos device]
  split
  · refine (consolewrite_ensures echo.valid).mono fun _ s₁ relocked => ?_
    exact echo.relocked admitted.apart relocked device
  · exact .pure echo

theorem copyRound_echo {off : Nat} (echo : Echo s₀ src dest s.core)
    (started : off ≤ (s₀.core.loaded src).size) :
    Safe (copyRound src dest off) s fun next s' =>
      Echo s₀ src dest s'.core ∧ ∀ off', next = some off' → off' ≤ (s₀.core.loaded src).size := by
  have bound := admitted.length
  change (s₀.core.loaded src).size ≤ 71680 at bound
  have table : s.blocks ((s₀.core.loaded src).addrs (Fin.last NDIRECT)) =
      s₀.blocks ((s₀.core.loaded src).addrs (Fin.last NDIRECT)) := echo.blocks _ admitted.table
  have mapped : ∀ bn, bn * BSIZE < (s₀.core.loaded src).size → bn * BSIZE < off + BUF_SIZE →
      (s₀.core.loaded src).Mapped s.blocks bn := by
    intro bn below _
    have there := admitted.mapped bn below
    unfold Dinode.Mapped at there ⊢
    rwa [table]
  refine .bind (readSource_ensures admitted echo.source started mapped) ?_
  rintro text s₁ ⟨length, same⟩
  rw [← same] at echo
  split
  next => exact .pure ⟨echo, by simp⟩
  next =>
    refine .getBind (.bind (setSize_ensures _) fun _ s₂ resized => ?_)
    have relocked := Core.setDisk_relocked s₁.core dest
      { s₁.disk dest with size := u32 ((s₁.disk dest).size + bytesRead text) }
    rw [← resized, echo.valid] at relocked
    have echo₂ := echo.relocked admitted.apart relocked echo.device
    refine .bind (writei_echo admitted echo₂) fun _ s₃ echo₃ => ?_
    have room : Room 1 s₃ := by
      refine ⟨echo₃.capacity.trans admitted.capacity, ?_⟩
      have length := echo₃.length
      change s₀.log.lh.length ≤ 10 at short
      show s₃.log.lh.length + 1 < 30
      omega
    refine .bind (iupdate_ensures room) ?_
    rintro _ s₄ ⟨data, updated⟩
    have inode : s₃.core.iblock dest = s₀.core.iblock dest :=
      Core.iblock_congr echo₃.sb echo₃.inum
    have echo₄ := echo₃.writeInode data
    rw [← inode, ← updated] at echo₄
    refine .pure ⟨echo₄, ?_⟩
    rintro off' ⟨⟩
    have wraps : u32 (off + bytesRead text) = off + bytesRead text :=
      Nat.mod_eq_of_lt (by omega)
    omega

theorem copyRounds_echo {off rounds : Nat} (echo : Echo s₀ src dest s.core)
    (started : off ≤ (s₀.core.loaded src).size) :
    Safe (copyRounds src dest rounds off) s fun _ s' => Echo s₀ src dest s'.core := by
  induction rounds generalizing off s with
  | zero => exact .pure echo
  | succ rounds ih =>
    refine .bind (copyRound_echo admitted short echo started) ?_
    rintro next s₁ ⟨echo₁, inside⟩
    cases next with
    | none => exact .pure echo₁
    | some off' => exact ih echo₁ (inside off' rfl)

end Echo

/-! ## The whole transaction -/

section Transaction

variable {s₀ : State} {src dest : Slot} (admitted : Admitted s₀ src dest)

theorem fitsLog_of_safe (safe : ∀ rounds, Safe (copyPrefix rounds src dest) s₀ fun _ s' =>
      s₀.log.lh.length + (s₀.log.outstanding + 1) * MAXOPBLOCKS ≤ LOGSIZE ∧
        s'.log.outstanding = s₀.log.outstanding + 1 ∧
        ∃ D, Logged s₀ dest (min (s₀.core.loaded src).size (rounds * BUF_SIZE)) s' D ∧
          D.card ≤ MAXOPBLOCKS) :
    FitsLog s₀ src dest ∧ LogsFew s₀ src dest := by
  have logsFew : LogsFew s₀ src dest := fun rounds s' ran => ((safe rounds).returned ran).2.2
  have grows : ∀ rounds s', copyPrefix rounds src dest s₀ = .ok ((), s') →
      s'.log.lh.length ≤ s₀.log.lh.length + MAXOPBLOCKS := by
    intro rounds s' ran
    obtain ⟨D, logged, few⟩ := logsFew rounds s' ran
    exact logged.1.length_le.trans (Nat.add_le_add_left few _)
  refine ⟨⟨grows, ?_, fun rounds => (safe rounds).failed rfl⟩, logsFew⟩
  intro rounds s' ran
  obtain ⟨reserved, outstanding, -⟩ := (safe rounds).returned ran
  have few := grows rounds s' ran
  rw [outstanding]
  change (s₀.log.lh.length : Int) + (s₀.log.outstanding + 1) * 10 ≤ 30 at reserved
  change s'.log.lh.length ≤ s₀.log.lh.length + 10 at few
  show (s'.log.lh.length : Int) + (s₀.log.outstanding + 1 - 1) * 10 ≤ 30
  omega

include admitted

/-- To a device only the inode is logged. -/
theorem fitsLog_of_device (device : (s₀.core.loaded dest).type = T_DEV) :
    FitsLog s₀ src dest ∧ LogsFew s₀ src dest := by
  apply fitsLog_of_safe
  intro rounds
  refine .bind (copyStart_ensures admitted.apart) fun _ s₁ started => ?_
  refine (copyRounds_echo admitted (started.short admitted) (started.echo device)
    (Nat.zero_le _)).mono fun _ s₂ echo => ⟨started.reserved, echo.outstanding, ?_⟩
  obtain ⟨D, logged, one⟩ := echo.logged (min (s₀.core.loaded src).size (rounds * BUF_SIZE)) device
  exact ⟨D, logged, one.trans (by decide)⟩

/-- Where the transaction is after a number of rounds. -/
theorem copyPrefix_progress {rounds : Nat} (file : (s₀.core.loaded dest).type ≠ T_DEV)
    (inside : min (s₀.core.loaded src).size (rounds * BUF_SIZE) ≤ NDIRECT * BSIZE) :
    Safe (copyPrefix rounds src dest) s₀ fun _ s' =>
      s₀.log.lh.length + (s₀.log.outstanding + 1) * MAXOPBLOCKS ≤ LOGSIZE ∧
        ∃ off, off = min (s₀.core.loaded src).size (rounds * BUF_SIZE) ∧
          Progress s₀ src dest (decide (0 < off)) (blocksOf off) off s'.core := by
  refine .bind (copyStart_ensures admitted.apart) fun _ s₁ started => ?_
  refine (copyRounds_progress admitted (started.short admitted) (started.progress admitted) file
    (Nat.zero_le _) ?_).mono fun _ s₂ progress => ⟨started.reserved, ?_⟩
  · rwa [Nat.zero_add]
  · rwa [Nat.zero_add] at progress

/-- A small copy logs few blocks. -/
theorem fitsLog_of_small (file : (s₀.core.loaded dest).type ≠ T_DEV)
    (small : SmallCopy s₀ src dest) : FitsLog s₀ src dest ∧ LogsFew s₀ src dest := by
  have nine : blocksOf (s₀.core.loaded src).size ≤ 9 := by
    rcases small with device | few | ⟨few, -⟩
    · exact absurd device file
    · change _ ≤ 10 at few
      omega
    · change _ = 10 at few
      omega
  change ((s₀.core.loaded src).size + 511) / 512 ≤ 9 at nine
  apply fitsLog_of_safe
  intro rounds
  have inside : min (s₀.core.loaded src).size (rounds * BUF_SIZE) ≤ NDIRECT * BSIZE := by
    show _ ≤ 6144
    omega
  refine (copyPrefix_progress admitted file inside).mono ?_
  rintro _ s₁ ⟨reserved, off, here, progress⟩
  rw [← here]
  refine ⟨reserved, progress.outstanding, _, ⟨progress.log, by rw [if_neg file]; rfl⟩, ?_⟩
  have part : blocksOf off ≤ blocksOf (s₀.core.loaded src).size :=
    Nat.div_le_div_right (by omega)
  have direct : blocksOf off ≤ NDIRECT := by
    change _ ≤ ((s₀.core.loaded src).size + 511) / 512 at part
    show _ ≤ 12
    omega
  rw [progress.card admitted.bitmap direct]
  rcases small with device | few | ⟨few, filled⟩
  · exact absurd device file
  · split <;> split <;> omega
  · have none : ¬ ∃ k : Place, k.1 < blocksOf off ∧ (s₀.core.loaded dest).addrs k = 0 := by
      rintro ⟨k, below, hole⟩
      exact filled k (by omega) hole
    split <;> omega

omit admitted in
/-- A copy that reaches its end, or the end of the log, gets through any number of rounds before. -/
theorem copyPrefix_of_uncut (uncut : Uncut s₀ src dest) (fits : FitsLog s₀ src dest)
    (rounds : Nat) : ∃ s', copyPrefix rounds src dest s₀ = .ok ((), s') := by
  obtain ⟨fuel, ⟨s', ran⟩ | panics⟩ := uncut
  · obtain ⟨_, s₁, first, rest⟩ := run_bind ran
    obtain ⟨s₂, ran₂⟩ := copyRounds_of_loop rest rounds
    exact ⟨s₂, by rw [copyPrefix, bind_ran first, ran₂]⟩
  · exfalso
    apply fits.fits fuel
    cases first : copyStart src dest s₀ with
    | error e =>
      rw [copyBody, bind_failed first] at panics
      rw [copyPrefix, bind_failed first, panics]
    | ok p =>
      rw [copyBody, bind_ran first] at panics
      rw [copyPrefix, bind_ran first]
      exact copyRounds_of_panic panics

/-- A large copy has logged too many blocks when it has written ten of them. -/
theorem smallCopy_of_fits (uncut : Uncut s₀ src dest) (fits : FitsLog s₀ src dest)
    (counted : s₀.log.lh = [] ∨ LogsFew s₀ src dest) : SmallCopy s₀ src dest := by
  by_contra large
  unfold SmallCopy at large
  push Not at large
  obtain ⟨file, many, holes⟩ := large
  change 10 < _ at many
  -- 93 rounds are the first to come into the tenth block
  obtain ⟨s', ran⟩ := copyPrefix_of_uncut uncut fits 93
  have inside : min (s₀.core.loaded src).size (93 * BUF_SIZE) ≤ NDIRECT * BSIZE := by
    show min _ 4650 ≤ 6144
    omega
  obtain ⟨-, off, here, progress⟩ := (copyPrefix_progress admitted file inside).returned ran
  have few : (touched s₀ dest (decide (0 < off)) (blocksOf off)
      (s'.icache dest).disk.addrs).card ≤ 10 := by
    rcases counted with empty | logsFew
    · have length := progress.log.length
      have grows := fits.few 93 s' ran
      rw [empty, List.toFinset_nil, Finset.sdiff_empty] at length
      rw [empty] at grows
      change s'.log.lh.length = 0 + _ at length
      change s'.log.lh.length ≤ 0 + 10 at grows
      exact (Nat.zero_add _ ▸ length) ▸ (Nat.zero_add 10 ▸ grows)
    · obtain ⟨D, ⟨-, same⟩, few⟩ := logsFew 93 s' ran
      rw [if_neg file, ← here] at same
      exact same ▸ few
  have positive : 0 < off := by
    change 10 < ((s₀.core.loaded src).size + 511) / 512 + 2 at many
    change off = min _ 4650 at here
    omega
  have blocks : blocksOf off = min (blocksOf (s₀.core.loaded src).size) 10 := by
    change off = min _ 4650 at here
    show (off + 511) / 512 = min (((s₀.core.loaded src).size + 511) / 512) 10
    omega
  have direct : blocksOf off ≤ NDIRECT := by
    show _ ≤ 12
    omega
  have card := progress.card admitted.bitmap direct
  rw [decide_eq_true positive, if_pos rfl] at card
  rw [decide_eq_true positive] at few
  change Finset.card _ ≤ 10 at few
  by_cases ten : blocksOf (s₀.core.loaded src).size + 1 = 10
  · obtain ⟨k, below, hole⟩ := holes ten
    rw [if_pos ⟨k, by omega, hole⟩] at card
    exact absurd (card ▸ few) (by omega)
  · exact absurd (card ▸ few) (by omega)

end Transaction

/-! ## Files of so many blocks -/

/-- An image with two open files, in slots 1 and 2 and with inodes 2 and 3, of `n` blocks each. -/
def twoFiles (n : Nat) : State :=
  { emptyImage with
    blocks := fun b => if b = 58 then fun i => if i < 64 then 255 else 0 else emptyImage.blocks b
    icache := fun i =>
      if i = 1 then ⟨ROOTDEV, 2, 1, ⟨false, false, 0⟩, true, blocksFrom 100⟩
      else if i = 2 then ⟨ROOTDEV, 3, 1, ⟨false, false, 0⟩, true, blocksFrom 200⟩
      else emptyImage.icache i }
where
  blocksFrom (first : Nat) : Dinode :=
    ⟨T_FILE, 0, 0, 1, n * BSIZE, fun k => if k.1 < n then first + k.1 else 0⟩

/-- The number of blocks in the log after a run. -/
def logged : Except Fault (Unit × State) → Nat
  | .ok (_, s) => s.log.lh.length
  | .error _ => 0

theorem ran_of_logged {result : Except Fault (Unit × State)} {n : Nat}
    (long : logged result = n + 1) : ∃ s', result = .ok ((), s') ∧ s'.log.lh.length = n + 1 := by
  cases result with
  | error _ => cases long
  | ok p => exact ⟨p.2, rfl, long⟩

section TwoFiles

variable {n : Nat}

theorem twoFiles_used {b : Nat} (low : b < 512) :
    Used ((twoFiles n).blocks (twoFiles n).bitmap) b := by
  show (if b / 8 < 64 then 255 else 0) &&& bitMask b ≠ 0
  rw [if_pos (by omega), UInt8.and_comm]
  show bitMask b &&& -1 ≠ 0
  rw [UInt8.and_neg_one]
  exact bitMask_ne_zero b

theorem twoFiles_addrs (k : Place) :
    ((twoFiles n).core.loaded 2).addrs k = if k.1 < n then 200 + k.1 else 0 := rfl

theorem twoFiles_admitted (direct : n ≤ NDIRECT) : Admitted (twoFiles n) 1 2 := by
  have bitmap : (twoFiles n).bitmap = 58 := rfl
  have inode : (twoFiles n).core.iblock 2 = 32 := by
    show iblock mkfsSb 3 = 32
    decide
  change n ≤ 12 at direct
  constructor
  case apart => decide
  case outstanding => exact le_rfl
  case idle => exact fun _ => rfl
  case capacity => rfl
  case size => exact le_rfl
  case file => exact show T_FILE ≠ T_DEV by decide
  case length =>
    show n * 512 ≤ 71680
    omega
  case mapped =>
    intro bn below
    change bn * 512 < n * 512 at below
    have inside : bn < 12 := by omega
    unfold Dinode.Mapped
    rw [dif_pos inside]
    show (if bn < n then 100 + bn else 0) ≠ 0
    split <;> omega
  case table =>
    show (if 12 < n then 100 + 12 else 0) ≠ _
    rw [if_neg (by omega), inode]
    decide
  case bitmap =>
    rw [bitmap, inode]
    decide
  case marked =>
    rw [inode]
    rintro b special
    apply twoFiles_used
    omega
  case placed =>
    intro k inside there
    rw [twoFiles_addrs] at there ⊢
    rw [bitmap, inode]
    split at there
    next below =>
      rw [if_pos below, ← bitmap]
      exact ⟨twoFiles_used (by omega), by rw [bitmap]; omega, by omega⟩
    next => exact absurd rfl there
  case distinct =>
    intro j k _ _ there same
    rw [twoFiles_addrs] at there same
    rw [twoFiles_addrs] at same
    split at there
    next below =>
      rw [if_pos below] at same
      split at same <;> omega
    next => exact absurd rfl there

end TwoFiles

/-- **`filecopy` fits in the log exactly for small files.** In a consistent file system the copy logs at
most MAXOPBLOCKS distinct blocks and keeps to its share of the log if the destination is a device, if
the source has at most MAXOPBLOCKS - 2 blocks, or if it has one more and the destination has them all
already. No other copy does, unless another failure stops it; in a log that was empty it takes more
than its share. -/
theorem filecopy_fits_log {s : State} {src dest : Slot} (admitted : Admitted s src dest) :
    (SmallCopy s src dest → FitsLog s src dest ∧ LogsFew s src dest) ∧
      (Uncut s src dest → FitsLog s src dest → s.log.lh = [] ∨ LogsFew s src dest →
        SmallCopy s src dest) := by
  refine ⟨fun small => ?_, smallCopy_of_fits admitted⟩
  by_cases device : (s.core.loaded dest).type = T_DEV
  · exact fitsLog_of_device admitted device
  · exact fitsLog_of_small admitted device small

/-- Nine blocks that are there already are the most that fit; the copy of ten comes to its end, but
takes more than its share. -/
theorem filecopy_fits_log_nine : (FitsLog (twoFiles 9) 1 2 ∧ LogsFew (twoFiles 9) 1 2) ∧
    ¬ FitsLog (twoFiles 10) 1 2 := by
  constructor
  · apply (filecopy_fits_log (twoFiles_admitted (by decide))).1
    refine .inr (.inr ⟨rfl, fun k below => ?_⟩)
    have inside : k.1 < 9 := below
    rw [twoFiles_addrs, if_pos inside]
    omega
  · intro fits
    have uncut : Uncut (twoFiles 10) 1 2 := by
      obtain ⟨s', ran, -⟩ := ran_of_logged (n := 10)
        (show logged (copyBody 104 1 2 (twoFiles 10)) = 11 by decide +kernel)
      exact ⟨104, .inl ⟨s', ran⟩⟩
    rcases (filecopy_fits_log (twoFiles_admitted (by decide))).2 uncut fits (.inl rfl) with
      device | few | ⟨few, -⟩
    · exact absurd device (show T_FILE ≠ T_DEV by decide)
    · exact absurd few (show ¬ (5631 / 512 + 2 ≤ 10) by decide)
    · exact absurd few (show 5631 / 512 + 1 ≠ 10 by decide)

/-- A file of ten blocks copied over another: eleven blocks are logged. -/
theorem filecopy_overdraws_log : ¬ FitsLog (twoFiles 10) 1 2 := by
  intro fits
  obtain ⟨s', ran, length⟩ := ran_of_logged (n := 10)
    (show logged (copyPrefix 93 1 2 (twoFiles 10)) = 11 by decide +kernel)
  have few := fits.few 93 s' ran
  rw [length] at few
  exact absurd few (by decide)

end Xv6.Fs
