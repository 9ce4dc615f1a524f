/-
# Xv6.Mkfs.ReadBack -- the kernel reads what mkfs has written

The two programs share no code: mkfs.c places the blocks of a file with `iappend`, the kernel finds them
with `bmap`. `mounted img` is the kernel once it has read the superblock of the image (the log of the
image is empty, so there is nothing to recover). A name that was given to mkfs is found in the root
directory, and reading the file from offset 0 on, in pieces of any sizes, gives its bytes.
-/
import Xv6.Fs.Entries
import Xv6.Mkfs.Consistent

namespace Xv6.Mkfs
open Lib List
open Fs (Byte Block Dinode Pointer Superblock Slot FsM Fault Inode FSSIZE BSIZE MAXFILE ROOTINO ROOTDEV T_DIR
  T_FILE T_DEV DIRSIZ NINODE sizeofDirent iblock diskInode inodeOff strncpy leBytes cstr namecmp Named)
set_option autoImplicit false

/-! ## The kernel -/

/-- `readsb` -/
def readsb (data : Block) : Superblock :=
  ⟨data.le 0 4, data.le 4 4, data.le 8 4, data.le 12 4, data.le 16 4, data.le 20 4, data.le 24 4⟩

/-- A place in the inode cache that was never used. -/
def unusedSlot : Inode := ⟨0, 0, 0, ⟨false, false, 0⟩, false, .free⟩

def mounted (img : Image) : Fs.State where
  sb := readsb (img.sector 1)
  blocks := img.sector
  held := []
  dirty := []
  log := ⟨(readsb (img.sector 1)).logstart, (readsb (img.sector 1)).nlog, 0, false, []⟩
  icache := fun _ => unusedSlot
  pid := 1
  cwd := 0
  input := []
  printed := []
  own := 0
  stray := false

/-- Look the name up in the root directory, and lock what is found. -/
def openInRoot (name : List Byte) : FsM (Option Slot) := do
  let dp ← Fs.iget ROOTDEV ROOTINO
  Fs.ilock (some dp)
  let found ← Fs.dirlookup dp name
  match found with
  | none => return none
  | some (ip, _) =>
    Fs.ilock (some ip)
    return some ip

/-- Reads of the given sizes, each from where the one before has ended. -/
def readChunks (ip : Slot) (off : Nat) : List Nat → FsM (List (Option (List Byte)))
  | [] => return []
  | n :: rest => do
    let read ← Fs.readi ip off n
    let others ← readChunks ip (off + (read.getD []).length) rest
    return read :: others

/-- A text in pieces of the given sizes; the pieces after its end are empty. -/
def cut (text : List Byte) : List Nat → List (List Byte)
  | [] => []
  | n :: rest => text.take n :: cut (text.drop n) rest

/-! ## Inodes -/

/-- Every fault is bad: the call returns. -/
abbrev Returns {α : Type} (m : FsM α) (s : Fs.State) (Q : α → Fs.State → Prop) : Prop :=
  Ensures (fun _ => True) m s Q

variable {s : Fs.State} {j : Nat}

theorem Returns.run {α : Type} {m : FsM α} {Q : α → Fs.State → Prop} (returns : Returns m s Q) :
    ∃ a s', m s = .ok (a, s') ∧ Q a s' := by
  unfold Returns Ensures at returns
  cases ran : m s with
  | error fault =>
    rw [ran] at returns
    exact absurd trivial returns
  | ok result =>
    rw [ran] at returns
    exact ⟨result.1, result.2, rfl, returns⟩

section Cache

variable {s : Fs.State} {dev inum : Nat} {i : Slot}

/-- An inode that nobody uses goes into a free slot. -/
theorem iget_fresh (unused : ∀ i, 0 < (s.icache i).ref → (s.icache i).inum ≠ inum)
    (free : ∃ i, (s.icache i).ref = 0) :
    Returns (Fs.iget dev inum) s fun i s' => (s.icache i).ref = 0 ∧
      s' = s.setInode i { s.icache i with dev := dev, inum := inum, ref := 1, valid := false } := by
  refine .getBind ?_
  have none : s.cached dev inum = none := by
    refine find?_eq_none.mpr fun i _ => ?_
    simp only [Bool.and_eq_true, decide_eq_true_eq, beq_iff_eq, not_and]
    rintro ⟨used, -⟩
    exact unused i used
  rw [none]
  cases found : s.emptySlot with
  | none =>
    obtain ⟨i, zero⟩ := free
    have taken := find?_eq_none.mp found i (mem_finRange i)
    simp [zero] at taken
  | some i =>
    refine .updateBind (.pure ⟨?_, rfl⟩)
    have zero := find?_some found
    exact of_decide_eq_true zero

/-- An inode that was just put into its slot is read. -/
theorem ilock_loads (ref : 1 ≤ (s.icache i).ref) (lock : (s.icache i).lock = ⟨false, false, 0⟩)
    (invalid : (s.icache i).valid = false) (held : s.held = []) (dirty : s.dirty = [])
    (onDisk : iblock s.sb (s.icache i).inum < FSSIZE)
    (live : (diskInode s.sb s.blocks (s.icache i).inum).type ≠ 0) :
    Returns (Fs.ilock (some i)) s fun _ s' => s' = s.setInode i { s.icache i with
      lock := ⟨false, true, s.pid⟩, valid := true, disk := diskInode s.sb s.blocks (s.icache i).inum } := by
  refine .getBind (Fs.panicIf_then (by omega) ?_)
  have taken : Fs.acquiresleep i s =
      .ok ((), s.setInode i ((s.icache i).setLock ⟨false, true, s.pid⟩)) := by
    change (if (s.icache i).lock.lk = true then _ else if (s.icache i).lock.locked = true then _ else _ :
      FsM Unit) s = _
    rw [lock]
    rfl
  have loads : Returns (Fs.loadInode i) (s.setInode i ((s.icache i).setLock ⟨false, true, s.pid⟩))
      fun _ s' => s' = s.setInode i { s.icache i with
        lock := ⟨false, true, s.pid⟩, valid := true, disk := diskInode s.sb s.blocks (s.icache i).inum } := by
    refine .getBind ?_
    rw [Fs.setInode_self]
    have notValid : ¬((s.icache i).setLock ⟨false, true, s.pid⟩).valid = true := by
      simp [Inode.setLock, invalid]
    rw [if_neg notValid]
    refine .bind (Fs.bread_reads (Fs.readOk_of_quiet held dirty onDisk)) ?_
    rintro _ _ ⟨rfl, rfl⟩
    refine .updateBind (.updateBind (.updateBind ?_))
    unfold Fs.panicIf
    split
    · rename_i free
      exact absurd free live
    · refine .pure ?_
      simp [Fs.State.setInode, Inode.setLock, diskInode]
  rw [Ensures, bind_ran taken]
  exact loads

end Cache

/-! ## Contents -/

variable {n k : Nat}

section Contents

variable {d : Dinode} {blocks : Nat → Block} {t : List Byte}

theorem Stores.text_eq {off : Nat} (stores : Stores d blocks t) (inside : off + n ≤ t.length) :
    d.text blocks off n = (t.drop off).take n := by
  refine ext_getElem ?_ fun j below _ => ?_
  · rw [Dinode.text_length, length_take, length_drop]
    omega
  · rw [Dinode.text_length] at below
    simp only [Dinode.text, getElem_map, getElem_range, getElem_take, getElem_drop]
    rw [stores.byte, getD_eq_getElem t 0 (by omega)]

theorem Stores.there (stores : Stores d blocks t) (inside : j < t.length) :
    d.blockAt blocks (j / BSIZE) ≠ 0 :=
  (stores.blockAt _).mpr (Nat.lt_of_le_of_lt (Nat.div_mul_le_self j BSIZE) inside)

/-- A file is read piece by piece. -/
theorem readChunks_returns {ip : Slot} (sizes : List Nat) (off : Nat)
    (stores : Stores (s.disk ip) s.blocks t) (size : (s.disk ip).size = t.length)
    (readable : Fs.Readable (fun _ => True) s (s.disk ip)) (notDev : (s.disk ip).type ≠ T_DEV)
    (inside : off ≤ t.length) (small : ∀ n ∈ sizes, n + MAXFILE * BSIZE < 2 ^ 32) :
    Returns (readChunks ip off sizes) s fun reads s' =>
      s = s' ∧ reads = (cut (t.drop off) sizes).map some := by
  induction sizes generalizing off with
  | nil => exact .pure ⟨rfl, rfl⟩
  | cons n rest ih =>
    have longest := stores.length_le
    have fits := small n mem_cons_self
    refine .bind (Fs.readi_there readable notDev (by omega) (by omega) fun j below => ?_) ?_
    · exact stores.there (by omega)
    rintro _ _ ⟨rfl, rfl⟩
    have piece : (s.disk ip).text s.blocks off (min n ((s.disk ip).size - off)) = (t.drop off).take n := by
      rw [size, stores.text_eq (by omega), ← length_drop, take_eq_take_iff]
      omega
    have after : t.drop (off + ((t.drop off).take n).length) = (t.drop off).drop n := by
      rw [← drop_drop, length_take]
      by_cases short : n ≤ (t.drop off).length
      · rw [Nat.min_eq_left short]
      · rw [Nat.min_eq_right (by omega), drop_length, drop_eq_nil_of_le (by omega)]
    rw [piece, Option.getD_some]
    have short : ((t.drop off).take n).length ≤ t.length - off := by
      rw [length_take, length_drop]
      omega
    refine .bind (ih _ (by omega) fun m member => small m (mem_cons_of_mem _ member)) ?_
    rintro _ _ ⟨rfl, rfl⟩
    refine .pure ⟨rfl, ?_⟩
    rw [after]
    rfl

end Contents

/-! ## The root directory -/

section Root

/-- Entries as they stand in a directory. -/
def listing (l : List (Nat × List Byte)) : List Byte := l.flatMap fun de => dirent de.1 de.2

theorem listing_drop (l : List (Nat × List Byte)) (k : Nat) :
    (listing l).drop (k * sizeofDirent) = listing (l.drop k) := by
  induction k generalizing l with
  | zero => rw [Nat.zero_mul, drop_zero, drop_zero]
  | succ k ih =>
    cases l with
    | nil => simp [listing]
    | cons de rest =>
      have first : (listing (de :: rest)).drop sizeofDirent = listing rest := by
        rw [listing, flatMap_cons, drop_left' (dirent_length _ _)]
        rfl
      rw [Nat.succ_mul, Nat.add_comm, ← drop_drop, first, ih, drop_succ_cons]

variable {d : Dinode} {blocks : Nat → Block} {l : List (Nat × List Byte)}

theorem listing_length (l : List (Nat × List Byte)) : (listing l).length = l.length * sizeofDirent := by
  induction l with
  | nil => simp [listing]
  | cons de rest ih =>
    rw [listing, flatMap_cons, length_append, dirent_length, length_cons, Nat.succ_mul,
      Nat.add_comm]
    exact congrArg (· + sizeofDirent) ih

/-- Entry `k` is read as it was written. -/
theorem Stores.nth (stores : Stores d blocks (listing l)) (inside : k < l.length)
    (small : l[k].1 < 256 ^ 2) : d.nth blocks k = (l[k].1, strncpy l[k].2 DIRSIZ) := by
  have short : k * sizeofDirent + sizeofDirent ≤ (listing l).length := by
    rw [listing_length]
    change k * 16 + 16 ≤ l.length * 16
    omega
  have bytes : d.text blocks (k * sizeofDirent) sizeofDirent = dirent l[k].1 l[k].2 := by
    rw [stores.text_eq short, listing_drop, drop_eq_getElem_cons inside, listing, flatMap_cons,
      take_left' (dirent_length _ _)]
  have inum : Block.le (fun i => (dirent l[k].1 l[k].2).getD i 0) 0 2 = l[k].1 := by
    have stored : (Block.put (fun _ => 0) 0 (leBytes l[k].1 2)).le 0 2 = l[k].1 := Block.le_put small
    refine (Block.le_congr fun j below => ?_).trans stored
    rw [Block.put, if_pos (Nat.zero_le _), dirent, getD_append _ _ _ _ (by simpa using below)]
    rfl
  have name : (dirent l[k].1 l[k].2).drop 2 = strncpy l[k].2 DIRSIZ :=
    drop_left' (Fs.leBytes_length _ 2)
  rw [Dinode.nth, ← Fs.entry_of_text, bytes, inum, name]

theorem Stores.hasNth (stores : Stores d blocks (listing l)) (inside : k < l.length)
    (size : (listing l).length ≤ d.size) : d.HasNth blocks k := by
  have short : k * sizeofDirent + sizeofDirent ≤ (listing l).length := by
    rw [listing_length]
    change k * 16 + 16 ≤ l.length * 16
    omega
  exact ⟨Nat.le_trans short size, fun j below => stores.there (by omega)⟩

/-- The entries for files whose inodes are numbered from `inum` on. -/
def numbered (inum : Nat) (args : List Arg) : List (Nat × List Byte) :=
  args.mapIdx fun i arg => (inum + i, arg.fsName)

theorem listing_numbered (inum : Nat) (args : List Arg) : listing (numbered inum args) = entries inum args := by
  induction args generalizing inum with
  | nil => rfl
  | cons arg rest ih =>
    have later : (fun i (arg : Arg) => (inum + (i + 1), arg.fsName)) =
        fun i (arg : Arg) => (inum + 1 + i, arg.fsName) := by
      funext i arg
      rw [Nat.add_right_comm, Nat.add_assoc]
    rw [numbered, mapIdx_cons, later, entries, ← ih]
    rfl

def rootListing (args : List Arg) : List (Nat × List Byte) :=
  (ROOTINO, [46]) :: (ROOTINO, [46, 46]) :: numbered 2 args

theorem rootListing_length (args : List Arg) : (rootListing args).length = args.length + 2 := by
  simp [rootListing, numbered]

theorem listing_root (args : List Arg) : listing (rootListing args) =
    dirent ROOTINO [46] ++ dirent ROOTINO [46, 46] ++ entries 2 args := by
  rw [← listing_numbered]
  simp [listing, rootListing]

/-- The names mkfs is given are the names of files: C strings, not those of `.` and `..`, and
different in what an entry keeps of them. -/
structure Distinct (args : List Arg) : Prop where
  strings : ∀ arg ∈ args, (0 : Byte) ∉ arg.name
  files : ∀ arg ∈ args, arg.fsName ≠ [46] ∧ arg.fsName ≠ [46, 46]
  nodup : (args.map fun arg => arg.fsName.take DIRSIZ).Nodup

theorem Arg.cstr_fsName {arg : Arg} (string : (0 : Byte) ∉ arg.name) (n : Nat) :
    cstr arg.fsName n = arg.fsName.take n := by
  refine Fs.cstr_of_name (fun nul => string ?_) n
  unfold Arg.fsName at nul
  split at nul
  · exact mem_of_mem_tail nul
  · exact nul

/-- A short name is not the beginning of another. -/
theorem take_ne {t short : List Byte} (other : t ≠ short) (below : short.length < n) :
    t.take n ≠ short := by
  intro same
  by_cases fits : t.length ≤ n
  · exact other ((take_of_length_le fits).symm.trans same)
  · have length := congrArg length same
    rw [length_take] at length
    omega

variable {args : List Arg} {i : Nat}

/-- Of the entries up to its own only the last one has the name of a file. -/
theorem rootListing_other (distinct : Distinct args) (inside : i < args.length) (before : k < i + 2)
    (short : k < (rootListing args).length) :
    namecmp args[i].fsName (strncpy (rootListing args)[k].2 DIRSIZ) ≠ 0 := by
  have string := distinct.strings args[i] (getElem_mem inside)
  have file := distinct.files args[i] (getElem_mem inside)
  rw [ne_eq, Fs.namecmp_eq_zero, Fs.cstr_strncpy, Arg.cstr_fsName string]
  match k with
  | 0 =>
    have other : args[i].fsName.take DIRSIZ ≠ [46] := take_ne file.1 (by decide)
    exact other
  | 1 =>
    have other : args[i].fsName.take DIRSIZ ≠ [46, 46] := take_ne file.2 (by decide)
    exact other
  | k + 2 =>
    have insideK : k < args.length := by omega
    have entry : (rootListing args)[k + 2].2 = args[k].fsName := by simp [rootListing, numbered]
    rw [entry, Arg.cstr_fsName (distinct.strings args[k] (getElem_mem insideK))]
    have names := pairwise_iff_getElem.mp distinct.nodup k i (by simpa using insideK)
      (by simpa using inside) (by omega)
    rw [getElem_map, getElem_map] at names
    exact names.symm

theorem rootListing_own (inside : i < args.length) (short : i + 2 < (rootListing args).length) :
    namecmp args[i].fsName (strncpy (rootListing args)[i + 2].2 DIRSIZ) = 0 := by
  rw [Fs.namecmp_eq_zero, Fs.cstr_strncpy]
  simp [rootListing, numbered]

end Root

/-! ## Reading back -/

section ReadBack

variable {args : List Arg} {img : Image} {text : Nat → List Byte} {s : Fs.State}

/-- The blocks of the image are as they were made, and no buffer is in use. -/
structure Idle (img : Image) (s : Fs.State) : Prop where
  sb : s.sb = sb
  blocks : s.blocks = img.sector
  held : s.held = []
  dirty : s.dirty = []

theorem Finished.readable {bad : Fault → Prop} (finished : Finished args img text)
    (idle : Idle img s) (live : (inodes img n).type ≠ 0) : Fs.Readable bad s (inodes img n) := by
  intro p held
  rw [idle.blocks] at held ⊢
  have used := (Fs.place_sound finished.base.allotted live held).2
  exact Fs.readOk_of_quiet idle.held idle.dirty (Nat.lt_of_lt_of_le used finished.room)

theorem Finished.mounted_idle (finished : Finished args img text) : Idle img (mounted img) := by
  refine ⟨?_, rfl, rfl, rfl⟩
  change readsb (img.sector 1) = sb
  rw [finished.super]
  decide +kernel

theorem Idle.setInode (idle : Idle img s) (i : Slot) (ip : Inode) : Idle img (s.setInode i ip) :=
  ⟨idle.sb, idle.blocks, idle.held, idle.dirty⟩

/-- Inode `n` is in slot `i`, as `iget` has left it. -/
def gotten (s : Fs.State) (i : Slot) (n : Nat) : Fs.State :=
  s.setInode i { s.icache i with dev := ROOTDEV, inum := n, ref := 1, valid := false }

/-- ... and locked. -/
def opened (s : Fs.State) (i : Slot) (n : Nat) (d : Dinode) : Fs.State :=
  s.setInode i ⟨ROOTDEV, n, 1, ⟨false, true, s.pid⟩, true, d⟩

theorem Idle.locks {i : Slot} (idle : Idle img s) (inside : n < NINODES)
    (live : (inodes img n).type ≠ 0) (unlocked : (s.icache i).lock = ⟨false, false, 0⟩) :
    Returns (Fs.ilock (some i)) (gotten s i n) fun _ s' => s' = opened s i n (inodes img n) := by
  have slot : (gotten s i n).icache i =
      { s.icache i with dev := ROOTDEV, inum := n, ref := 1, valid := false } := Fs.setInode_self _ _ _
  have onDisk : diskInode (gotten s i n).sb (gotten s i n).blocks n = inodes img n := by
    rw [inodes_of_lt inside, ← idle.sb, ← idle.blocks]
    rfl
  have low : iblock (gotten s i n).sb n < FSSIZE := by
    have bounds := (iblock_mem inside).2
    change iblock s.sb n < 1000
    change iblock Mkfs.sb n < 58 at bounds
    rw [idle.sb]
    omega
  have held : (gotten s i n).held = [] := idle.held
  have dirty : (gotten s i n).dirty = [] := idle.dirty
  refine (ilock_loads ?_ ?_ ?_ held dirty ?_ ?_).mono ?_
  · rw [slot]
  · rw [slot]
    exact unlocked
  · rw [slot]
  · rw [slot]
    exact low
  · rw [slot, onDisk]
    exact live
  · rintro _ _ rfl
    rw [slot, onDisk]
    simp [gotten, opened, Fs.State.setInode]

section

variable (finished : Finished args img text)
include finished

theorem Finished.live_of_le (first : 1 ≤ n) (last : n < args.length + 2) :
    (inodes img n).type ≠ 0 := by
  rw [← finished.freeinode] at last
  exact (finished.used n).mpr ⟨first, last⟩

/-- The root directory as the kernel sees it. -/
theorem Finished.root_nth (few : args.length + 2 ≤ NINODES) (below : j < (rootListing args).length) :
    (inodes img ROOTINO).HasNth img.sector j ∧ (inodes img ROOTINO).nth img.sector j =
      ((rootListing args)[j].1, strncpy (rootListing args)[j].2 DIRSIZ) := by
  have live : (inodes img ROOTINO).type ≠ 0 :=
    finished.live_of_le (Nat.le_refl _) (by change 1 < _; omega)
  have stores := finished.stores ROOTINO live
  rw [finished.root, ← listing_root] at stores
  have longer : (listing (rootListing args)).length ≤ (inodes img ROOTINO).size := by
    rw [finished.size ROOTINO live, if_pos rfl, finished.root, ← listing_root]
    change _ ≤ (_ / 512 + 1) * 512
    omega
  refine ⟨stores.hasNth below longer, stores.nth below ?_⟩
  rw [rootListing_length] at below
  change _ ≤ 200 at few
  match j with
  | 0 | 1 => exact (by decide : 1 < 256 ^ 2)
  | j + 2 =>
    have inum : (rootListing args)[j + 2].1 = 2 + j := by simp [rootListing, numbered]
    omega

/-- A file that was given to mkfs is found in the root directory. -/
theorem Finished.lookup (few : args.length + 2 ≤ NINODES) (distinct : Distinct args)
    (inside : k < args.length) {dp : Slot} (idle : Idle img s)
    (disk : s.disk dp = inodes img ROOTINO) (dev : (s.icache dp).dev = ROOTDEV)
    (unused : ∀ i, 0 < (s.icache i).ref → (s.icache i).inum ≠ 2 + k)
    (free : ∃ i, (s.icache i).ref = 0) :
    Returns (Fs.dirlookup dp args[k].fsName) s fun found s' => ∃ ip off, found = some (ip, off) ∧
      (s.icache ip).ref = 0 ∧ s' = gotten s ip (2 + k) := by
  have live : (inodes img ROOTINO).type ≠ 0 :=
    finished.live_of_le (Nat.le_refl _) (by change 1 < _; omega)
  have count := rootListing_length args
  have own := (finished.root_nth few (j := k + 2) (by omega)).2
  have inum : (rootListing args)[k + 2].1 = 2 + k := by simp [rootListing, numbered]
  rw [inum] at own
  refine Fs.dirlookup_finds (t := k + 2) ?_ ?_ ?_ ?_ ?_ ?_ ?_
  all_goals rw [disk]
  all_goals try rw [idle.blocks]
  · exact finished.readable idle live
  · exact (finished.head ROOTINO live).1
  · have was := Fs.Dinode.decode_fits (img.sector (iblock sb ROOTINO)) (Fs.inodeOff ROOTINO)
    exact was.size
  · intro j upto
    exact (finished.root_nth few (by omega)).1
  · intro j before named
    rw [(finished.root_nth few (by omega)).2] at named
    exact rootListing_other distinct inside before (by omega) named.2
  · rw [own]
    exact ⟨by omega, rootListing_own inside (by omega)⟩
  · rw [own, dev]
    refine (iget_fresh unused free).mono ?_
    rintro ip _ ⟨zero, rfl⟩
    exact ⟨ip, _, rfl, zero, rfl⟩

theorem Finished.openInRoot (few : args.length + 2 ≤ NINODES) (distinct : Distinct args)
    (inside : k < args.length) :
    Returns (openInRoot args[k].fsName) (mounted img) fun found s => Idle img s ∧
      ∃ ip, found = some ip ∧ s.disk ip = inodes img (2 + k) := by
  have idle := finished.mounted_idle
  have live : (inodes img ROOTINO).type ≠ 0 :=
    finished.live_of_le (Nat.le_refl _) (by change 1 < _; omega)
  refine .bind (iget_fresh (fun i used => absurd used (by simp [mounted, unusedSlot]))
    ⟨0, rfl⟩) ?_
  rintro dp _ ⟨-, rfl⟩
  refine .bind (idle.locks (by decide) live rfl) ?_
  rintro _ _ rfl
  have idle₁ : Idle img (opened (mounted img) dp ROOTINO (inodes img ROOTINO)) := idle.setInode _ _
  have slots : ∀ i, i ≠ dp →
      (opened (mounted img) dp ROOTINO (inodes img ROOTINO)).icache i = unusedSlot :=
    fun i other => Function.update_of_ne other _ _
  refine .bind (finished.lookup few distinct inside idle₁ ?_ ?_ (fun i used => ?_) ?_) ?_
  · simp [Fs.State.disk, opened]
  · simp [opened]
  · by_cases here : i = dp
    · subst here
      have inum : ((opened (mounted img) i ROOTINO (inodes img ROOTINO)).icache i).inum = 1 := by
        simp [opened]
      omega
    · rw [slots i here] at used
      exact absurd used (by simp [unusedSlot])
  · obtain ⟨i, other⟩ := exists_ne dp
    exact ⟨i, by rw [slots i other]; rfl⟩
  · rintro _ _ ⟨ip, off, rfl, zero, rfl⟩
    have other : ip ≠ dp := by
      rintro rfl
      simp [opened] at zero
    refine .bind (idle₁.locks (by omega) (finished.live_of_le (by omega) (by omega)) ?_) ?_
    · rw [slots ip other]
      rfl
    · rintro _ _ rfl
      exact .pure ⟨idle₁.setInode _ _, ip, rfl, by simp [Fs.State.disk, opened]⟩

end

theorem cut_flatten (t : List Byte) (sizes : List Nat) : (cut t sizes).flatten = t.take sizes.sum := by
  induction sizes generalizing t with
  | nil => simp [cut]
  | cons n rest ih => rw [cut, flatten_cons, ih, sum_cons, take_add]

/-- **What mkfs has written is what the kernel reads.** For files that fit on the disk (mkfs does not stop,
and there is an inode for each), whose names are distinct, every name is found in the root directory,
and reading the inode from offset 0 on in pieces of any sizes gives the bytes of the file, and nothing
after them. -/
theorem mkfs_read_back (ok : mkfs args = .ok img) (few : args.length + 2 ≤ NINODES)
    (distinct : Distinct args) (arg : Arg) (member : arg ∈ args) :
    ∃ ip s, openInRoot arg.fsName (mounted img) = .ok (some ip, s) ∧
      (∀ sizes : List Nat, (∀ n ∈ sizes, n + MAXFILE * BSIZE < 2 ^ 32) →
        readChunks ip 0 sizes s = .ok ((cut arg.bytes sizes).map some, s) ∧
        (cut arg.bytes sizes).flatten = arg.bytes.take sizes.sum) ∧
      ∀ n, n + MAXFILE * BSIZE < 2 ^ 32 → Fs.readi ip arg.bytes.length n s = .ok (some [], s) := by
  obtain ⟨text, finished⟩ := mkfs_finished ok few
  obtain ⟨k, inside, rfl⟩ := getElem_of_mem member
  obtain ⟨found, s, ran, idle, ip, rfl, disk⟩ := Returns.run (finished.openInRoot few distinct inside)
  have live : (inodes img (2 + k)).type ≠ 0 := finished.live_of_le (by omega) (by omega)
  have notRoot : 2 + k ≠ ROOTINO := by
    change 2 + k ≠ 1
    omega
  have stores := finished.stores (2 + k) live
  have size := finished.size (2 + k) live
  rw [finished.files k inside] at stores size
  rw [if_neg notRoot] at size
  have notDev : (inodes img (2 + k)).type ≠ T_DEV := by
    rw [(finished.head (2 + k) live).1, if_neg notRoot]
    decide
  have readable : Fs.Readable (fun _ => True) s (inodes img (2 + k)) := finished.readable idle live
  rw [← disk] at size notDev readable
  rw [← disk, ← idle.blocks] at stores
  have longest := stores.length_le
  refine ⟨ip, s, ran, fun sizes small => ⟨?_, cut_flatten _ _⟩, fun n fits => ?_⟩
  · obtain ⟨reads, s', ranReads, rfl, rfl⟩ :=
      Returns.run (readChunks_returns sizes 0 stores size readable notDev (Nat.zero_le _) small)
    exact ranReads
  · have nothing : min n ((s.disk ip).size - args[k].bytes.length) = 0 := by
      rw [size, Nat.sub_self, Nat.min_zero]
    have atEnd : Returns (Fs.readi ip args[k].bytes.length n) s fun read s' => s = s' ∧
        read = some ((s.disk ip).text s.blocks args[k].bytes.length
          (min n ((s.disk ip).size - args[k].bytes.length))) :=
      Fs.readi_there readable notDev (Nat.le_of_eq size.symm) (by omega)
        fun j below => absurd (nothing ▸ below) (Nat.not_lt_zero j)
    obtain ⟨read, s', ranRead, rfl, rfl⟩ := Returns.run atEnd
    rw [ranRead, nothing]
    rfl

end ReadBack

/-- A program with an underscore, and a file whose name is cut to fourteen bytes. -/
def twoFiles : List Arg :=
  [⟨[95, 99, 97, 116], some [[1, 2, 3]]⟩, ⟨replicate 15 97, some [[4], [5, 6]]⟩]

theorem mkfs_read_back_twoFiles : ∃ img ip s, mkfs twoFiles = .ok img ∧
    openInRoot [99, 97, 116] (mounted img) = .ok (some ip, s) ∧
    readChunks ip 0 [2, 5] s = .ok ([some [1, 2], some [3]], s) := by
  obtain ⟨img, ok⟩ := mkfs_of_isOk twoFiles (by decide +kernel)
  obtain ⟨ip, s, found, reads, -⟩ := mkfs_read_back ok (by decide) ⟨by decide, by decide, by decide⟩
    ⟨[95, 99, 97, 116], some [[1, 2, 3]]⟩ (by decide)
  exact ⟨img, ip, s, ok, found, (reads [2, 5] (by decide)).1⟩

end Xv6.Mkfs
