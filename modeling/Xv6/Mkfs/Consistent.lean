/-
# Xv6.Mkfs.Consistent -- when the image that mkfs makes is consistent

`Made img text` is the invariant of the program between two appends: the inodes on the disk hold
exactly the blocks handed out, and each has its text. It needs the inode numbers to stay below
`NINODES`, which nothing in the program checks: from the 199th file on they do not. At the end the
size of the root directory is rounded up, by a whole block if its entries fill the last one: then
the last block of its size is not there.
-/
import Xv6.Lib.Graded
import Xv6.Fs.Bitmap
import Xv6.Mkfs.Blocks

namespace Xv6.Mkfs
open Lib List Function
open Fs (Byte Block Dinode Pointer FSSIZE BSIZE IPB NDIRECT ROOTINO T_DIR T_FILE placeOf iblock diskInode
  leBytes strncpy DIRSIZ sizeofDirent)
set_option autoImplicit false

/-! ## Inodes on the disk -/

/-- The inodes of the image. -/
def inodes (img : Image) : Nat → Dinode := fun n =>
  if n < NINODES then diskInode sb img.sector n else Dinode.free

variable {img img' : Image} {n : Nat} {d : Dinode} {ino : Nat → Dinode} {blocks : Nat → Block}

theorem inodes_of_lt (inside : n < NINODES) :
    inodes img n = diskInode sb img.sector n := if_pos inside

theorem small_iblock (inside : n < NINODES) : n / IPB + sb.inodestart < 2 ^ 32 := by
  change n < 200 at inside
  change n / 8 + 32 < _
  omega

theorem iblock_mem (inside : n < NINODES) :
    sb.inodestart ≤ iblock sb n ∧ iblock sb n < sb.bmapstart := by
  rw [Fs.iblock_eq (small_iblock inside)]
  change n < 200 at inside
  change 32 ≤ n / 8 + 32 ∧ n / 8 + 32 < 58
  omega

/-- One inode is written. -/
structure Rewritten (n : Nat) (d : Dinode) (img img' : Image) : Prop where
  inodes : inodes img' = update (inodes img) n d
  sector : ∀ c, c ≠ iblock sb n → img'.sector c = img.sector c
  length : img'.length = img.length
  freeinode : img'.freeinode = img.freeinode
  freeblock : img'.freeblock = img.freeblock

theorem winode_gives (inside : n < NINODES) (fits : d.Fits) :
    Gives (winode n d) img fun _ img' => Rewritten n d img img' := by
  refine .bind rsect_gives ?_
  rintro _ _ ⟨rfl, rfl, onDisk⟩
  refine .update ⟨?_, fun c other => update_of_ne other _ _, ?_, rfl, rfl⟩
  · funext m
    by_cases insideM : m < NINODES
    · rw [inodes_of_lt insideM]
      have stored := Fs.diskInode_store (m := m) (small_iblock inside) (small_iblock insideM) fits
        (update_self (iblock sb n) _ img.sector)
        fun other => update_of_ne other _ _
      rw [stored]
      by_cases here : m = n
      · rw [if_pos here, here, update_self]
      · rw [if_neg here, update_of_ne here, inodes_of_lt insideM]
    · have other : m ≠ n := by
        rintro rfl
        exact insideM inside
      rw [update_of_ne other]
      simp [Mkfs.inodes, insideM]
  · exact Nat.max_eq_left onDisk

theorem rinode_gives (inside : n < NINODES) :
    Gives (rinode n) img fun d img' => img = img' ∧ d = inodes img n := by
  refine .bind rsect_gives ?_
  rintro _ _ ⟨rfl, rfl, -⟩
  exact .pure ⟨rfl, (inodes_of_lt inside).symm⟩

/-! ## The invariant -/

structure Made (img : Image) (text : Nat → List Byte) : Prop where
  base : Base img (inodes img)
  room : img.freeblock ≤ FSSIZE
  first : 1 ≤ img.freeinode
  inums : img.freeinode ≤ NINODES
  used : ∀ n, (inodes img n).type ≠ 0 ↔ 1 ≤ n ∧ n < img.freeinode
  head : ∀ n, (inodes img n).type ≠ 0 → (inodes img n).type = (if n = ROOTINO then T_DIR else T_FILE) ∧
    (inodes img n).nlink = 1 ∧ (inodes img n).major = 0 ∧ (inodes img n).minor = 0
  stores : ∀ n, (inodes img n).type ≠ 0 → Stores (inodes img n) img.sector (text n)
  size : ∀ n, (inodes img n).type ≠ 0 → (inodes img n).size = (text n).length
  blank : ∀ n, (inodes img n).type = 0 → inodes img n = Dinode.free

/-- What the inode blocks hold does not matter to the data blocks. -/
theorem Base.rewrite {ino' : Nat → Dinode} (base : Base img ino) (length : img'.length = img.length)
    (freeblock : img'.freeblock = img.freeblock)
    (sector : ∀ c, nmeta ≤ c → img'.sector c = img.sector c)
    (places : ∀ y, placeOf ino' img.sector y = placeOf ino img.sector y) : Base img' ino' := by
  have allotted : Allotted (placeOf ino' img.sector) (· < img.freeblock) (nmeta ≤ ·) :=
    base.allotted.congr places fun _ _ => Iff.rfl
  have same : ∀ y, placeOf ino' img'.sector y = placeOf ino img.sector y := fun y =>
    (Fs.placeOf_frame allotted sector y).trans (places y)
  refine ⟨length.trans base.length, ?_, ?_, fun b above => ?_, ?_, ?_⟩
  · rw [freeblock]
    exact base.low
  · rw [freeblock]
    exact base.high
  · rw [freeblock] at above
    rw [sector b (Nat.le_trans base.low above)]
    exact base.clean b above
  · rw [freeblock]
    exact base.allotted.congr same fun _ _ => Iff.rfl
  · rw [freeblock]
    exact base.exact.congr same fun _ _ => Iff.rfl

/-- Nor to the contents. -/
theorem Stores.rewrite {text : List Byte} (stores : Stores d img.sector text) (base : Base img ino)
    (is : ino n = d) (live : d.type ≠ 0) (sector : ∀ c, nmeta ≤ c → img'.sector c = img.sector c) :
    Stores d img'.sector text := by
  subst is
  refine ⟨fun l => ?_, fun j => ?_⟩
  · rw [Fs.blockAt_frame base.allotted sector live]
    exact stores.blockAt l
  · rw [Fs.byte_frame base.allotted sector live]
    exact stores.byte j

/-- An inode without blocks. -/
theorem Stores.nil (none : ∀ k, d.addrs k = 0) : Stores d blocks [] := by
  have empty : ∀ l, d.blockAt blocks l = 0 := by
    intro l
    unfold Dinode.blockAt
    split
    · rfl
    · rename_i p _
      cases p with
      | addr k => exact none k
      | entry j => exact Dinode.place_entry_zero (none _)
  exact ⟨fun l => by simp [empty], fun j => by simp [Dinode.byte, empty]⟩

theorem Stores.length_le {text : List Byte} (stores : Stores d blocks text) :
    text.length ≤ Fs.MAXFILE * BSIZE := by
  by_contra longer
  have there := (stores.blockAt Fs.MAXFILE).mpr (Nat.lt_of_not_le longer)
  have none : Pointer.ofBlock Fs.MAXFILE = none := by decide
  simp [Dinode.blockAt, none] at there

/-- Boot block, superblock, log and bitmap stay as they are. -/
def Outside (img img' : Image) : Prop :=
  ∀ c, c < sb.inodestart ∨ c = sb.bmapstart → img'.sector c = img.sector c

theorem Outside.trans {img'' : Image} (first : Outside img img') (second : Outside img' img'') :
    Outside img img'' := fun c which => (second c which).trans (first c which)

theorem Rewritten.data (rewritten : Rewritten n d img img') (inside : n < NINODES) (c : Nat)
    (above : nmeta ≤ c) : img'.sector c = img.sector c := by
  refine rewritten.sector c fun here => ?_
  have low := (iblock_mem inside).2
  change iblock sb n < 58 at low
  change 59 ≤ c at above
  omega

theorem Rewritten.outside (rewritten : Rewritten n d img img') (inside : n < NINODES) :
    Outside img img' := by
  intro c which
  refine rewritten.sector c fun here => ?_
  have bounds := iblock_mem inside
  omega

variable {img₁ : Image} {type sec : Nat} {arg : Arg} {rest : List Arg} {din : Dinode}

/-- The inode that was worked on is written: it has its new text, and the others theirs. -/
theorem Made.store {text : Nat → List Byte} {t : List Byte} (made : Made img text)
    (inside : n < NINODES) (old : inodes img₁ = inodes img)
    (base₁ : Base img₁ (working (inodes img) n d)) (room₁ : img₁.freeblock ≤ FSSIZE)
    (stores₁ : Stores d img₁.sector t) (size : d.size = t.length) (live : d.type ≠ 0)
    (head : d.type = (if n = ROOTINO then T_DIR else T_FILE) ∧ d.nlink = 1 ∧ d.major = 0 ∧ d.minor = 0)
    (others : ∀ m text, m ≠ n → (inodes img m).type ≠ 0 → Stores (inodes img m) img.sector text →
      Stores (inodes img m) img₁.sector text)
    (used : ∀ m, m = n ∨ (inodes img m).type ≠ 0 ↔ 1 ≤ m ∧ m < img₁.freeinode)
    (inums : img₁.freeinode ≤ NINODES) (rewritten : Rewritten n d img₁ img') :
    Made img' (update text n t) := by
  have now : inodes img' = working (inodes img) n d := by
    rw [rewritten.inodes, old]
    rfl
  have new : inodes img' n = d := by rw [now, working_self]
  have other : ∀ m, m ≠ n → inodes img' m = inodes img m := fun m ne => by rw [now, working_other ne]
  have sector := rewritten.data inside
  refine ⟨?_, ?_, ?_, ?_, fun m => ?_, fun m liveM => ?_, fun m liveM => ?_, fun m liveM => ?_,
    fun m free => ?_⟩
  case refine_1 =>
    rw [now]
    exact base₁.rewrite rewritten.length rewritten.freeblock sector fun _ => rfl
  case refine_2 =>
    rw [rewritten.freeblock]
    exact room₁
  case refine_3 =>
    rw [rewritten.freeinode]
    have range := (used n).mp (.inl rfl)
    omega
  case refine_4 =>
    rw [rewritten.freeinode]
    exact inums
  case refine_5 =>
    rw [rewritten.freeinode, ← used]
    by_cases here : m = n
    · rw [here, new]
      exact iff_of_true live (.inl rfl)
    · rw [other m here]
      simp [here]
  all_goals by_cases here : m = n
  case pos =>
    subst here
    rw [new]
    exact head
  case neg =>
    rw [other m here] at liveM ⊢
    exact made.head m liveM
  case pos =>
    subst here
    rw [new, update_self]
    exact stores₁.rewrite base₁ working_self live sector
  case neg =>
    rw [other m here] at liveM ⊢
    rw [update_of_ne here]
    exact (others m _ here liveM (made.stores m liveM)).rewrite base₁ (working_other here) liveM sector
  case pos =>
    subst here
    rw [new, update_self]
    exact size
  case neg =>
    rw [other m here] at liveM ⊢
    rw [update_of_ne here]
    exact made.size m liveM
  case pos =>
    subst here
    rw [new] at free
    exact absurd free live
  case neg =>
    rw [other m here] at free ⊢
    exact made.blank m free

/-- A new inode without contents. -/
theorem ialloc_gives {text : Nat → List Byte} (made : Made img text)
    (space : img.freeinode < NINODES)
    (kind : type = if img.freeinode = ROOTINO then T_DIR else T_FILE) :
    Gives (ialloc type) img fun inum img' => inum = img.freeinode ∧ img'.freeinode = img.freeinode + 1 ∧
      Made img' (update text inum []) ∧ Outside img img' := by
  have live : type ≠ 0 := by
    rw [kind]
    split <;> decide
  have fits : Dinode.Fits { Dinode.free with type := type, nlink := 1 } := by
    refine ⟨?_, ?_, ?_, ?_, ?_, fun _ => ?_⟩ <;> simp [Dinode.free]
    rw [kind]
    split <;> decide
  refine .getBind (.updateBind (.bind (winode_gives space fits) ?_))
  rintro _ img' rewritten
  have wasFree : (inodes img img.freeinode).type = 0 := by
    by_contra used
    exact Nat.lt_irrefl _ ((made.used _).mp used).2
  -- it has no blocks, as before
  have places : ∀ y, placeOf (working (inodes img) img.freeinode
      { Dinode.free with type := type, nlink := 1 }) img.sector y =
      placeOf (inodes img) img.sector y := by
    intro y
    unfold placeOf
    by_cases here : y.1 = img.freeinode
    · rw [here, working_self, if_pos wasFree, if_neg live]
      cases y.2 <;> simp [Dinode.place, Dinode.table, Dinode.free]
    · rw [working_other here]
  have base : Base { img with freeinode := img.freeinode + 1 } (working (inodes img) img.freeinode
      { Dinode.free with type := type, nlink := 1 }) :=
    made.base.rewrite rfl rfl (fun _ _ => rfl) places
  have old : inodes { img with freeinode := img.freeinode + 1 } = inodes img := rfl
  have stored : Made img' (update text img.freeinode []) := by
    refine made.store space old base made.room (Stores.nil fun _ => rfl) rfl live
      ⟨kind, rfl, rfl, rfl⟩ (fun _ _ _ _ held => held) (fun m => ?_) space rewritten
    have first := made.first
    rw [made.used]
    dsimp only
    omega
  exact .pure ⟨rfl, rewritten.freeinode, stored, rewritten.outside space⟩

/-- The addresses of an inode in memory are numbers of blocks. -/
theorem Base.addr_lt (base : Base img ino) (live : (ino n).type ≠ 0) (k : Fin (NDIRECT + 1)) :
    (ino n).addrs k < 2 ^ 32 := by
  by_cases none : (ino n).addrs k = 0
  · rw [none]
    decide
  · have used : (ino n).addrs k < img.freeblock :=
      (Fs.place_sound base.allotted live (p := .addr k) none).2
    have high := base.high
    change _ ≤ 1001 at high
    omega

theorem inodes_congr (same : ∀ c, c < sb.bmapstart → img'.sector c = img.sector c) :
    inodes img' = inodes img := by
  funext m
  by_cases inside : m < NINODES
  · rw [inodes_of_lt inside, inodes_of_lt inside]
    exact Fs.diskInode_congr (same _ (iblock_mem inside).2)
  · simp [inodes, inside]

/-- The size of an inode says nothing about its blocks. -/
theorem placeOf_resize (size : Nat) (y : Nat × Pointer) :
    placeOf (working ino n { d with size := size }) blocks y = placeOf (working ino n d) blocks y := by
  unfold placeOf
  by_cases here : y.1 = n
  · rw [here, working_self, working_self]
    cases y.2 <;> rfl
  · rw [working_other here, working_other here]

theorem iappend_gives {text : Nat → List Byte} {more : List Byte} (made : Made img text)
    (live : (inodes img n).type ≠ 0) :
    Gives (iappend n more) img fun _ img' => img'.freeinode = img.freeinode ∧
      Made img' (update text n (text n ++ more)) ∧ Outside img img' := by
  have inside : n < NINODES := Nat.lt_of_lt_of_le ((made.used n).mp live).2 made.inums
  have same : working (inodes img) n (inodes img n) = inodes img := update_eq_self n _
  refine .bind (rinode_gives inside) ?_
  rintro _ _ ⟨rfl, rfl⟩
  refine .bind (iappendLoop_gives (inodes img n) _ more (made.size n live)
    (by rw [same]; exact made.base) made.room live (made.stores n live)) ?_
  rintro ⟨din, off⟩ img₁ ⟨base₁, room₁, stores₁, atEnd, ⟨addrs, shape⟩, elsewhere⟩
  dsimp only at base₁ stores₁ atEnd shape
  have liveDin : din.type ≠ 0 := by rw [shape]; exact live
  have fits : Dinode.Fits { din with size := off } := by
    have was := Fs.Dinode.decode_fits (img.sector (iblock sb n)) (Fs.inodeOff n)
    change (diskInode sb img.sector n).Fits at was
    rw [← inodes_of_lt inside] at was
    refine ⟨?_, ?_, ?_, ?_, ?_, fun k => ?_⟩
    · rw [shape]; exact was.type
    · rw [shape]; exact was.major
    · rw [shape]; exact was.minor
    · rw [shape]; exact was.nlink
    · have short := stores₁.length_le
      change _ ≤ 71680 at short
      dsimp only
      omega
    · have small := base₁.addr_lt (n := n) (by rw [working_self]; exact liveDin) k
      rwa [working_self] at small
  refine (winode_gives inside fits).mono ?_
  rintro _ img' rewritten
  have base₂ : Base img₁ (working (inodes img) n { din with size := off }) :=
    base₁.rewrite rfl rfl (fun _ _ => rfl) (placeOf_resize off)
  have old : inodes img₁ = inodes img :=
    inodes_congr fun c below => elsewhere.fixed c (Nat.lt_trans below (by decide))
  have stored : Made img' (update text n (text n ++ more)) := by
    refine made.store inside old base₂ room₁ ⟨stores₁.blockAt, stores₁.byte⟩
      atEnd liveDin ?_ (fun m t other liveM held => elsewhere.stores m t other liveM held) (fun m => ?_)
      ?_ rewritten
    · rw [shape]
      exact made.head n live
    · rw [elsewhere.freeinode, ← made.used]
      constructor
      · rintro (rfl | used)
        · exact live
        · exact used
      · exact .inr
    · rw [elsewhere.freeinode]
      exact made.inums
  refine ⟨rewritten.freeinode.trans elsewhere.freeinode, stored, fun c which => ?_⟩
  refine (rewritten.outside inside c which).trans (elsewhere.fixed c ?_)
  change c < 32 ∨ c = 58 at which
  change c < 59
  omega

/-! ## The program -/

/-- The entries of the root directory for files whose inodes are numbered from `inum` on. -/
def entries : Nat → List Arg → List Byte
  | _, [] => []
  | inum, arg :: rest => dirent inum arg.fsName ++ entries (inum + 1) rest

/-- The contents of a file. -/
def Arg.bytes (arg : Arg) : List Byte := (arg.reads.getD []).flatten

/-- Every name is a name, and every file can be opened. -/
def Arg.Good (arg : Arg) : Prop := Fs.slash ∉ arg.name ∧ arg.reads ≠ none

theorem appendReads_gives (reads : List (List Byte)) {text : Nat → List Byte} (made : Made img text)
    (live : (inodes img n).type ≠ 0) :
    Gives (appendReads n reads) img fun _ img' => img'.freeinode = img.freeinode ∧
      Made img' (update text n (text n ++ reads.flatten)) ∧ Outside img img' := by
  induction reads generalizing img text with
  | nil =>
    refine .pure ⟨rfl, ?_, fun _ _ => rfl⟩
    rw [flatten_nil, append_nil, update_eq_self]
    exact made
  | cons cc rest ih =>
    refine .bind (iappend_gives made live) ?_
    rintro _ img₁ ⟨freeinode₁, made₁, outside₁⟩
    have live₁ : (inodes img₁ n).type ≠ 0 := by
      rw [made₁.used, freeinode₁, ← made.used]
      exact live
    refine (ih made₁ live₁).mono ?_
    rintro _ img₂ ⟨freeinode₂, made₂, outside₂⟩
    refine ⟨freeinode₂.trans freeinode₁, ?_, outside₁.trans outside₂⟩
    rwa [update_self, update_idem, append_assoc, ← flatten_cons] at made₂

/-- What the files add to an image. -/
structure Added (args : List Arg) (img img' : Image) (text text' : Nat → List Byte) : Prop where
  made : Made img' text'
  freeinode : img'.freeinode = img.freeinode + args.length
  root : text' ROOTINO = text ROOTINO ++ entries img.freeinode args
  files : ∀ i (inside : i < args.length), text' (img.freeinode + i) = args[i].bytes
  earlier : ∀ n, n ≠ ROOTINO → n < img.freeinode → text' n = text n
  good : ∀ arg ∈ args, arg.Good
  outside : Outside img img'

/-- One file: its inode, its entry and its contents. -/
theorem addFile_gives {reads : List (List Byte)} {text : Nat → List Byte}
    (opens : arg.reads = some reads) (made : Made img text) (hasRoot : 2 ≤ img.freeinode)
    (space : img.freeinode < NINODES) (isName : Fs.slash ∉ arg.name)
    (next : ∀ img₁ text₁, Added [arg] img img₁ text text₁ →
      Gives (addFiles ROOTINO rest) img₁ fun _ img' => ∃ text', Added (arg :: rest) img img' text text')
    :
    Gives (do
      let inum ← ialloc T_FILE
      iappend ROOTINO (dirent inum arg.fsName)
      appendReads inum reads
      addFiles ROOTINO rest) img
      fun _ img' => ∃ text', Added (arg :: rest) img img' text text' := by
  have notRoot : img.freeinode ≠ ROOTINO := fun here => by
    rw [here] at hasRoot
    exact absurd hasRoot (by decide)
  refine .bind (ialloc_gives made space (by rw [if_neg notRoot])) ?_
  rintro _ img₁ ⟨rfl, freeinode₁, made₁, outside₁⟩
  have rootLive : (inodes img₁ ROOTINO).type ≠ 0 := by
    rw [made₁.used, freeinode₁]
    exact ⟨Nat.le_refl _, by change 1 < _; omega⟩
  refine .bind (iappend_gives made₁ rootLive) ?_
  rintro _ img₂ ⟨freeinode₂, made₂, outside₂⟩
  have live : (inodes img₂ img.freeinode).type ≠ 0 := by
    rw [made₂.used, freeinode₂, freeinode₁]
    omega
  refine .bind (appendReads_gives reads made₂ live) ?_
  rintro _ img₃ ⟨freeinode₃, made₃, outside₃⟩
  rw [freeinode₂, freeinode₁] at freeinode₃
  refine next img₃ _ ⟨made₃, freeinode₃, ?_, fun i inside => ?_, fun n other before => ?_, ?_,
    outside₁.trans (outside₂.trans outside₃)⟩
  · rw [update_of_ne notRoot.symm, update_self, update_of_ne notRoot.symm,
      entries, entries, append_nil]
  · have zero : i = 0 := Nat.lt_one_iff.mp inside
    subst zero
    rw [Nat.add_zero, update_self, update_of_ne notRoot, update_self]
    simp [Arg.bytes, opens]
  · have earlier : n ≠ img.freeinode := Nat.ne_of_lt before
    rw [update_of_ne earlier, update_of_ne other, update_of_ne earlier]
  · intro arg' member
    rw [mem_singleton.mp member]
    exact ⟨isName, by simp [opens]⟩

/-- The first file and then the others. -/
theorem Added.cons {img₂ : Image} {text text₁ text₂ : Nat → List Byte}
    (first : Added [arg] img img₁ text text₁) (others : Added rest img₁ img₂ text₁ text₂)
    (notRoot : img.freeinode ≠ ROOTINO) : Added (arg :: rest) img img₂ text text₂ := by
  have count : img₁.freeinode = img.freeinode + 1 := first.freeinode
  refine ⟨others.made, ?_, ?_, fun i inside => ?_, fun n other before => ?_, ?_,
    first.outside.trans others.outside⟩
  · rw [others.freeinode, count, length_cons, Nat.add_assoc, Nat.add_comm 1]
  · rw [others.root, first.root, count]
    simp [entries]
  · cases i with
    | zero =>
      rw [Nat.add_zero, others.earlier _ notRoot (by omega)]
      exact first.files 0 Nat.one_pos
    | succ i =>
      have there := others.files i (Nat.lt_of_succ_lt_succ inside)
      rw [count, Nat.add_assoc, Nat.add_comm 1] at there
      exact there
  · rw [others.earlier n other (by omega), first.earlier n other before]
  · intro arg' member
    rcases mem_cons.mp member with rfl | member
    · exact first.good arg' mem_cons_self
    · exact others.good arg' member

theorem addFiles_gives (args : List Arg) {text : Nat → List Byte} (made : Made img text)
    (hasRoot : 2 ≤ img.freeinode) (space : img.freeinode + args.length ≤ NINODES) :
    Gives (addFiles ROOTINO args) img fun _ img' => ∃ text', Added args img img' text text' := by
  induction args generalizing img text with
  | nil =>
    refine .pure ⟨text, made, rfl, by simp [entries], fun i inside => ?_, fun _ _ _ => rfl,
      by simp, fun _ _ => rfl⟩
    exact absurd inside (Nat.not_lt_zero i)
  | cons arg rest ih =>
    rw [length_cons] at space
    refine .bind assert_gives ?_
    rintro _ _ ⟨rfl, isName⟩
    cases opens : arg.reads with
    | none => exact stop_gives
    | some reads =>
      refine addFile_gives opens made hasRoot (by omega) isName fun img₁ text₁ first => ?_
      have count : img₁.freeinode = img.freeinode + 1 := first.freeinode
      refine (ih first.made (by omega) (by omega)).mono ?_
      rintro _ img₂ ⟨text₂, others⟩
      refine ⟨text₂, first.cons others fun here => ?_⟩
      rw [here] at hasRoot
      exact absurd hasRoot (by decide)

/-- The image file once it is full of zeros. -/
def zeroed (length : Nat) : Image := ⟨length, fun _ _ => 0, 1, nmeta⟩

theorem clear_gives (m i : Nat) :
    Gives (clear (range' i m)) (zeroed i) fun _ img' => img' = zeroed (i + m) := by
  induction m generalizing i with
  | zero => exact .pure rfl
  | succ m ih =>
    refine .updateBind ?_
    have next : ({ zeroed i with
        length := max (zeroed i).length (i + 1)
        sector := update (zeroed i).sector i fun _ => 0 } : Image) = zeroed (i + 1) := by
      have length : max i (i + 1) = i + 1 := Nat.max_eq_right (Nat.le_succ i)
      have sector : update (fun _ _ => 0 : Nat → Block) i (fun _ => 0) = fun _ _ => 0 :=
        update_eq_self i _
      simp only [zeroed, length, sector]
    rw [next, Nat.add_comm m 1, ← Nat.add_assoc]
    exact ih (i + 1)

theorem clear_range_gives {m : Nat} {is : List Nat} (all : range m = is) :
    Gives (clear is) emptyFile fun _ img' => img' = zeroed m := by
  have cleared := clear_gives m 0
  rw [← range_eq_range', Nat.zero_add, all] at cleared
  exact cleared

/-- The image with its superblock and nothing else. -/
def formatted : Image := { zeroed FSSIZE with
  sector := update (zeroed FSSIZE).sector 1 (Block.put (fun _ => 0) 0 (encodeSb sb)) }

theorem formatted_sector {c : Nat} (other : c ≠ 1) : formatted.sector c = fun _ => 0 :=
  update_of_ne other _ _

theorem made_formatted : Made formatted fun _ => [] := by
  have free : ∀ n, inodes formatted n = Dinode.free := by
    intro n
    by_cases inside : n < NINODES
    · have low := (iblock_mem inside).1
      have other : iblock sb n ≠ 1 := fun here => by
        rw [here] at low
        exact absurd low (by decide)
      rw [inodes_of_lt inside, diskInode, formatted_sector other]
      exact Fs.Dinode.decode_zero _
    · exact if_neg inside
  have none : ∀ n, (inodes formatted n).type = 0 := fun n => by rw [free]; rfl
  refine ⟨⟨rfl, Nat.le_refl _, by decide, fun b above => ?_, ⟨fun x held => ?_, fun x y equal held => ?_⟩, ?_⟩,
    by decide, Nat.le_refl _, by decide, fun n => ?_, fun n used => absurd (none n) used,
    fun n used => absurd (none n) used, fun n used => absurd (none n) used, fun n _ => free n⟩
  · have other : b ≠ 1 := fun here => by
      rw [here] at above
      exact absurd above (by decide)
    exact formatted_sector other
  · exact absurd (if_pos (none x.1)) held
  · exact absurd (if_pos (none x.1)) held
  · intro b inside below
    exact absurd below (Nat.not_lt.mpr inside)
  · refine iff_of_false (not_not.mpr (none n)) fun range => ?_
    have below : n < 1 := range.2
    omega

/-- The finished image. -/
structure Finished (args : List Arg) (img : Image) (text : Nat → List Byte) : Prop where
  base : Base img (inodes img)
  room : img.freeblock ≤ FSSIZE
  freeinode : img.freeinode = args.length + 2
  used : ∀ n, (inodes img n).type ≠ 0 ↔ 1 ≤ n ∧ n < img.freeinode
  head : ∀ n, (inodes img n).type ≠ 0 → (inodes img n).type = (if n = ROOTINO then T_DIR else T_FILE) ∧
    (inodes img n).nlink = 1 ∧ (inodes img n).major = 0 ∧ (inodes img n).minor = 0
  stores : ∀ n, (inodes img n).type ≠ 0 → Stores (inodes img n) img.sector (text n)
  size : ∀ n, (inodes img n).type ≠ 0 → (inodes img n).size =
    if n = ROOTINO then ((text n).length / BSIZE + 1) * BSIZE else (text n).length
  blank : ∀ n, (inodes img n).type = 0 → inodes img n = Dinode.free
  root : text ROOTINO = dirent ROOTINO [46] ++ dirent ROOTINO [46, 46] ++ entries 2 args
  files : ∀ i (inside : i < args.length), text (2 + i) = args[i].bytes
  good : ∀ arg ∈ args, arg.Good
  bitmap : img.sector sb.bmapstart = bitmap img.freeblock
  super : img.sector 1 = Block.put (fun _ => 0) 0 (encodeSb sb)
  log : ∀ c, 2 ≤ c → c < sb.inodestart → img.sector c = fun _ => 0

/-- The inode of the root directory at the end. -/
def rounded (d : Dinode) : Dinode := { d with size := (d.size / BSIZE + 1) * BSIZE }

theorem fixRoot_gives {text : Nat → List Byte} (made : Made img text)
    (live : (inodes img ROOTINO).type ≠ 0) :
    Gives (fixRoot ROOTINO) img fun _ img' => Rewritten ROOTINO (rounded (inodes img ROOTINO)) img img' := by
  have inside : ROOTINO < NINODES := by decide
  have fits : (rounded (inodes img ROOTINO)).Fits := by
    have was := Fs.Dinode.decode_fits (img.sector (iblock sb ROOTINO)) (Fs.inodeOff ROOTINO)
    have short := (made.stores ROOTINO live).length_le
    change _ ≤ 71680 at short
    refine ⟨was.type, was.major, was.minor, was.nlink, ?_, was.addrs⟩
    change ((inodes img ROOTINO).size / 512 + 1) * 512 < _
    rw [made.size ROOTINO live]
    omega
  refine .bind (rinode_gives inside) ?_
  rintro _ _ ⟨rfl, rfl⟩
  exact winode_gives inside fits

theorem balloc_gives {used : Nat} :
    Gives (balloc used) img fun _ img' => img' = { img with
      length := max img.length (sb.bmapstart + 1)
      sector := update img.sector sb.bmapstart (bitmap used) } := by
  refine .bind assert_gives ?_
  rintro _ _ ⟨rfl, -⟩
  exact .update rfl

section Finish

variable {args : List Arg} {img : Image} {text : Nat → List Byte}

/-- An image with a rounded root directory and the bitmap of the blocks given out is finished. -/
theorem Made.finished (made : Made img text) (live : (inodes img ROOTINO).type ≠ 0)
    (now : inodes img' = working (inodes img) ROOTINO (rounded (inodes img ROOTINO)))
    (length : img'.length = img.length) (freeblock : img'.freeblock = img.freeblock)
    (counted : img'.freeinode = img.freeinode)
    (data : ∀ c, nmeta ≤ c → img'.sector c = img.sector c)
    (before : ∀ c, c < sb.inodestart → img'.sector c = formatted.sector c)
    (map : img'.sector sb.bmapstart = bitmap img'.freeblock)
    (freeinode : img.freeinode = args.length + 2)
    (root : text ROOTINO = dirent ROOTINO [46] ++ dirent ROOTINO [46, 46] ++ entries 2 args)
    (files : ∀ i (inside : i < args.length), text (2 + i) = args[i].bytes)
    (good : ∀ arg ∈ args, arg.Good) : Finished args img' text := by
  have atRoot : inodes img' ROOTINO = rounded (inodes img ROOTINO) := by rw [now, working_self]
  have elsewhere : ∀ n, n ≠ ROOTINO → inodes img' n = inodes img n := fun n other => by
    rw [now, working_other other]
  have types : ∀ n, (inodes img' n).type = (inodes img n).type := by
    intro n
    by_cases here : n = ROOTINO
    · rw [here, atRoot]
      rfl
    · rw [elsewhere n here]
  have base : Base img' (inodes img') := by
    rw [now]
    refine made.base.rewrite length freeblock data fun y => ?_
    rw [rounded, placeOf_resize, working, update_eq_self]
  refine ⟨base, ?_, counted.trans freeinode, fun n => ?_, fun n used => ?_, fun n used => ?_,
    fun n used => ?_, fun n free => ?_, root, files, good, map, ?_, fun c above below => ?_⟩
  · rw [freeblock]
    exact made.room
  · rw [types, counted]
    exact made.used n
  all_goals try rw [types] at used
  · have head := made.head n used
    by_cases here : n = ROOTINO
    · subst here
      rw [atRoot]
      exact head
    · rw [elsewhere n here]
      exact head
  · have stores := (made.stores n used).rewrite made.base rfl used data
    by_cases here : n = ROOTINO
    · subst here
      rw [atRoot]
      exact ⟨stores.blockAt, stores.byte⟩
    · rw [elsewhere n here]
      exact stores
  · have size := made.size n used
    by_cases here : n = ROOTINO
    · subst here
      rw [atRoot, if_pos rfl, ← size]
      rfl
    · rw [elsewhere n here, if_neg here]
      exact size
  · rw [types] at free
    have other : n ≠ ROOTINO := fun here => live (here ▸ free)
    rw [elsewhere n other]
    exact made.blank n free
  · rw [before 1 (by decide)]
    exact update_self 1 _ (zeroed FSSIZE).sector
  · rw [before c below]
    exact formatted_sector fun here => absurd (here ▸ above) (by decide)

/-- The size of the root directory and the bitmap come last. -/
theorem finish_gives (made : Made img text) (freeinode : img.freeinode = args.length + 2)
    (root : text ROOTINO = dirent ROOTINO [46] ++ dirent ROOTINO [46, 46] ++ entries 2 args)
    (files : ∀ i (inside : i < args.length), text (2 + i) = args[i].bytes)
    (good : ∀ arg ∈ args, arg.Good) (outside : Outside formatted img) :
    Gives (do
      fixRoot ROOTINO
      let img ← get
      balloc img.freeblock) img fun _ img' => Finished args img' text := by
  have live : (inodes img ROOTINO).type ≠ 0 := by
    rw [made.used, freeinode]
    exact ⟨Nat.le_refl _, by change 1 < _; omega⟩
  have inside : ROOTINO < NINODES := by decide
  refine .bind (fixRoot_gives made live) ?_
  rintro _ img₁ rewritten
  refine .getBind (balloc_gives.mono ?_)
  rintro _ img' rfl
  have kept : ∀ c, c ≠ sb.bmapstart →
      update img₁.sector sb.bmapstart (bitmap img₁.freeblock) c = img₁.sector c :=
    fun c other => update_of_ne other _ _
  refine made.finished live ?_ ?_ rewritten.freeblock rewritten.freeinode (fun c above => ?_)
    (fun c below => ?_) (update_self sb.bmapstart _ img₁.sector) freeinode root files good
  · rw [inodes_congr fun c below => kept c (Nat.ne_of_lt below), rewritten.inodes]
    rfl
  · rw [rewritten.length, made.base.length]
    rfl
  · exact (kept c fun here => absurd (here ▸ above) (by decide)).trans (rewritten.data inside c above)
  · refine (kept c fun here => absurd (here ▸ below) (by decide)).trans ?_
    exact (rewritten.outside inside c (.inl below)).trans (outside c (.inl below))

end Finish

theorem main_finished {args : List Arg} (few : args.length + 2 ≤ NINODES)
    (ran : main args emptyFile = .ok ((), img)) : ∃ text, Finished args img text := by
  refine @Ensures.returned _ _ _ (fun _ => False) emptyFile img (main args)
    (fun _ img => ∃ text, Finished args img text) ?_ () ran
  unfold main
  -- the list is long: nothing below is to look into it
  generalize all : range FSSIZE = is
  refine .bind (clear_range_gives all) ?_
  rintro _ _ rfl
  refine .updateBind ?_
  refine .bind (ialloc_gives made_formatted (by decide) rfl) ?_
  rintro inum img₁ ⟨first, freeinode₁, made₁, outside₁⟩
  have isRoot : inum = ROOTINO := first
  subst isRoot
  refine .bind assert_gives ?_
  rintro _ _ ⟨rfl, -⟩
  have live₁ : (inodes img₁ ROOTINO).type ≠ 0 := by
    rw [made₁.used, freeinode₁]
    decide
  refine .bind (iappend_gives made₁ live₁) ?_
  rintro _ img₂ ⟨freeinode₂, made₂, outside₂⟩
  have live₂ : (inodes img₂ ROOTINO).type ≠ 0 := by
    rw [made₂.used, freeinode₂, freeinode₁]
    decide
  refine .bind (iappend_gives made₂ live₂) ?_
  rintro _ img₃ ⟨freeinode₃, made₃, outside₃⟩
  have two : img₃.freeinode = 2 := by
    rw [freeinode₃, freeinode₂, freeinode₁]
    rfl
  refine .bind (addFiles_gives args made₃ (by omega) (by omega)) ?_
  rintro _ img₄ ⟨text, added⟩
  have before : Outside formatted img₄ :=
    outside₁.trans (outside₂.trans (outside₃.trans added.outside))
  refine (finish_gives added.made ?_ ?_ (fun i inside => ?_) added.good before).mono fun _ img' finished =>
    ⟨text, finished⟩
  · rw [added.freeinode, two, Nat.add_comm]
  · rw [added.root, two]
    simp
  · rw [← added.files i inside, two]

/-! ## Inode numbers -/

/-- So many inodes were handed out. -/
def Handed (g : Int) (img img' : Image) : Prop := (img'.freeinode : Int) = img.freeinode + g

instance : Graded Handed where
  refl _ := (add_zero _).symm
  trans first second := by
    unfold Handed at *
    omega

theorem stop_handed {α : Type} {reason : Stop} {g : α → Int} : Adds Handed g (stop reason) := Adds.stop

theorem assert_handed {c : Prop} [Decidable c] {text : String} : Keeps Handed (assert c text) := by
  unfold assert
  split
  · exact .pure
  · exact stop_handed

theorem wsect_handed {buf : Block} : Keeps Handed (wsect sec buf) :=
  .update fun _ => (add_zero _).symm

theorem rsect_handed : Keeps Handed (rsect sec) := by
  refine .bind .get fun img => ?_
  split
  · exact .pure
  · exact stop_handed

theorem winode_handed : Keeps Handed (winode n d) :=
  .bind rsect_handed fun _ => wsect_handed

theorem rinode_handed : Keeps Handed (rinode n) :=
  .bind rsect_handed fun _ => .pure

theorem ialloc_handed : Adds Handed (fun _ => 1) (ialloc type) := by
  intro img inum img' ran
  obtain ⟨_, _, got, ran⟩ := run_bind ran
  cases got
  obtain ⟨_, img₁, counted, ran⟩ := run_bind ran
  have step : img₁.freeinode = img.freeinode + 1 := by rw [run_modify counted]
  have rest : Handed 0 img₁ img' := Keeps.bind winode_handed (fun _ => Keeps.pure) _ _ _ ran
  unfold Handed at rest ⊢
  dsimp only
  omega

theorem nextBlock_handed : Keeps Handed nextBlock :=
  .bind .get fun _ => .bind (.update fun _ => (add_zero _).symm) fun _ => .pure

theorem addrAt_handed {k : Fin (NDIRECT + 1)} : Keeps Handed (addrAt din k) := by
  unfold addrAt
  split
  · exact .bind nextBlock_handed fun _ => .pure
  · exact .pure

theorem blockFor_handed {fbn : Nat} : Keeps Handed (blockFor din fbn) := by
  refine .bind assert_handed fun _ => ?_
  split
  · exact .bind addrAt_handed fun _ => .pure
  · refine .bind addrAt_handed fun _ => .bind rsect_handed fun _ => ?_
    split
    · exact .bind nextBlock_handed fun _ => .bind wsect_handed fun _ => .pure
    · exact .pure

theorem iappendLoop_handed (din : Dinode) (off : Nat) (text : List Byte) :
    Keeps Handed (iappendLoop din off text) := by
  induction din, off, text using iappendLoop.induct with
  | case1 din off text more ih =>
    unfold iappendLoop
    rw [dif_pos more]
    exact .bind blockFor_handed fun found => .bind rsect_handed fun _ =>
      .bind wsect_handed fun _ => ih _
  | case2 din off text done =>
    unfold iappendLoop
    rw [dif_neg done]
    exact .pure

theorem iappend_handed {text : List Byte} : Keeps Handed (iappend n text) :=
  .bind rinode_handed fun _ => .bind (iappendLoop_handed _ _ _) fun _ => winode_handed

theorem clear_handed (is : List Nat) : Keeps Handed (clear is) := by
  induction is with
  | nil => exact .pure
  | cons i rest ih => exact .bind wsect_handed fun _ => ih

theorem appendReads_handed (reads : List (List Byte)) : Keeps Handed (appendReads n reads) := by
  induction reads with
  | nil => exact .pure
  | cons cc rest ih => exact .bind iappend_handed fun _ => ih

theorem addFiles_handed {root : Nat} (args : List Arg) :
    Adds Handed (fun _ => args.length) (addFiles root args) := by
  induction args with
  | nil => exact .pure rfl
  | cons arg rest ih =>
    refine .after assert_handed fun _ => ?_
    split
    · exact stop_handed
    · refine .bind ialloc_handed fun _ => .after iappend_handed fun _ =>
        .after (appendReads_handed _) fun _ => ih.congr fun _ => ?_
      rw [length_cons]
      omega

/-- Every file has an inode of its own, and the root directory has one. -/
theorem main_handed (args : List Arg) : Adds Handed (fun _ => args.length + 1) (main args) := by
  refine .after (clear_handed _) fun _ => .after wsect_handed fun _ =>
    .bind ialloc_handed fun root => .after assert_handed fun _ =>
    .after iappend_handed fun _ => .after iappend_handed fun _ =>
    .bind (addFiles_handed args) fun _ => ?_
  have zero : Keeps Handed (do
      fixRoot root
      let img ← get
      balloc img.freeblock) :=
    .bind (.bind rinode_handed fun _ => winode_handed) fun _ => .bind .get fun _ =>
      .bind assert_handed fun _ => wsect_handed
  exact zero.congr fun _ => by omega

/-! ## Consistency -/

theorem used_bitmap {used b : Nat} : Fs.Used (bitmap used) b ↔ b < used := by
  induction used with
  | zero => simp [Fs.Used, bitmap]
  | succ i ih =>
    have step : bitmap (i + 1) = Fs.mark (bitmap i) i := rfl
    rw [step, Fs.used_mark_iff, ih]
    omega

/-- The numbers handed out. -/
def Image.Numbered (img : Image) (n : Nat) : Prop := 1 ≤ n ∧ n < img.freeinode

/-- What is asked of the image: the blocks of its inodes are distinct data blocks, the bitmap marks these
and no others, the inodes are inside the inode area, and their contents have no holes. -/
structure Consistent (img : Image) : Prop where
  distinct : ∀ n p m q, img.Numbered n → img.Numbered m →
    (diskInode sb img.sector n).place img.sector p ≠ 0 →
    (diskInode sb img.sector n).place img.sector p = (diskInode sb img.sector m).place img.sector q →
    n = m ∧ p = q
  inside : ∀ n p, img.Numbered n → (diskInode sb img.sector n).place img.sector p ≠ 0 →
    nmeta ≤ (diskInode sb img.sector n).place img.sector p ∧
      (diskInode sb img.sector n).place img.sector p < FSSIZE
  marked : ∀ b, nmeta ≤ b → b < FSSIZE → (Fs.Used (img.sector sb.bmapstart) b ↔
    ∃ n p, img.Numbered n ∧ (diskInode sb img.sector n).place img.sector p = b)
  inums : ∀ n, img.Numbered n → n < sb.ninodes
  covered : ∀ n off, img.Numbered n → off < (diskInode sb img.sector n).size →
    (diskInode sb img.sector n).blockAt img.sector (off / BSIZE) ≠ 0

section Result

variable {args : List Arg} {img : Image}

theorem mkfs_ok (ok : mkfs args = .ok img) : main args emptyFile = .ok ((), img) := by
  unfold mkfs at ok
  cases ran : main args emptyFile with
  | error reason =>
    rw [ran] at ok
    cases ok
  | ok result =>
    rw [ran] at ok
    cases ok
    rfl

theorem mkfs_finished (ok : mkfs args = .ok img) (few : args.length + 2 ≤ NINODES) :
    ∃ text, Finished args img text := main_finished few (mkfs_ok ok)

theorem mkfs_freeinode (ok : mkfs args = .ok img) : img.freeinode = args.length + 2 := by
  have handed := main_handed args _ _ _ (mkfs_ok ok)
  have first : emptyFile.freeinode = 1 := rfl
  unfold Handed at handed
  dsimp only at handed
  omega

@[simp] theorem dirent_length (inum : Nat) (name : List Byte) : (dirent inum name).length = sizeofDirent := by
  have padded : (strncpy name DIRSIZ).length = DIRSIZ := by
    rw [strncpy, length_append, length_take, length_replicate]
    omega
  rw [dirent, length_append, Fs.leBytes_length, padded]

theorem entries_length (inum : Nat) (args : List Arg) :
    (entries inum args).length = args.length * sizeofDirent := by
  induction args generalizing inum with
  | nil => simp [entries]
  | cons arg rest ih =>
    rw [entries, length_append, dirent_length, ih, length_cons, Nat.succ_mul, Nat.add_comm]

variable {text : Nat → List Byte}

theorem Finished.rootLength (finished : Finished args img text) :
    (text ROOTINO).length = (args.length + 2) * sizeofDirent := by
  rw [finished.root, length_append, length_append, dirent_length, dirent_length, entries_length]
  ring

section Few

variable {n : Nat}

theorem Finished.live (finished : Finished args img text) (numbered : img.Numbered n) :
    (inodes img n).type ≠ 0 := (finished.used n).mpr numbered

variable (finished : Finished args img text) (few : args.length + 2 ≤ NINODES)
  (numbered : img.Numbered n)
include finished few numbered

theorem Finished.disk : diskInode sb img.sector n = inodes img n := by
  have below := numbered.2
  rw [finished.freeinode] at below
  exact (inodes_of_lt (Nat.lt_of_lt_of_le below few)).symm

theorem Finished.place (p : Pointer) :
    (diskInode sb img.sector n).place img.sector p = placeOf (inodes img) img.sector (n, p) := by
  rw [finished.disk few numbered, Fs.placeOf_live (finished.live numbered)]

/-- Which blocks of the contents are there. -/
theorem Finished.there (l : Nat) :
    (diskInode sb img.sector n).blockAt img.sector l ≠ 0 ↔ l * BSIZE < (text n).length := by
  rw [finished.disk few numbered]
  exact (finished.stores n (finished.live numbered)).blockAt l

end Few

/-- The blocks below the rounded size of the root directory are there unless its entries fill them. -/
theorem covered_root {k off : Nat} (notFull : k % (BSIZE / sizeofDirent) ≠ 0)
    (below : off < (k * sizeofDirent / BSIZE + 1) * BSIZE) : off / BSIZE * BSIZE < k * sizeofDirent := by
  change k % 32 ≠ 0 at notFull
  change off < (k * 16 / 512 + 1) * 512 at below
  change off / 512 * 512 < k * 16
  omega

theorem Finished.consistent (finished : Finished args img text) (few : args.length + 2 ≤ NINODES)
    (notFull : (args.length + 2) % (BSIZE / sizeofDirent) ≠ 0) : Consistent img where
  distinct := fun n p m q numberedN numberedM held equal => by
    rw [finished.place few numberedN] at held equal
    rw [finished.place few numberedM] at equal
    have same := finished.base.allotted.inj (n, p) (m, q) equal held
    exact Prod.mk.inj same
  inside := fun n p numbered held => by
    rw [finished.place few numbered] at held ⊢
    have sound := finished.base.allotted.sound (n, p) held
    exact ⟨sound.1, Nat.lt_of_lt_of_le sound.2 finished.room⟩
  marked := fun b low high => by
    rw [finished.bitmap, used_bitmap]
    constructor
    · intro used
      obtain ⟨⟨n, p⟩, holds⟩ := finished.base.exact b low used
      have notZero : placeOf (inodes img) img.sector (n, p) ≠ 0 := by
        rw [holds]
        exact Nat.pos_iff_ne_zero.mp (Nat.lt_of_lt_of_le (by decide) low)
      have numbered : img.Numbered n := (finished.used n).mp fun free => notZero (if_pos free)
      exact ⟨n, p, numbered, (finished.place few numbered p).trans holds⟩
    · rintro ⟨n, p, numbered, rfl⟩
      rw [finished.place few numbered] at low ⊢
      refine (finished.base.allotted.sound (n, p) ?_).2
      exact Nat.pos_iff_ne_zero.mp (Nat.lt_of_lt_of_le (by decide) low)
  inums := fun n numbered => by
    have below := numbered.2
    rw [finished.freeinode] at below
    exact Nat.lt_of_lt_of_le below few
  covered := fun n off numbered below => by
    rw [finished.there few numbered]
    rw [finished.disk few numbered, finished.size n (finished.live numbered)] at below
    by_cases root : n = ROOTINO
    · subst root
      rw [if_pos rfl, finished.rootLength] at below
      rw [finished.rootLength]
      exact covered_root notFull below
    · rw [if_neg root] at below
      exact Nat.lt_of_le_of_lt (Nat.div_mul_le_self off BSIZE) below

/-- The block after the entries of the root directory is below its size and not there. -/
theorem Finished.hole (finished : Finished args img text) (few : args.length + 2 ≤ NINODES)
    (full : (args.length + 2) % (BSIZE / sizeofDirent) = 0) : ¬ Consistent img := by
  intro consistent
  have numbered : img.Numbered ROOTINO := by
    refine ⟨Nat.le_refl _, ?_⟩
    rw [finished.freeinode]
    change 1 < _
    omega
  have size : (diskInode sb img.sector ROOTINO).size =
      ((args.length + 2) * sizeofDirent / BSIZE + 1) * BSIZE := by
    rw [finished.disk few numbered, finished.size ROOTINO (finished.live numbered), if_pos rfl,
      finished.rootLength]
  have there := consistent.covered ROOTINO ((args.length + 2) * sizeofDirent) numbered (by
    rw [size]
    change _ < (_ / 512 + 1) * 512
    omega)
  rw [finished.there few numbered, finished.rootLength] at there
  change (args.length + 2) % 32 = 0 at full
  change (args.length + 2) * 16 / 512 * 512 < (args.length + 2) * 16 at there
  omega

/-- **The image is consistent for at most 198 files, unless the entries of the root directory fill
its last block.** Then the rounded size of the root directory has a block more than there is; and from the
199th file on the inode numbers are not below `sb.ninodes`. -/
theorem mkfs_consistent_iff (ok : mkfs args = .ok img) :
    Consistent img ↔
      args.length + 2 ≤ NINODES ∧ (args.length + 2) % (BSIZE / sizeofDirent) ≠ 0 := by
  constructor
  · intro consistent
    have count := mkfs_freeinode ok
    have few : args.length + 2 ≤ NINODES := by
      have last := consistent.inums (args.length + 1) ⟨by omega, by omega⟩
      exact last
    obtain ⟨text, finished⟩ := mkfs_finished ok few
    exact ⟨few, fun full => finished.hole few full consistent⟩
  · rintro ⟨few, notFull⟩
    obtain ⟨text, finished⟩ := mkfs_finished ok few
    exact finished.consistent few notFull

end Result

theorem mkfs_of_isOk (args : List Arg) (isOk : (mkfs args).isOk = true) : ∃ img, mkfs args = .ok img := by
  cases made : mkfs args with
  | error reason =>
    rw [made] at isOk
    cases isOk
  | ok img => exact ⟨img, rfl⟩

/-- A file of 13 blocks, the last of them past the direct ones, and one of a single byte. -/
def longFile : List Arg := [⟨[97], some (replicate 13 (replicate 512 7))⟩, ⟨[98], some [[1]]⟩]

theorem mkfs_consistent_longFile : ∃ img, mkfs longFile = .ok img ∧ Consistent img := by
  obtain ⟨img, ok⟩ := mkfs_of_isOk longFile (by decide +kernel)
  exact ⟨img, ok, (mkfs_consistent_iff ok).mpr (by decide)⟩

/-- Files without contents, all of one name. -/
def emptyFiles (n : Nat) : List Arg := replicate n ⟨[97], some []⟩

/-- Thirty files: the entries of the root directory fill one block, and its size says two. -/
theorem mkfs_thirtyFiles_hole : ∃ img, mkfs (emptyFiles 30) = .ok img ∧ ¬ Consistent img := by
  obtain ⟨img, ok⟩ := mkfs_of_isOk (emptyFiles 30) (by decide +kernel)
  obtain ⟨text, finished⟩ := mkfs_finished ok (by decide)
  exact ⟨img, ok, finished.hole (by decide) (by decide)⟩

end Xv6.Mkfs
