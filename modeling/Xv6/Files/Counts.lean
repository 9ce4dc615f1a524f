/-
# Xv6.Files.Counts -- what the open files, descriptors and working directories hold

Every reference is counted from both sides. `Books h k` says that the counters of the kernel `k` agree
with the tables, up to what the running call has in hand (`h`):

* `ref` of a file is the number of descriptors that point to it;
* `ref` of an inode in memory is the number of open files and working directories that have it;
* an end of a pipe is open if one file has it, and no file has it otherwise;
* a token (a pipe end or inode reference that a file was given) is held by one file or was released
  once, and not both.

Each function of file.c, pipe.c and sysfile.c has one lemma that says how it moves the hand; a system
call begins and ends with an empty one.
-/
import Xv6.Lib.Count
import Xv6.Lib.Ensures
import Xv6.Fs.Fcopy
import Xv6.Files.Kernel

namespace Xv6.Files
open Lib Function
open Fs (Slot FsM Byte Moved)
set_option autoImplicit false

/-! ## What is counted -/

def File.inode (f : File) : Option Slot := if f.type = .FD_INODE then some f.ip else none

/-- A pipe's page and whether it is the end to write to. -/
def File.pipeEnd (f : File) : Option (Nat × Bool) :=
  if f.type = .FD_PIPE then some (f.pipe, f.writable) else none

def File.held (f : File) : Option Nat := if f.type = .FD_NONE then none else some f.token

def descriptors (ofile : Proc → Fd → Option FileSlot) : Proc × Fd → Option FileSlot :=
  fun d => ofile d.1 d.2

/-- The working directories of the processes that live. -/
def cwds (live : Proc → Bool) (cwd : Proc → Slot) : Proc → Option Slot :=
  fun p => if live p then some (cwd p) else none

def isOpen (pipes : Nat → Option Ends) (page : Nat) (writable : Bool) : Bool :=
  match pipes page with
  | none => false
  | some ends => if writable then ends.writeopen else ends.readopen

/-- What the running call has in hand, and no table. -/
@[ext] structure Hand where
  files : FileSlot → Int
  inodes : Slot → Int
  ends : Nat × Bool → Int
  tokens : Nat → Int
  /-- files in use that have no type yet -/
  fresh : FileSlot → Prop
  /-- a child that does not run yet -/
  forming : Proc → Prop

def Hand.empty : Hand := ⟨0, 0, 0, 0, fun _ => False, fun _ => False⟩

structure Books (h : Hand) (k : Kernel) : Prop where
  files : ∀ f, (k.file f).ref = (holders (descriptors k.ofile) f).card + h.files f
  typed : ∀ f, (k.file f).type = .FD_NONE ↔ (k.file f).ref = 0 ∨ h.fresh f
  inodes : ∀ i, (k.fs.icache i).ref = (holders (File.inode ∘ k.file) i).card +
    (holders (cwds k.live k.cwd) i).card + h.inodes i
  ends : ∀ e, (holders (File.pipeEnd ∘ k.file) e).card + h.ends e =
    if isOpen k.pipes e.1 e.2 then 1 else 0
  alive : ∀ page ends, k.pipes page = some ends → ends.readopen = true ∨ ends.writeopen = true
  tokens : ∀ t, (holders (File.held ∘ k.file) t).card + k.released.count t + h.tokens t =
    if t < k.tokens then 1 else 0
  clean : ∀ p, k.live p = false → ¬h.forming p → ∀ fd, k.ofile p fd = none

/-- The ends that no call may come to. -/
def Bad (halt : Halt) : Prop := halt = .panic "filedup" ∨ halt = .panic "fileclose" ∨ halt = .freed

abbrev KSafe {α : Type} (m : KM α) (k : Kernel) (Q : α → Kernel → Prop) : Prop := Ensures Bad m k Q

/-- What only `open`, `close`, `fork` and the like change. -/
structure SameTables (k k' : Kernel) : Prop where
  ofile : k'.ofile = k.ofile
  live : k'.live = k.live
  cwd : k'.cwd = k.cwd

variable {k : Kernel} {α : Type} {e : Event}
  {k' : Kernel} {t : Nat} {done : Except Halt (Result × Kernel)}

theorem SameTables.trans {k'' : Kernel} (first : SameTables k k') (second : SameTables k' k'') :
    SameTables k k'' :=
  ⟨second.ofile.trans first.ofile, second.live.trans first.live, second.cwd.trans first.cwd⟩

theorem hit_eq_single [DecidableEq α] (a b : α) :
    (hit (some a) b : Int) = Pi.single (M := fun _ => Int) a 1 b := by
  by_cases same : b = a
  · simp [same]
  · simp [same, hit, Ne.symm same]

section Steps

variable {h : Hand} {k : Kernel} {p : Proc} {f : FileSlot} {fd : Fd}

/-! ## Single changes -/

theorem panicIf_safe {c : Prop} [Decidable c] {text : Panic} (fine : c → ¬Bad (.panic text)) :
    KSafe (panicIf c text) k fun _ k' => k' = k ∧ ¬c := by
  unfold panicIf
  split
  · rename_i holds
    exact .stop (fine holds)
  · rename_i notHolds
    exact .pure ⟨rfl, notHolds⟩

variable {m : FsM α} {pipes : Nat → Option Ends} {ends : Ends} {piped : Option (List Byte)}

/-- What the file system does moves references to inodes, and nothing else in the tables. -/
theorem inFs_books {g : α → Fs.Count} (adds : Adds Moved g m) (books : Books h k) :
    KSafe (inFs p m) k fun a k' =>
      Books { h with inodes := h.inodes + (g a).2 } k' ∧ ∃ fs, k' = { k with fs := fs } := by
  unfold KSafe Ensures inFs
  cases ran : m { k.fs with pid := p + 1, cwd := k.cwd p } with
  | error fault => simp [Bad]
  | ok result =>
    obtain ⟨a, fs⟩ := result
    refine ⟨{ books with inodes := fun i => ?_ }, fs, rfl⟩
    have moved := (adds _ _ _ ran).refs i
    have before := books.inodes i
    dsimp only at moved ⊢
    rw [Pi.add_apply]
    omega

/-- Two accounts of the same hand. -/
theorem Books.cast {h' : Hand} (books : Books h k) (same : h' = h) : Books h' k := same ▸ books

/-- A change to a file: what it had comes into the hand, what it has now was there. -/
theorem Books.setFile (books : Books h k) (file : File) (fresh : FileSlot → Prop)
    (typed : file.type = .FD_NONE ↔ file.ref = 0 ∨ fresh f)
    (others : ∀ g, g ≠ f → (fresh g ↔ h.fresh g)) :
    Books { h with
      files := h.files + Pi.single f (file.ref - (k.file f).ref)
      inodes := fun i => h.inodes i + hit (k.file f).inode i - hit file.inode i
      ends := fun e => h.ends e + hit (k.file f).pipeEnd e - hit file.pipeEnd e
      tokens := fun t => h.tokens t + hit (k.file f).held t - hit file.held t
      fresh := fresh }
      { k with file := update k.file f file } := by
  -- whatever is counted, one place changes
  have moved : ∀ {P : Type} [DecidableEq P] (view : File → Option P) (x : P),
      (holders (view ∘ update k.file f file) x).card + hit (view (k.file f)) x =
        (holders (view ∘ k.file) x).card + hit (view file) x := by
    intro P _ view x
    rw [Function.comp_update]
    exact card_holders_update
  refine ⟨fun g => ?_, fun g => ?_, fun i => ?_, fun e => ?_, books.alive, fun t => ?_, books.clean⟩
  · have before := books.files g
    dsimp only
    rw [Pi.add_apply]
    by_cases here : g = f
    · subst here
      simp only [update_self, Pi.single_eq_same]
      omega
    · simp only [update_of_ne here, Pi.single_eq_of_ne here]
      omega
  · by_cases here : g = f
    · subst here
      simpa only [update_self] using typed
    · simp only [update_of_ne here, others g here]
      exact books.typed g
  · have before := books.inodes i
    have count := moved File.inode i
    dsimp only
    omega
  · have before := books.ends e
    have count := moved File.pipeEnd e
    dsimp only
    rw [← before]
    omega
  · have before := books.tokens t
    have count := moved File.held t
    dsimp only
    omega

theorem descriptors_update {ofile : Proc → Fd → Option FileSlot} {c : Option FileSlot} :
    descriptors (update ofile p (update (ofile p) fd c)) =
      update (descriptors ofile) (p, fd) c := by
  funext d
  unfold descriptors
  by_cases sameProc : d.1 = p
  · by_cases sameFd : d.2 = fd
    · have here : d = (p, fd) := Prod.ext sameProc sameFd
      simp [here]
    · have other : d ≠ (p, fd) := fun here => sameFd (congrArg Prod.snd here)
      simp [sameProc, sameFd, other]
  · have other : d ≠ (p, fd) := fun here => sameProc (congrArg Prod.fst here)
    simp [sameProc, other]

/-- A descriptor that is taken stands for a reference in hand, and one that is given up leaves it
there. -/
theorem Books.setOfile (books : Books h k) (fd : Fd) (c : Option FileSlot)
    (running : k.live p = true ∨ h.forming p ∨ c = none) :
    Books { h with files := fun g => h.files g + hit (k.ofile p fd) g - hit c g }
      { k with ofile := update k.ofile p (update (k.ofile p) fd c) } := by
  refine { books with files := fun g => ?_, clean := ?_ }
  · have before := books.files g
    have moved := card_holders_update (f := descriptors k.ofile) (a := (p, fd)) (c := c) (x := g)
    rw [← descriptors_update] at moved
    change _ + hit (k.ofile p fd) g = _ at moved
    dsimp only
    omega
  · intro q stopped notForming fd'
    have empty := books.clean q stopped notForming
    by_cases sameProc : q = p
    · subst sameProc
      rcases running with live | forming | none
      · rw [stopped] at live
        cases live
      · exact absurd forming notForming
      · by_cases sameFd : fd' = fd
        · simp [sameFd, none]
        · simp [sameFd, empty fd']
    · simp [sameProc, empty fd']

/-! ## file.c -/

/-- More or fewer references to a file that stays in use. -/
theorem Books.setRef (books : Books h k) {n : Int} (used : (k.file f).ref ≠ 0)
    (stays : (k.file f).ref + n ≠ 0) :
    Books { h with files := h.files + Pi.single f n }
      { k with file := update k.file f { k.file f with ref := (k.file f).ref + n } } := by
  have typed := books.typed f
  refine (books.setFile _ h.fresh ?_ fun _ _ => Iff.rfl).cast ?_
  · simp only [used, false_or] at typed
    simp only [stays, false_or, typed]
  · ext <;> simp [File.inode, File.pipeEnd, File.held]

theorem File.untyped {file : File} (isNone : file.type = .FD_NONE) :
    file.inode = none ∧ file.pipeEnd = none ∧ file.held = none := by
  simp [File.inode, File.pipeEnd, File.held, isNone]

theorem filealloc_books (books : Books h k) :
    KSafe filealloc k fun r k' =>
      match r with
      | none => k' = k
      | some f => (k.file f).ref = 0 ∧ k' = { k with file := k'.file } ∧
          (∀ g, g ≠ f → k'.file g = k.file g) ∧ (k'.file f).ref = 1 ∧
          Books { h with files := h.files + Pi.single f 1, fresh := fun g => g = f ∨ h.fresh g } k' := by
  refine .getBind ?_
  split
  · exact .pure rfl
  · rename_i f found
    have free : (k.file f).ref = 0 := by simpa using List.find?_some found
    have isNone : (k.file f).type = .FD_NONE := (books.typed f).mpr (.inl free)
    refine .updateBind (.pure ⟨free, rfl, ?_, ?_, ?_⟩)
    · intro g other
      exact update_of_ne other _ _
    · dsimp only
      rw [update_self]
    · refine (books.setFile { k.file f with ref := 1 } (fun g => g = f ∨ h.fresh g) (by simp [isNone])
        fun g other => by simp [other]).cast ?_
      ext <;> simp [free, File.inode, File.pipeEnd, File.held]

theorem filedup_books (books : Books h k) (used : 1 ≤ (k.file f).ref) :
    KSafe (filedup f) k fun _ k' => SameTables k k' ∧
      Books { h with files := h.files + Pi.single f 1 } k' := by
  refine .getBind (.bind (panicIf_safe fun unused => ?_) ?_)
  · omega
  · rintro _ _ ⟨rfl, -⟩
    refine .update ⟨⟨rfl, rfl, rfl⟩, books.setRef ?_ ?_⟩
    · omega
    · omega

/-- What is left of a pipe when one of its ends is closed. -/
def Ends.left (ends : Ends) (writable : Bool) : Option Ends :=
  let ends := if writable then { ends with writeopen := false } else { ends with readopen := false }
  if ends.readopen = false ∧ ends.writeopen = false then none else some ends

theorem isOpen_left {page : Nat} (there : pipes page = some ends) (writable : Bool) (e : Nat × Bool)
    :
    isOpen (update pipes page (ends.left writable)) e.1 e.2 =
      (isOpen pipes e.1 e.2 && decide (e ≠ (page, writable))) := by
  obtain ⟨page', writable'⟩ := e
  by_cases same : page' = page
  · subst same
    obtain ⟨readopen, writeopen⟩ := ends
    simp only [isOpen, update_self, there, Ends.left]
    cases writable <;> cases writable' <;> cases readopen <;> cases writeopen <;> simp
  · simp [isOpen, same]

variable {writable : Bool} {ip : Slot} {path : Option (List Byte)}

theorem left_alive {ends' : Ends} (some : ends.left writable = some ends') :
    ends'.readopen = true ∨ ends'.writeopen = true := by
  unfold Ends.left at some
  grind

/-- Closing an end in hand. -/
theorem pipeclose_books {page : Nat} (books : Books h k) (inHand : 1 ≤ h.ends (page, writable)) :
    KSafe (pipeclose page writable) k fun _ k' => SameTables k k' ∧ k'.file = k.file ∧
      Books { h with ends := fun e => h.ends e - hit (some (page, writable)) e } k' := by
  have isOpened : isOpen k.pipes page writable = true := by
    have count := books.ends (page, writable)
    by_contra closed
    rw [if_neg closed] at count
    omega
  refine .getBind ?_
  cases there : k.pipes page with
  | none => simp [isOpen, there] at isOpened
  | some ends =>
    refine .update ⟨⟨rfl, rfl, rfl⟩, rfl, { books with ends := fun e => ?_, alive := ?_ }⟩
    · have before := books.ends e
      have after := isOpen_left there writable e
      unfold Ends.left at after
      rw [after, ← add_sub_assoc, before]
      by_cases same : e = (page, writable)
      · simp [same, isOpened]
      · simp [same, hit, Ne.symm same]
    · intro page' ends' some
      dsimp only at some
      by_cases same : page' = page
      · rw [same, update_self] at some
        exact left_alive some
      · rw [update_of_ne same] at some
        exact books.alive page' ends' some

theorem release_books (books : Books h k) :
    Books { h with tokens := fun u => h.tokens u - hit (some t) u }
      { k with released := t :: k.released } := by
  refine { books with tokens := fun u => ?_ }
  have before := books.tokens u
  rw [← before, List.count_cons]
  simp only [hit, Option.some.injEq, beq_iff_eq]
  split <;> push_cast <;> omega

/-- An inode put in a transaction of its own. -/
theorem putOp_adds : Adds Moved (fun _ => -Fs.oneRef ip) (do
    Fs.beginOp
    Fs.iput ip
    Fs.endOp : FsM Unit) := by
  refine .bind Fs.beginOp_adds fun _ => .bind Fs.iput_adds fun _ => ?_
  refine Fs.endOp_adds.congr fun _ => ?_
  abel

/-- What a file had is given back. -/
theorem closeLast_books {ff : File} (books : Books h k)
    (inHand : ∀ e, ff.pipeEnd = some e → 1 ≤ h.ends e) :
    KSafe (closeLast p ff) k fun _ k' => SameTables k k' ∧ k'.file = k.file ∧
      Books { h with
        inodes := fun i => h.inodes i - hit ff.inode i
        ends := fun e => h.ends e - hit ff.pipeEnd e
        tokens := fun t => h.tokens t - hit ff.held t } k' := by
  unfold closeLast
  cases type : ff.type with
  | FD_NONE =>
    obtain ⟨noInode, noEnd, noToken⟩ := File.untyped type
    refine .pure ⟨⟨rfl, rfl, rfl⟩, rfl, ?_⟩
    simpa [noInode, noEnd, noToken] using books
  | FD_PIPE =>
    have noInode : ff.inode = none := by simp [File.inode, type]
    have isEnd : ff.pipeEnd = some (ff.pipe, ff.writable) := by simp [File.pipeEnd, type]
    have isHeld : ff.held = some ff.token := by simp [File.held, type]
    refine .updateBind ((pipeclose_books (release_books books) (inHand _ isEnd)).mono ?_)
    rintro _ k' ⟨same, files, closed⟩
    refine ⟨⟨same.ofile, same.live, same.cwd⟩, files, ?_⟩
    simpa [noInode, isEnd, isHeld] using closed
  | FD_INODE =>
    have isInode : ff.inode = some ff.ip := by simp [File.inode, type]
    have noEnd : ff.pipeEnd = none := by simp [File.pipeEnd, type]
    have isHeld : ff.held = some ff.token := by simp [File.held, type]
    refine .updateBind ((inFs_books putOp_adds (release_books books)).mono ?_)
    rintro _ k' ⟨put, fs, rfl⟩
    refine ⟨⟨rfl, rfl, rfl⟩, rfl, put.cast ?_⟩
    ext <;> simp [isInode, noEnd, isHeld, hit_eq_single, Fs.oneRef, sub_eq_add_neg]

theorem fileclose_books (books : Books h k) (used : 1 ≤ (k.file f).ref)
    (fresh : h.fresh f → (k.file f).ref = 1) (noEnds : ∀ e, h.ends e = 0) :
    KSafe (fileclose p f) k fun _ k' => SameTables k k' ∧ (∀ g, g ≠ f → k'.file g = k.file g) ∧
      Books { h with
        files := h.files + Pi.single f (-1)
        fresh := fun g => g ≠ f ∧ h.fresh g } k' := by
  refine .getBind (.bind (panicIf_safe fun unused => ?_) ?_)
  · omega
  rintro _ k' ⟨same, -⟩
  rw [same]
  split
  case isTrue more =>
    have notFresh : ¬h.fresh f := fun isFresh => by
      have one := fresh isFresh
      omega
    refine .update ⟨⟨rfl, rfl, rfl⟩, fun g other => update_of_ne other _ _, ?_⟩
    refine (books.setRef (n := -1) (by omega) (by omega)).cast ?_
    ext g <;> simp
    rintro isFresh rfl
    exact notFresh isFresh
  case isFalse last =>
    have one : (k.file f).ref = 1 := by omega
    have isNone : File.type { k.file f with ref := 0, type := .FD_NONE } = .FD_NONE := rfl
    obtain ⟨noInode, noEnd, noToken⟩ := File.untyped isNone
    have stripped := books.setFile (f := f) { k.file f with ref := 0, type := .FD_NONE }
      (fun g => g ≠ f ∧ h.fresh g) (by simp) (fun g other => by simp [other])
    refine .updateBind ((closeLast_books stripped ?_).mono ?_)
    · intro e had
      simp only [noEnd, had, noEnds, hit_none, hit_self]
      omega
    · rintro _ k' ⟨same, files, closed⟩
      refine ⟨⟨same.ofile, same.live, same.cwd⟩, fun g other => ?_, closed.cast ?_⟩
      · rw [files]
        exact update_of_ne other _ _
      · ext <;> simp [one, noInode, noEnd, noToken]

/-! ## Descriptors -/

/-- A file that a descriptor points to is in use. -/
theorem Books.used (books : Books h k) (points : k.ofile p fd = some f) (inHand : 0 ≤ h.files f) :
    1 ≤ (k.file f).ref := by
  have count := books.files f
  have pos := card_holders_pos (f := descriptors k.ofile) (a := (p, fd)) points
  omega

theorem argfd_books {fd : Option Nat} :
    KSafe (argfd p fd) k fun r k' => k' = k ∧ ∀ a, r = some a → k.ofile p a.1 = some a.2 := by
  refine .getBind ?_
  split
  · exact .pure ⟨rfl, by simp⟩
  · split
    · refine .pure ⟨rfl, ?_⟩
      intro a found
      obtain ⟨f, points, rfl⟩ := Option.map_eq_some_iff.mp found
      exact points
    · exact .pure ⟨rfl, by simp⟩

theorem fdalloc_books (books : Books h k) (running : k.live p = true) :
    KSafe (fdalloc p f) k fun r k' =>
      match r with
      | none => k' = k
      | some fd => k.ofile p fd = none ∧ k'.ofile p fd = some f ∧ k' = { k with ofile := k'.ofile } ∧
          Books { h with files := h.files - Pi.single f 1 } k' := by
  refine .getBind ?_
  split
  · exact .pure rfl
  · rename_i fd found
    have empty : k.ofile p fd = none := by simpa using List.find?_some found
    refine .updateBind (.pure ⟨empty, by simp, rfl, ?_⟩)
    refine (books.setOfile fd (some f) (.inl running)).cast ?_
    ext <;> simp [empty, hit_eq_single]

/-! ## System calls -/

theorem sysDup_books {fd : Option Nat} (books : Books .empty k) (running : k.live p = true) :
    KSafe (sysDup p fd) k fun _ k' => Books .empty k' := by
  refine .bind argfd_books ?_
  rintro arg _ ⟨rfl, points⟩
  cases arg with
  | none => exact .pure books
  | some arg =>
    have points := points arg rfl
    refine .bind (fdalloc_books books running) ?_
    intro new k' allocated
    cases new with
    | none =>
      subst allocated
      exact .pure books
    | some new =>
      obtain ⟨-, -, same, taken⟩ := allocated
      rw [same] at taken ⊢
      refine .bind (filedup_books taken (books.used points le_rfl)) ?_
      rintro _ k'' ⟨-, duped⟩
      refine .pure (duped.cast ?_)
      ext <;> simp

theorem sysClose_books {fd : Option Nat} (books : Books .empty k) (running : k.live p = true) :
    KSafe (sysClose p fd) k fun _ k' => Books .empty k' := by
  refine .bind argfd_books ?_
  rintro arg _ ⟨rfl, points⟩
  cases arg with
  | none => exact .pure books
  | some arg =>
    have points := points arg rfl
    refine .updateBind (.bind (fileclose_books (books.setOfile arg.1 none (.inl running))
      (books.used points le_rfl) nofun fun _ => rfl) ?_)
    rintro _ k' ⟨-, -, closed⟩
    refine .pure (closed.cast ?_)
    ext <;> simp [Hand.empty, points, hit_eq_single, Pi.single_neg]

/-- What was in hand is given to a fresh file, with a new token. -/
theorem setType_books {t : File → File} (books : Books h k) (ref : (t (k.file f)).ref = (k.file f).ref)
    (typed : (t (k.file f)).type ≠ .FD_NONE) (fresh : (k.file f).type = .FD_NONE)
    (used : (k.file f).ref ≠ 0) :
    KSafe (setType f t) k fun _ k' => SameTables k k' ∧
      (∀ g, g ≠ f → k'.file g = k.file g) ∧ (k'.file f).ref = (k.file f).ref ∧
      Books { h with
        inodes := fun i => h.inodes i - hit (t (k.file f)).inode i
        ends := fun e => h.ends e - hit (t (k.file f)).pipeEnd e
        fresh := fun g => g ≠ f ∧ h.fresh g } k' := by
  obtain ⟨noInode, noEnd, noToken⟩ := File.untyped fresh
  have given := books.setFile (f := f) { t (k.file f) with token := k.tokens }
    (fun g => g ≠ f ∧ h.fresh g) (by simp [typed, ref, used]) fun g other => by simp [other]
  refine .update ⟨⟨rfl, rfl, rfl⟩, fun g other => update_of_ne other _ _, ?_, ?_⟩
  · dsimp only
    rw [update_self, ref]
  · refine { given with files := fun g => ?_, inodes := fun i => ?_, ends := fun e => ?_,
                        tokens := fun u => ?_ }
    · have count := given.files g
      have none : (Pi.single f ((t (k.file f)).ref - (k.file f).ref) : FileSlot → Int) = 0 := by
        rw [ref, sub_self, Pi.single_zero]
      rw [none, add_zero] at count
      exact count
    · have count := given.inodes i
      simp only [noInode, hit_none, Nat.cast_zero, add_zero] at count
      exact count
    · have count := given.ends e
      simp only [noEnd, hit_none, Nat.cast_zero, add_zero] at count
      exact count
    · have count := given.tokens u
      have isHeld : File.held { t (k.file f) with token := k.tokens } = some k.tokens := by
        simp [File.held, typed]
      simp only [noToken, isHeld, hit_none] at count
      dsimp only
      by_cases new : u = k.tokens
      · subst new
        simp only [hit_self, lt_irrefl, if_false] at count
        omega
      · have others : hit (some k.tokens) u = 0 := by simp [hit, Ne.symm new]
        have range : u < k.tokens + 1 ↔ u < k.tokens := by omega
        simp only [others] at count
        omega

theorem openBad_books (books : Books { Hand.empty with inodes := Pi.single ip 1 } k) :
    KSafe (openBad p ip) k fun _ k' => Books .empty k' := by
  have adds : Adds Moved (fun _ => -Fs.oneRef ip - Fs.oneOp) (do
      Fs.iunlockput ip
      Fs.endOp : FsM Unit) := by
    refine .bind Fs.iunlockput_adds fun _ => Fs.endOp_adds.congr fun _ => ?_
    abel
  refine .bind (inFs_books adds books) ?_
  rintro _ k' ⟨put, -⟩
  refine .pure (put.cast ?_)
  ext <;> simp [Hand.empty, Fs.oneRef, Fs.oneOp]

theorem openFile_books {omode : Nat} (running : k.live p = true)
    (books : Books { Hand.empty with inodes := Pi.single ip 1 } k) :
    KSafe (openFile p ip omode) k fun _ k' => Books .empty k' := by
  refine .bind (filealloc_books books) ?_
  intro r k₁ allocated
  cases r with
  | none =>
    subst allocated
    exact openBad_books books
  | some f =>
    obtain ⟨-, same, others, one, fresh⟩ := allocated
    have running₁ : k₁.live p = true := by rw [same]; exact running
    refine .bind (fdalloc_books fresh running₁) ?_
    intro r k₂ taken
    cases r with
    | none =>
      subst taken
      -- the file goes again before it had a type
      refine .bind (fileclose_books fresh (by omega) (fun _ => one) fun _ => rfl) ?_
      rintro _ k₃ ⟨-, -, closed⟩
      refine openBad_books (closed.cast ?_)
      ext <;> simp [Hand.empty, Pi.single_neg]
    | some fd =>
      obtain ⟨-, -, same₂, pointed⟩ := taken
      have one₂ : (k₂.file f).ref = 1 := by rw [same₂]; exact one
      have adds : Adds Moved (fun _ => -Fs.oneOp) (do
          Fs.iunlock (some ip)
          Fs.endOp : FsM Unit) := .after Fs.iunlock_keeps fun _ => Fs.endOp_adds
      refine .bind (inFs_books adds pointed) ?_
      rintro _ k₃ ⟨ended, fs, rfl⟩
      refine .bind (setType_books ended rfl (by simp) ?_ ?_) ?_
      · exact (pointed.typed f).mpr (.inr (.inl rfl))
      · dsimp only
        omega
      · rintro _ k₄ ⟨-, -, -, typed⟩
        refine .pure (typed.cast ?_)
        ext <;> simp [Hand.empty, File.inode, File.pipeEnd, hit_eq_single, Fs.oneOp]

theorem sysOpen_books {omode : Option Nat} (books : Books .empty k) (running : k.live p = true) :
    KSafe (sysOpen p path omode) k fun _ k' => Books .empty k' := by
  unfold sysOpen
  split
  · refine .bind (inFs_books Fs.openInode_adds books) ?_
    rintro ip k₁ ⟨found, fs, rfl⟩
    cases ip with
    | none =>
      refine .pure (found.cast ?_)
      ext <;> simp [Fs.opened]
    | some ip =>
      refine openFile_books running (found.cast ?_)
      ext <;> simp [Fs.opened, Hand.empty, Fs.oneRef, Fs.oneOp]
  · exact .pure books

theorem isOpen_update_of_ne {page page' : Nat} {ends : Option Ends} (other : page' ≠ page) :
    isOpen (update pipes page ends) page' writable = isOpen pipes page' writable := by
  simp [isOpen, other]

/-- A new pipe has two ends in hand. -/
theorem Books.newPipe {page : Nat} (books : Books h k) (free : k.pipes page = none) :
    Books { h with ends := fun e => h.ends e + hit (some (page, false)) e + hit (some (page, true)) e }
      { k with pipes := update k.pipes page (some ⟨true, true⟩) } := by
  refine { books with ends := fun e => ?_, alive := ?_ }
  · have before := books.ends e
    obtain ⟨page', writable⟩ := e
    by_cases same : page' = page
    · subst same
      simp only [isOpen, free] at before
      cases writable <;> simp [isOpen, hit] at before ⊢ <;> omega
    · rw [isOpen_update_of_ne same, ← before]
      simp [hit, Ne.symm same]
  · intro page' ends there
    dsimp only at there
    by_cases same : page' = page
    · rw [same, update_self] at there
      cases there
      exact .inl rfl
    · rw [update_of_ne same] at there
      exact books.alive page' ends there

/-- Both files of a pipe are in hand, or nothing is. -/
theorem pipealloc_books {page : Option Nat} (books : Books .empty k)
    (free : ∀ pg, page = some pg → k.pipes pg = none) :
    KSafe (pipealloc p page) k fun r k' => SameTables k k' ∧
      match r with
      | none => Books .empty k'
      | some (f0, f1) => f0 ≠ f1 ∧
          Books { Hand.empty with files := Pi.single f0 1 + Pi.single f1 1 } k' := by
  refine .bind (filealloc_books books) ?_
  intro r k₁ first
  cases r with
  | none =>
    subst first
    exact .pure ⟨⟨rfl, rfl, rfl⟩, books⟩
  | some f0 =>
    obtain ⟨-, same₁, -, one₁, fresh₁⟩ := first
    have tables₁ : SameTables k k₁ := by rw [same₁]; exact ⟨rfl, rfl, rfl⟩
    refine .bind (filealloc_books fresh₁) ?_
    intro r k₂ second
    cases r with
    | none =>
      subst second
      refine .bind (fileclose_books fresh₁ (by omega) (fun _ => one₁) fun _ => rfl) ?_
      rintro _ k₃ ⟨same₃, -, closed⟩
      refine .pure ⟨tables₁.trans same₃, closed.cast ?_⟩
      ext <;> simp [Hand.empty, Pi.single_neg]
    | some f1 =>
      obtain ⟨free₂, same₂, others₂, one₂, fresh₂⟩ := second
      have tables₂ : SameTables k k₂ := tables₁.trans (by rw [same₂]; exact ⟨rfl, rfl, rfl⟩)
      have distinct : f0 ≠ f1 := by
        rintro rfl
        omega
      have kept : (k₂.file f0).ref = 1 := by rw [others₂ f0 distinct, one₁]
      cases page with
      | none =>
        refine .bind (fileclose_books fresh₂ (by omega) (fun _ => kept) fun _ => rfl) ?_
        rintro _ k₃ ⟨same₃, others₃, closed₃⟩
        have still : (k₃.file f1).ref = 1 := by rw [others₃ f1 distinct.symm, one₂]
        refine .bind (fileclose_books closed₃ (by omega) (fun _ => still) fun _ => rfl) ?_
        rintro _ k₄ ⟨same₄, -, closed₄⟩
        refine .pure ⟨tables₂.trans (same₃.trans same₄), closed₄.cast ?_⟩
        ext <;> simp [Hand.empty, Pi.single_neg]
        grind
      | some page =>
        have freePage : k₂.pipes page = none := by
          rw [same₂]
          rw [same₁]
          exact free page rfl
        refine .updateBind (.bind (setType_books (fresh₂.newPipe freePage) rfl
          (by simp) ?_ ?_) ?_)
        · exact (fresh₂.typed f0).mpr (.inr (.inr (.inl rfl)))
        · dsimp only
          omega
        rintro _ k₃ ⟨same₃, others₃, ref₃, typed₃⟩
        have still : (k₃.file f1).ref = 1 := by rw [others₃ f1 distinct.symm, one₂]
        refine .bind (setType_books typed₃ rfl (by simp) ?_ ?_) ?_
        · exact (typed₃.typed f1).mpr (.inr ⟨distinct.symm, .inl rfl⟩)
        · omega
        rintro _ k₄ ⟨same₄, -, -, typed₄⟩
        refine .pure ⟨tables₂.trans ⟨same₄.ofile.trans same₃.ofile,
          same₄.live.trans same₃.live, same₄.cwd.trans same₃.cwd⟩, distinct, typed₄.cast ?_⟩
        ext <;> simp [Hand.empty, File.inode, File.pipeEnd]
        grind

theorem Books.inUse (books : Books h k) (inHand : 1 ≤ h.files f) : 1 ≤ (k.file f).ref := by
  have count := books.files f
  omega

/-- The failure of `sys_pipe`. -/
theorem closeBoth_books {rf wf : FileSlot} (distinct : rf ≠ wf)
    (books : Books { Hand.empty with files := Pi.single rf 1 + Pi.single wf 1 } k) :
    KSafe (do fileclose p rf; fileclose p wf; return none : KM (Option α)) k
      fun _ k' => Books .empty k' := by
  have usedRf : 1 ≤ (k.file rf).ref := books.inUse (by simp [distinct])
  refine .bind (fileclose_books books usedRf nofun fun _ => rfl) ?_
  rintro _ k₁ ⟨-, -, closed₁⟩
  have usedWf : 1 ≤ (k₁.file wf).ref := closed₁.inUse (by simp [distinct.symm])
  refine .bind (fileclose_books closed₁ usedWf (fun fresh => fresh.2.elim) fun _ => rfl) ?_
  rintro _ k₂ ⟨-, -, closed₂⟩
  refine .pure (closed₂.cast ?_)
  ext <;> simp [Hand.empty, Pi.single_neg]

theorem sysPipe_books {arg : Bool} {page : Option Nat} (books : Books .empty k)
    (running : k.live p = true) (free : ∀ pg, page = some pg → k.pipes pg = none) :
    KSafe (sysPipe p arg page) k fun _ k' => Books .empty k' := by
  unfold sysPipe
  split
  · exact .pure books
  refine .bind (pipealloc_books books free) ?_
  rintro r k₁ ⟨same₁, made⟩
  cases r with
  | none => exact .pure made
  | some files =>
    obtain ⟨distinct, made⟩ := made
    have running₁ : k₁.live p = true := by rw [same₁.live]; exact running
    refine .bind (fdalloc_books made running₁) ?_
    intro r k₂ first
    cases r with
    | none =>
      subst first
      exact closeBoth_books distinct made
    | some fd0 =>
      obtain ⟨empty, points, same₂, taken⟩ := first
      have running₂ : k₂.live p = true := by rw [same₂]; exact running₁
      refine .bind (fdalloc_books taken running₂) ?_
      intro r k₃ second
      cases r with
      | none =>
        subst second
        -- the first descriptor is given up again
        refine .updateBind (closeBoth_books distinct ((taken.setOfile fd0 none
          (.inl running₂)).cast ?_))
        ext <;> simp [points, hit_eq_single, add_comm]
      | some fd1 =>
        obtain ⟨-, -, -, both⟩ := second
        refine .pure (both.cast ?_)
        ext <;> simp [Hand.empty]

/-! ## Reads, writes and names -/

/-- The place in a file is not counted. -/
theorem Books.setOff (books : Books h k) (off : Nat) :
    Books h { k with file := update k.file f { k.file f with off := off } } := by
  refine (books.setFile { k.file f with off := off } h.fresh (books.typed f) fun _ _ => Iff.rfl).cast ?_
  ext <;> simp [File.inode, File.pipeEnd, File.held]

/-- What keeps the references in the file system keeps the books. -/
theorem inFs_keeps (keeps : Keeps Moved m) (books : Books h k) :
    KSafe (inFs p m) k fun _ k' => Books h k' ∧ ∃ fs, k' = { k with fs := fs } := by
  refine (inFs_books keeps books).mono ?_
  rintro a k' ⟨kept, same⟩
  exact ⟨kept.cast (by ext <;> simp), same⟩

theorem fileread_books {n : Nat} (books : Books h k) :
    KSafe (fileread p f n piped) k fun _ k' => Books h k' := by
  refine .getBind ?_
  split
  · exact .pure books
  split
  · exact .pure books
  · refine .bind (inFs_keeps ?_ books) ?_
    · refine .bind Fs.ilock_keeps fun _ => .bind Fs.readi_keeps fun _ => ?_
      exact .bind Fs.iunlock_keeps fun _ => .pure
    · rintro read k₁ ⟨kept, fs, rfl⟩
      exact .updateBind (.pure (kept.setOff _))
  · exact .stop (by simp [Bad])

theorem filewriteLoop_books (text : List Byte) (books : Books h k) :
    KSafe (filewriteLoop p f text) k fun _ k' => Books h k' := by
  fun_induction filewriteLoop p f text generalizing k with
  | case1 text more ih =>
    refine .getBind (.bind (inFs_keeps ?_ books) ?_)
    · refine Adds.bind Fs.beginOp_adds fun _ => Adds.after Fs.ilock_keeps fun _ => ?_
      refine Adds.after Fs.writei_keeps fun _ => Adds.after Fs.iunlock_keeps fun _ => ?_
      exact Fs.endOpReturn_adds (zero_sub _)
    · rintro written k₁ ⟨kept, fs, rfl⟩
      cases written with
      | none => exact .pure kept
      | some r =>
        refine .updateBind (.bind (panicIf_safe fun _ => by simp [Bad]) ?_)
        rintro _ k₂ ⟨rfl, -⟩
        exact ih (kept.setOff _)
  | case2 text done => exact .pure books

theorem filewrite_books {text : List Byte} {piped : Option Nat} (books : Books h k) :
    KSafe (filewrite p f text piped) k fun _ k' => Books h k' := by
  refine .getBind ?_
  split
  · exact .pure books
  split
  · exact .pure books
  · refine .bind (filewriteLoop_books text books) fun all k₁ kept => .pure kept
  · exact .stop (by simp [Bad])

theorem sysRead_books {fd n : Option Nat} (books : Books h k) :
    KSafe (sysRead p fd n piped) k fun _ k' => Books h k' := by
  refine .bind argfd_books ?_
  rintro arg _ ⟨rfl, -⟩
  split
  · exact fileread_books books
  · exact .pure books

theorem sysWrite_books {fd : Option Nat} {text : Option (List Byte)} {piped : Option Nat}
    (books : Books h k) : KSafe (sysWrite p fd text piped) k fun _ k' => Books h k' := by
  refine .bind argfd_books ?_
  rintro arg _ ⟨rfl, -⟩
  split
  · exact filewrite_books books
  · exact .pure books

/-- One process starts, stops or goes to another directory. -/
theorem Books.setCwd (books : Books h k) (live : Proc → Bool) (cwd : Proc → Slot)
    (others : ∀ q, q ≠ p → live q = k.live q ∧ cwd q = k.cwd q) (forming : Proc → Prop)
    (clean : ∀ q, live q = false → ¬forming q → ∀ fd, k.ofile q fd = none) :
    Books { h with
      inodes := fun i => h.inodes i + hit (cwds k.live k.cwd p) i - hit (cwds live cwd p) i
      forming := forming } { k with live := live, cwd := cwd } := by
  refine { books with inodes := fun i => ?_, clean := clean }
  have before := books.inodes i
  have now : cwds live cwd = update (cwds k.live k.cwd) p (cwds live cwd p) := by
    funext q
    by_cases same : q = p
    · simp [same]
    · simp [cwds, same, others q same]
  have count := card_holders_update (f := cwds k.live k.cwd) (a := p) (c := cwds live cwd p) (x := i)
  rw [← now] at count
  dsimp only
  omega

theorem sysChdir_books (books : Books .empty k) (running : k.live p = true) :
    KSafe (sysChdir p path) k fun _ k' => Books .empty k' := by
  refine .getBind (.bind (inFs_books Fs.chdirInode_adds books) ?_)
  rintro ip k₁ ⟨moved, fs, rfl⟩
  cases ip with
  | none =>
    refine .pure (moved.cast ?_)
    ext <;> simp [Fs.moved]
  | some ip =>
    have went := moved.setCwd (p := p) k.live (update k.cwd p ip)
      (fun q other => ⟨rfl, update_of_ne other _ _⟩) _ moved.clean
    refine .updateBind (.pure (went.cast ?_))
    ext <;> simp [Fs.moved, Fs.oneRef, Hand.empty, cwds, running, hit_eq_single]

/-! ## Processes -/

theorem forkFiles_books {np : Proc} (fds : List Fd) (distinct : fds.Nodup)
    (books : Books { Hand.empty with forming := (· = np) } k)
    (empty : ∀ fd ∈ fds, k.ofile np fd = none) :
    KSafe (forkFiles p np fds) k fun _ k' => k'.live = k.live ∧ k'.cwd = k.cwd ∧
      Books { Hand.empty with forming := (· = np) } k' := by
  induction fds generalizing k with
  | nil => exact .pure ⟨rfl, rfl, books⟩
  | cons fd rest ih =>
    obtain ⟨notIn, distinct⟩ := List.nodup_cons.mp distinct
    have emptyRest : ∀ fd' ∈ rest, k.ofile np fd' = none := fun fd' inside =>
      empty fd' (List.mem_cons_of_mem _ inside)
    refine .getBind ?_
    cases points : k.ofile p fd with
    | none => exact ih distinct books emptyRest
    | some f =>
      refine .bind (filedup_books books (books.used points le_rfl)) ?_
      rintro _ k₁ ⟨same, duped⟩
      have emptyHere : k₁.ofile np fd = none := by
        rw [same.ofile]
        exact empty fd List.mem_cons_self
      have taken := duped.setOfile fd (some f) (.inr (.inl rfl))
      refine .updateBind ((ih distinct (taken.cast ?_) ?_).mono ?_)
      · ext <;> simp [emptyHere, hit_eq_single]
      · intro fd' inside
        have elsewhere : fd' ≠ fd := fun here => notIn (here ▸ inside)
        simp [elsewhere, same.ofile, emptyRest fd' inside]
      · rintro _ k₂ ⟨live, cwd, done⟩
        exact ⟨live.trans same.live, cwd.trans same.cwd, done⟩

theorem fork_books {np : Option Proc} (books : Books .empty k)
    (free : ∀ q, np = some q → k.live q = false) :
    KSafe (fork p np) k fun _ k' => Books .empty k' := by
  cases np with
  | none => exact .pure books
  | some np =>
    have stopped : k.live np = false := free np rfl
    have forming : Books { Hand.empty with forming := (· = np) } k :=
      { books with clean := fun p halted _ => books.clean p halted id }
    refine .bind (forkFiles_books _ (List.nodup_finRange _) forming
      fun fd _ => books.clean np stopped id fd) ?_
    rintro _ k₁ ⟨live, cwd, duped⟩
    refine .getBind (.bind (inFs_books Fs.idup_adds duped) ?_)
    rintro ip k₂ ⟨found, fs, rfl⟩
    have started := found.setCwd (p := np) (update k₁.live np true) (update k₁.cwd np ip)
      (fun q other => ⟨update_of_ne other _ _, update_of_ne other _ _⟩) (fun _ => False) ?_
    · refine .updateBind (.pure (started.cast ?_))
      ext <;> simp [Fs.oneRef, Hand.empty, cwds, live, stopped, hit_eq_single]
    · intro q halted _ fd
      by_cases same : q = np
      · simp [same] at halted
      · rw [update_of_ne same] at halted
        exact found.clean q halted same fd

theorem exitFiles_books (fds : List Fd) (books : Books .empty k) (running : k.live p = true) :
    KSafe (exitFiles p fds) k fun _ k' => k'.live = k.live ∧ k'.cwd = k.cwd ∧
      (∀ fd, fd ∈ fds ∨ k.ofile p fd = none → k'.ofile p fd = none) ∧ Books .empty k' := by
  induction fds generalizing k with
  | nil => exact .pure ⟨rfl, rfl, by simp, books⟩
  | cons fd rest ih =>
    refine .getBind ?_
    cases points : k.ofile p fd with
    | none =>
      refine (ih books running).mono ?_
      rintro _ k₁ ⟨live, cwd, closed, done⟩
      refine ⟨live, cwd, fun fd' which => ?_, done⟩
      grind
    | some f =>
      refine .bind (fileclose_books books (books.used points le_rfl) nofun fun _ => rfl) ?_
      rintro _ k₁ ⟨same, -, closed⟩
      have running₁ : k₁.live p = true := by rw [same.live]; exact running
      have dropped := closed.setOfile fd none (.inl running₁)
      refine .updateBind ((ih (dropped.cast ?_) running₁).mono ?_)
      · ext <;> simp [same.ofile, points, hit_eq_single, Hand.empty, Pi.single_neg]
      · rintro _ k₂ ⟨live, cwd, emptied, done⟩
        refine ⟨live.trans same.live, cwd.trans same.cwd, fun fd' which => emptied fd' ?_, done⟩
        by_cases here : fd' = fd
        · simp [here]
        · rcases which with inside | empty
          · exact .inl ((List.mem_cons.mp inside).resolve_left here)
          · right
            simp [here, same.ofile, empty]

theorem exit_books (books : Books .empty k) (running : k.live p = true) :
    KSafe (exit p) k fun _ k' => Books .empty k' := by
  refine .bind (panicIf_safe fun _ => by simp [Bad]) ?_
  rintro _ k₀ ⟨same, -⟩
  rw [same]
  refine .bind (exitFiles_books _ books running) ?_
  rintro _ k₁ ⟨live, cwd, emptied, closed⟩
  have running₁ : k₁.live p = true := by rw [live]; exact running
  refine .getBind (.bind (inFs_books putOp_adds closed) ?_)
  rintro _ k₂ ⟨put, fs, rfl⟩
  have stopped := put.setCwd (p := p) (update k₁.live p false) k₁.cwd
    (fun q other => ⟨update_of_ne other _ _, rfl⟩) (fun _ => False) ?_
  · refine .update (stopped.cast ?_)
    ext <;> simp [Fs.oneRef, Hand.empty, cwds, running₁, hit_eq_single]
  · intro q halted notForming fd
    by_cases same : q = p
    · rw [same]
      exact emptied fd (.inl (List.mem_finRange fd))
    · rw [update_of_ne same] at halted
      exact put.clean q halted notForming fd

/-! ## Every call -/

theorem withPath_keeps {m : List Byte → FsM Int} (keeps : ∀ path, Keeps Moved (m path)) :
    Keeps Moved (withPath path m) := by
  cases path with
  | none => exact .pure
  | some path => exact keeps path

/-- Every call but fcopy, which does not put its references back. -/
def Keeping (_ : Kernel) (e : Event) : Prop := ∀ fuel src dest, e.call ≠ .fcopy fuel src dest

theorem execute_books {call : Call} (books : Books .empty k) (running : k.live p = true)
    (possible : call.possible k = true) (keeping : ∀ fuel src dest, call ≠ .fcopy fuel src dest) :
    KSafe (execute p call) k fun _ k' => Books .empty k' := by
  -- a call that only works on names
  have named : ∀ {m : FsM Int}, Keeps Moved m → KSafe (do
      let r ← inFs p m
      return Result.of r) k fun _ k' => Books .empty k' := by
    intro m keeps
    refine .bind (inFs_keeps keeps books) ?_
    rintro r k' ⟨kept, -⟩
    exact .pure kept
  cases call with
  | «open» path omode =>
    exact .bind (sysOpen_books books running) fun _ _ kept => .pure kept
  | read fd n piped => exact .bind (sysRead_books books) fun _ _ kept => .pure kept
  | write fd text piped => exact .bind (sysWrite_books books) fun _ _ kept => .pure kept
  | pipe arg page =>
    refine .bind (sysPipe_books books running ?_) fun _ _ kept => .pure kept
    rintro pg rfl
    simpa [Call.possible] using possible
  | dup fd => exact .bind (sysDup_books books running) fun _ _ kept => .pure kept
  | close fd => exact .bind (sysClose_books books running) fun _ _ kept => .pure kept
  | fork np =>
    refine .bind (fork_books books ?_) fun _ _ kept => .pure kept
    rintro q rfl
    simpa [Call.possible] using possible
  | exit => exact .bind (exit_books books running) fun _ _ kept => .pure kept
  | link old new =>
    exact named (withPath_keeps fun _ => withPath_keeps fun _ => Fs.sysLink_keeps)
  | unlink path => exact named (withPath_keeps fun _ => Fs.sysUnlink_keeps)
  | mkdir path => exact named Fs.sysMkdir_keeps
  | mknod path major minor => exact named Fs.sysMknod_keeps
  | chdir path => exact .bind (sysChdir_books books running) fun _ _ kept => .pure kept
  | fcopy fuel src dest => exact absurd rfl (keeping fuel src dest)

end Steps

/-! ## Runs -/

/-- Nothing is open, and the first process is in its directory. -/
structure Booted (k : Kernel) : Prop where
  file : ∀ f, (k.file f).ref = 0 ∧ (k.file f).type = .FD_NONE
  ofile : ∀ p fd, k.ofile p fd = none
  live : ∀ p, k.live p = decide (p = initproc)
  inodes : ∀ i, (k.fs.icache i).ref = if i = k.cwd initproc then 1 else 0
  pipes : ∀ page, k.pipes page = none
  tokens : k.tokens = 0
  released : k.released = []

def machine : System Kernel Event := ⟨Booted, next⟩

theorem Booted.books (booted : Booted k) : Books .empty k where
  files := fun f => by
    have none : (holders (descriptors k.ofile) f).card = 0 :=
      card_holders_eq_zero.mpr fun d => by simp [descriptors, booted.ofile]
    rw [(booted.file f).1, none]
    rfl
  typed := fun f => by simp [booted.file f]
  inodes := fun i => by
    have noFile : (holders (File.inode ∘ k.file) i).card = 0 :=
      card_holders_eq_zero.mpr fun f => by simp [File.inode, booted.file f]
    have one : holders (cwds k.live k.cwd) i = if i = k.cwd initproc then {initproc} else ∅ := by
      ext p
      by_cases isInit : p = initproc
      · by_cases here : i = k.cwd initproc
        · simp [cwds, booted.live, isInit, here]
        · simp [cwds, booted.live, isInit, here, Ne.symm here]
      · have stopped : cwds k.live k.cwd p = none := by simp [cwds, booted.live, isInit]
        split <;> simp [stopped, isInit]
    rw [booted.inodes, noFile, one]
    split <;> simp [Hand.empty]
  ends := fun e => by
    have none : (holders (File.pipeEnd ∘ k.file) e).card = 0 :=
      card_holders_eq_zero.mpr fun f => by simp [File.pipeEnd, booted.file f]
    rw [none]
    simp [Hand.empty, isOpen, booted.pipes]
  alive := fun page ends there => by simp [booted.pipes] at there
  tokens := fun t => by
    have none : (holders (File.held ∘ k.file) t).card = 0 :=
      card_holders_eq_zero.mpr fun f => by simp [File.held, booted.file f]
    rw [none]
    simp [Hand.empty, booted.tokens, booted.released]
  clean := fun p _ _ fd => booted.ofile p fd

/-- The call finds the books as the last one left them. -/
theorem Books.enter {h : Hand} (books : Books h k) (e : Event) : Books h (k.enter e) :=
  { books with inodes := books.inodes }

theorem outcome_some (ends : k.outcome e = some done) :
    k.live e.proc = true ∧ e.call.possible k = true ∧
      execute e.proc e.call (k.enter e) = done := by
  unfold Kernel.outcome at ends
  split at ends
  · rename_i enabled
    exact ⟨enabled.1, enabled.2, Option.some.inj ends⟩
  · cases ends

theorem outcome_books (books : Books .empty k) (keeping : Keeping k e)
    (ends : k.outcome e = some done) :
    KSafe (execute e.proc e.call) (k.enter e) fun _ k' => Books .empty k' := by
  obtain ⟨running, possible, -⟩ := outcome_some ends
  exact execute_books (books.enter e) running possible keeping

theorem next_some (stepped : next k e = some k') : ∃ r, k.outcome e = some (.ok (r, k')) := by
  unfold next at stepped
  split at stepped
  · rename_i r k'' ran
    cases stepped
    exact ⟨r, ran⟩
  · cases stepped

/-- The books are in order between any two calls. -/
theorem reach_books (reached : machine.Reach Keeping k) : Books .empty k := by
  induction reached with
  | start booted => exact Booted.books booted
  | step before keeping stepped ih =>
    obtain ⟨r, ends⟩ := next_some stepped
    obtain ⟨-, -, ran⟩ := outcome_some ends
    exact (outcome_books ih keeping ends).returned ran

/-! ## The counts of the source -/

/-- The descriptors of live processes that point to a file. -/
def pointing (k : Kernel) (f : FileSlot) : Finset (Proc × Fd) :=
  Finset.univ.filter fun d => k.live d.1 = true ∧ k.ofile d.1 d.2 = some f

/-- The reference with token `t` is held by one file, to which a descriptor points, and was not
released; or no file has it, and it was released once. -/
def HeldOrReleased (k : Kernel) (t : Nat) : Prop :=
  (k.released.count t = 0 ∧ ∃ f, (pointing k f).Nonempty ∧ ∀ g, (k.file g).held = some t ↔ g = f) ∨
    (k.released.count t = 1 ∧ ∀ g, (k.file g).held ≠ some t)

structure Accounted (k : Kernel) : Prop where
  refs : ∀ f, (k.file f).ref = (pointing k f).card
  unused : ∀ f, (k.file f).ref = 0 → (k.file f).type = .FD_NONE
  once : ∀ t, t < k.tokens → HeldOrReleased k t
  /-- an inode's references are those of the open files and of the working directories -/
  inodes : ∀ i, (k.fs.icache i).ref = (holders (File.inode ∘ k.file) i).card +
    (holders (cwds k.live k.cwd) i).card
  /-- an end of a pipe is open as long as one file has it -/
  ends : ∀ e, (holders (File.pipeEnd ∘ k.file) e).card = if isOpen k.pipes e.1 e.2 then 1 else 0
  /-- a pipe without an open end is freed -/
  freed : ∀ page, isOpen k.pipes page false = false → isOpen k.pipes page true = false →
    k.pipes page = none

theorem Books.pointing_eq (books : Books .empty k) (f : FileSlot) :
    pointing k f = holders (descriptors k.ofile) f := by
  ext d
  simp only [pointing, Finset.mem_filter, Finset.mem_univ, true_and, mem_holders]
  refine ⟨And.right, fun points => ⟨?_, points⟩⟩
  by_contra stopped
  have empty := books.clean d.1 (by simpa using stopped) id d.2
  rw [descriptors, empty] at points
  cases points

theorem Books.refs (books : Books .empty k) (f : FileSlot) :
    (k.file f).ref = (pointing k f).card := by
  rw [books.pointing_eq, books.files f]
  exact add_zero _

theorem Books.heldOrReleased (books : Books .empty k) (given : t < k.tokens) :
    HeldOrReleased k t := by
  have count := books.tokens t
  rw [if_pos given] at count
  change _ + _ + (0 : Int) = 1 at count
  by_cases released : k.released.count t = 0
  · left
    obtain ⟨f, only⟩ := Finset.card_eq_one.mp (by omega : (holders (File.held ∘ k.file) t).card = 1)
    have holds : ∀ g, (k.file g).held = some t ↔ g = f := by
      intro g
      have member : g ∈ holders (File.held ∘ k.file) t ↔ g = f := by rw [only, Finset.mem_singleton]
      rwa [mem_holders] at member
    have typed : (k.file f).type ≠ .FD_NONE := by
      intro isNone
      have isHeld := (holds f).mpr rfl
      rw [(File.untyped isNone).2.2] at isHeld
      cases isHeld
    have used : (k.file f).ref ≠ 0 := fun unused => typed ((books.typed f).mpr (.inl unused))
    refine ⟨released, f, Finset.card_ne_zero.mp fun none => used ?_, holds⟩
    rw [books.refs, none]
    rfl
  · right
    have none : (holders (File.held ∘ k.file) t).card = 0 := by omega
    exact ⟨by omega, fun g => card_holders_eq_zero.mp none g⟩

theorem Books.accounted (books : Books .empty k) : Accounted k where
  refs := books.refs
  unused := fun f unused => (books.typed f).mpr (.inl unused)
  once := fun _ given => books.heldOrReleased given
  inodes := fun i => by
    rw [books.inodes i]
    exact add_zero _
  ends := fun e => by
    have count := books.ends e
    change _ + (0 : Int) = _ at count
    split at count <;> simp_all
  freed := fun page readClosed writeClosed => by
    cases there : k.pipes page with
    | none => rfl
    | some ends =>
      have alive := books.alive page ends there
      simp_all [isOpen]

/-- **Open files.** Between the system calls of any run, each entry of `ftable` counts the descriptors
of live processes that point to it, an entry nobody points to has no type, and every pipe end or inode
reference that a file was given is held by one file with a descriptor or has been released, once. No
call ends in the panic of `filedup` or `fileclose`, or closes an end of a pipe that was freed. -/
theorem open_file_counts {k : Kernel} (reached : machine.Reach Keeping k) :
    Accounted k ∧ ∀ e, Keeping k e →
      k.outcome e ≠ some (.error (.panic "filedup")) ∧
      k.outcome e ≠ some (.error (.panic "fileclose")) ∧ k.outcome e ≠ some (.error .freed) := by
  have books := reach_books reached
  refine ⟨books.accounted, fun e keeping => ?_⟩
  have never : ∀ halt, Bad halt → k.outcome e ≠ some (.error halt) := by
    intro halt bad ends
    obtain ⟨-, -, ran⟩ := outcome_some ends
    exact (outcome_books books keeping ends).failed bad ran
  exact ⟨never _ (.inl rfl), never _ (.inr (.inl rfl)), never _ (.inr (.inr rfl))⟩

/-! ## A run -/

/-- The first process on an empty disk. -/
def bootedKernel : Kernel where
  fs := Fs.emptyImage
  file := fun _ => ⟨.FD_NONE, 0, false, false, 0, 0, 0, 0⟩
  ofile := fun _ _ => none
  cwd := fun _ => 0
  live := fun p => decide (p = initproc)
  pipes := fun _ => none
  tokens := 0
  released := []

/-- Open the root directory and a pipe, fork, and let the child exit and the parent close an end. -/
def forkedPipe : List Event :=
  [⟨0, .open (some [47]) (some 0), []⟩, ⟨0, .dup (some 0), []⟩, ⟨0, .pipe true (some 7), []⟩,
    ⟨0, .open (some [120]) (some 0), []⟩, ⟨0, .fork (some 1), []⟩, ⟨1, .close (some 0), []⟩,
    ⟨1, .exit, []⟩, ⟨0, .close (some 2), []⟩]

@[irreducible] def afterForkedPipe : Kernel := (machine.run bootedKernel forkedPipe).getD bootedKernel

theorem bootedKernel_booted : Booted bootedKernel where
  file := fun _ => ⟨rfl, rfl⟩
  ofile := fun _ _ => rfl
  live := fun _ => rfl
  inodes := fun i => by
    change (Fs.emptyImage.icache i).ref = if i = 0 then 1 else 0
    unfold Fs.emptyImage
    dsimp only
    split <;> rfl
  pipes := fun _ => rfl
  tokens := rfl
  released := rfl

theorem afterForkedPipe_reached : machine.Reach Keeping afterForkedPipe := by
  unfold afterForkedPipe
  apply System.Reach.run_getD (.start bootedKernel_booted)
  · apply System.admits_of_mem
    simp [forkedPipe, Keeping]
  · decide +kernel

theorem open_file_counts_forkedPipe : machine.Reach Keeping afterForkedPipe ∧
    afterForkedPipe.tokens = 3 ∧ afterForkedPipe.released = [1] ∧ Accounted afterForkedPipe := by
  refine ⟨afterForkedPipe_reached, ?_, ?_, (open_file_counts afterForkedPipe_reached).1⟩
  · decide +kernel
  · decide +kernel

end Xv6.Files
