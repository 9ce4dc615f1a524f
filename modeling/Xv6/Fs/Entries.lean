/-
# Xv6.Fs.Entries -- the entries of a directory and their names

`namecmp` compares two names up to the first NUL, `DIRSIZ` bytes at most (`namecmp_eq_zero`), so that
the name that `strncpy` has put into an entry is found again. `dirlookup` goes through the entries in
order and ends at the first one that is used and has the name.
-/
import Xv6.Fs.Reading

namespace Xv6.Fs
open Lib List
set_option autoImplicit false

/-! ## Names -/

/-- What a comparison of at most `n` bytes sees of a name. -/
def cstr (t : List Byte) (n : Nat) : List Byte := (t.take n).takeWhile (· ≠ 0)

theorem cstr_zero (t : List Byte) : cstr t 0 = [] := by simp [cstr]

theorem cstr_cons (c : Byte) (t : List Byte) (n : Nat) :
    cstr (c :: t) (n + 1) = if c = 0 then [] else c :: cstr t n := by
  by_cases nul : c = 0
  · simp [cstr, nul]
  · simp [cstr, nul]

theorem cstr_nil (n : Nat) : cstr [] n = [] := by simp [cstr]

theorem toNat_sub_eq_zero {a c : Byte} : (a.toNat : Int) - c.toNat = 0 ↔ a = c := by
  rw [sub_eq_zero, Nat.cast_inj, UInt8.toNat_inj]

theorem strncmp_cons (a c : Byte) (p q : List Byte) (n : Nat) : strncmp (a :: p) (c :: q) (n + 1) =
    if a ≠ 0 ∧ a = c then strncmp p q n else (a.toNat : Int) - c.toNat := rfl

theorem strncmp_nil_left (q : List Byte) (n : Nat) :
    strncmp [] q (n + 1) = ((0 : Byte).toNat : Int) - (q.headD 0).toNat := by
  simp [strncmp]

theorem strncmp_nil_right (p : List Byte) (n : Nat) :
    strncmp p [] (n + 1) = ((p.headD 0).toNat : Int) - (0 : Byte).toNat := by
  simp [strncmp]

theorem strncmp_eq_zero (p q : List Byte) (n : Nat) : strncmp p q n = 0 ↔ cstr p n = cstr q n := by
  induction n generalizing p q with
  | zero => simp [strncmp, cstr_zero]
  | succ n ih =>
    cases p with
    | nil =>
      rw [strncmp_nil_left, toNat_sub_eq_zero, cstr_nil]
      cases q with
      | nil => simp [cstr_nil]
      | cons c q =>
        rw [cstr_cons, headD_cons]
        by_cases nul : c = 0
        · simp [nul]
        · simp [nul, Ne.symm nul]
    | cons a p =>
      cases q with
      | nil =>
        rw [strncmp_nil_right, toNat_sub_eq_zero, cstr_nil, cstr_cons, headD_cons]
        by_cases nul : a = 0
        · simp [nul]
        · simp [nul]
      | cons c q =>
        rw [strncmp_cons, cstr_cons, cstr_cons]
        by_cases same : a = c
        · subst same
          by_cases nul : a = 0
          · simp [nul]
          · rw [if_pos ⟨nul, rfl⟩, ih, if_neg nul, if_neg nul, cons.injEq]
            simp
        · rw [if_neg fun both => same both.2, toNat_sub_eq_zero]
          by_cases nul : a = 0
          · subst nul
            simp [same, Ne.symm same]
          · by_cases nulC : c = 0
            · simp [nulC, nul]
            · simp [nulC, nul, same]

theorem namecmp_eq_zero (s t : List Byte) : namecmp s t = 0 ↔ cstr s DIRSIZ = cstr t DIRSIZ :=
  strncmp_eq_zero s t DIRSIZ

/-- A name without NUL. -/
theorem cstr_of_name {t : List Byte} (isName : (0 : Byte) ∉ t) (n : Nat) : cstr t n = t.take n := by
  refine takeWhile_eq_self_iff.mpr fun c member => ?_
  have inside := mem_of_mem_take member
  simp only [decide_eq_true_eq]
  rintro rfl
  exact isName inside

theorem cstr_replicate (m n : Nat) : cstr (replicate m 0) n = [] := by
  cases m with
  | zero => exact cstr_nil n
  | succ m =>
    cases n with
    | zero => exact cstr_zero _
    | succ n => rw [replicate_succ, cstr_cons, if_pos rfl]

/-- What `strncpy` stores is seen as the name. -/
theorem cstr_strncpy (t : List Byte) (n : Nat) : cstr (strncpy t n) n = cstr t n := by
  induction n generalizing t with
  | zero => rw [cstr_zero, cstr_zero]
  | succ n ih =>
    cases t with
    | nil =>
      have padded : strncpy [] (n + 1) = replicate (n + 1) 0 := by simp [strncpy]
      rw [padded, cstr_replicate, cstr_nil]
    | cons c t =>
      have first : strncpy (c :: t) (n + 1) = c :: strncpy t n := by
        simp [strncpy, Nat.succ_sub_succ]
      rw [first, cstr_cons, cstr_cons, ih]

/-! ## Entries -/

/-- The entry at offset `off`: its inode number and its name. -/
def Dinode.entry (d : Dinode) (blocks : Nat → Block) (off : Nat) : Nat × List Byte :=
  (Block.le (fun j => d.byte blocks (off + j)) 0 2, d.text blocks (off + 2) DIRSIZ)

/-- How an entry is found in the bytes that were read. -/
theorem entry_of_text (d : Dinode) (blocks : Nat → Block) (off : Nat) :
    (Block.le (fun i => (d.text blocks off sizeofDirent).getD i 0) 0 2,
      (d.text blocks off sizeofDirent).drop 2) = d.entry blocks off := by
  rfl

/-- The entry is used and has the name. -/
abbrev Named (name : List Byte) (de : Nat × List Byte) : Prop := de.1 ≠ 0 ∧ namecmp name de.2 = 0

section Lookup

variable {bad : Fault → Prop} {s : State} {dp : Slot} {name : List Byte}

/-- The entry at `off` is in the directory and its block is there. -/
def Dinode.HasEntry (d : Dinode) (blocks : Nat → Block) (off : Nat) : Prop :=
  off + sizeofDirent ≤ d.size ∧ ∀ j < sizeofDirent, d.blockAt blocks ((off + j) / BSIZE) ≠ 0

theorem readDirent_there {off : Nat} {text : Panic} (readable : Readable bad s (s.disk dp))
    (notDev : (s.disk dp).type ≠ T_DEV) (small : (s.disk dp).size < 2 ^ 32)
    (there : (s.disk dp).HasEntry s.blocks off) :
    Ensures bad (readDirent dp off text) s fun de s' => s = s' ∧ de = (s.disk dp).entry s.blocks off := by
  have inside := there.1
  have all : min sizeofDirent ((s.disk dp).size - off) = sizeofDirent := Nat.min_eq_left (by omega)
  refine .bind (readi_there readable notDev (by omega) (by omega) fun j below => there.2 j ?_) ?_
  · rwa [all] at below
  rintro _ _ ⟨rfl, rfl⟩
  rw [all]
  exact panicIf_then (by simp) (.pure ⟨rfl, entry_of_text _ _ _⟩)

variable {Q : Option (Slot × Nat) → State → Prop}

/-- The entries before the one that is looked for are passed over. -/
theorem dirlookupLoop_skip {offs : List Nat} {off : Nat} (readable : Readable bad s (s.disk dp))
    (notDev : (s.disk dp).type ≠ T_DEV) (small : (s.disk dp).size < 2 ^ 32)
    (there : (s.disk dp).HasEntry s.blocks off)
    (other : ¬Named name ((s.disk dp).entry s.blocks off))
    (rest : Ensures bad (dirlookupLoop dp name offs) s Q) :
    Ensures bad (dirlookupLoop dp name (off :: offs)) s Q := by
  refine .bind (readDirent_there readable notDev small there) ?_
  rintro _ _ ⟨rfl, rfl⟩
  dsimp only
  rw [if_neg other]
  exact rest

theorem dirlookupLoop_found {offs : List Nat} {off : Nat} (readable : Readable bad s (s.disk dp))
    (notDev : (s.disk dp).type ≠ T_DEV) (small : (s.disk dp).size < 2 ^ 32)
    (there : (s.disk dp).HasEntry s.blocks off)
    (named : Named name ((s.disk dp).entry s.blocks off))
    (got : Ensures bad (iget (s.icache dp).dev ((s.disk dp).entry s.blocks off).1) s
      fun ip s' => Q (some (ip, off)) s') :
    Ensures bad (dirlookupLoop dp name (off :: offs)) s Q := by
  refine .bind (readDirent_there readable notDev small there) ?_
  rintro _ _ ⟨rfl, rfl⟩
  dsimp only
  rw [if_pos named]
  refine .getBind (.bind got fun ip s' post => ?_)
  exact .pure post

/-- Entry `k` of a directory. -/
def Dinode.nth (d : Dinode) (blocks : Nat → Block) (k : Nat) : Nat × List Byte :=
  d.entry blocks (k * sizeofDirent)

def Dinode.HasNth (d : Dinode) (blocks : Nat → Block) (k : Nat) : Prop :=
  d.HasEntry blocks (k * sizeofDirent)

theorem dirlookupLoop_finds {m a t : Nat} (readable : Readable bad s (s.disk dp))
    (notDev : (s.disk dp).type ≠ T_DEV) (small : (s.disk dp).size < 2 ^ 32) (start : a ≤ t)
    (stop : t < a + m) (there : ∀ k ≤ t, (s.disk dp).HasNth s.blocks k)
    (others : ∀ k < t, ¬Named name ((s.disk dp).nth s.blocks k))
    (named : Named name ((s.disk dp).nth s.blocks t))
    (got : Ensures bad (iget (s.icache dp).dev ((s.disk dp).nth s.blocks t).1) s
      fun ip s' => Q (some (ip, t * sizeofDirent)) s') :
    Ensures bad (dirlookupLoop dp name ((range' a m).map (· * sizeofDirent))) s Q := by
  induction m generalizing a with
  | zero => omega
  | succ m ih =>
    by_cases here : a = t
    · subst here
      exact dirlookupLoop_found readable notDev small (there a start) named got
    · refine dirlookupLoop_skip readable notDev small (there a start) (others a (by omega)) ?_
      exact ih (by omega) (by omega)

/-- The first entry that is used and has the name is found. -/
theorem dirlookup_finds {t : Nat} (readable : Readable bad s (s.disk dp))
    (isDir : (s.disk dp).type = T_DIR) (small : (s.disk dp).size < 2 ^ 32)
    (there : ∀ k ≤ t, (s.disk dp).HasNth s.blocks k)
    (others : ∀ k < t, ¬Named name ((s.disk dp).nth s.blocks k))
    (named : Named name ((s.disk dp).nth s.blocks t))
    (got : Ensures bad (iget (s.icache dp).dev ((s.disk dp).nth s.blocks t).1) s
      fun ip s' => Q (some (ip, t * sizeofDirent)) s') : Ensures bad (dirlookup dp name) s Q := by
  refine .getBind (panicIf_then (not_not.mpr isDir) ?_)
  unfold direntOffs
  rw [range_eq_range']
  have inside := (there t (Nat.le_refl t)).1
  refine dirlookupLoop_finds readable (by rw [isDir]; decide) small (Nat.zero_le t) ?_ there others
    named got
  change t * 16 + 16 ≤ _ at inside
  change t < 0 + (_ + 16 - 1) / 16
  omega

end Lookup

end Xv6.Fs
