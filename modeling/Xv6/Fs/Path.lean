/-
# Xv6.Fs.Path -- fs.c: directories and path names; `create` of sysfile.c

A path or a name is the list of its bytes up to the terminating NUL. The buffer `name` of the source
has room for `DIRSIZ` bytes and needs no NUL when it is full; what stands after the NUL is never read.
-/
import Xv6.Fs.Inode
import Mathlib.Data.List.TakeWhile

namespace Xv6.Fs
set_option autoImplicit false

/-! ## Directories -/

/-- Reading past the end of a list finds the NUL. -/
def strncmp : List Byte → List Byte → Nat → Int
  | _, _, 0 => 0
  | p, q, n + 1 =>
    if p.headD 0 ≠ 0 ∧ p.headD 0 = q.headD 0 then
      strncmp p.tail q.tail n
    else
      (p.headD 0).toNat - (q.headD 0).toNat

def strncpy (t : List Byte) (n : Nat) : List Byte :=
  t.take n ++ List.replicate (n - t.length) 0

def namecmp (s t : List Byte) : Int := strncmp s t DIRSIZ

/-- The offsets of the entries of a directory of the given size. -/
def direntOffs (size : Nat) : List Nat :=
  (List.range ((size + sizeofDirent - 1) / sizeofDirent)).map (· * sizeofDirent)

/-- Read the entry at `off`: its inode number and its name. -/
def readDirent (dp : Slot) (off : Nat) (text : Panic) : FsM (Nat × List Byte) := do
  let read ← readi dp off sizeofDirent
  match read with
  | none => panic text
  | some de =>
    panicIf (de.length ≠ sizeofDirent) text
    return (Block.le (fun i => de.getD i 0) 0 2, de.drop 2)

/-- The loop of `dirlookup`: the inode with its entry's offset. -/
def dirlookupLoop (dp : Slot) (name : List Byte) : List Nat → FsM (Option (Slot × Nat))
  | [] => return none
  | off :: rest => do
    let (inum, entry) ← readDirent dp off "dirlookup read"
    if inum ≠ 0 ∧ namecmp name entry = 0 then
      let s ← get
      let ip ← iget (s.icache dp).dev inum
      return some (ip, off)
    else
      dirlookupLoop dp name rest

def dirlookup (dp : Slot) (name : List Byte) : FsM (Option (Slot × Nat)) := do
  let s ← get
  panicIf ((s.disk dp).type ≠ T_DIR) "dirlookup not DIR"
  dirlookupLoop dp name (direntOffs (s.disk dp).size)

/-- The offset of the first free entry, or `last` if there is none. -/
def freeDirent (dp : Slot) (last : Nat) : List Nat → FsM Nat
  | [] => return last
  | off :: rest => do
    let (inum, _) ← readDirent dp off "dirlink read"
    if inum = 0 then return off else freeDirent dp last rest

def dirlink (dp : Slot) (name : List Byte) (inum : Nat) : FsM Int := do
  let found ← dirlookup dp name
  match found with
  | some (ip, _) =>
    iput ip
    return -1
  | none =>
    let s ← get
    let offs := direntOffs (s.disk dp).size
    let off ← freeDirent dp (offs.length * sizeofDirent) offs
    let written ← writei dp (leBytes inum 2 ++ strncpy name DIRSIZ) off sizeofDirent
    panicIf (written ≠ some sizeofDirent) "dirlink"
    return 0

/-! ## Paths -/

def slash : Byte := 47

/-- The next element of the path, cut to `DIRSIZ` bytes, and what follows it. -/
def skipelem (path : List Byte) : Option (List Byte × List Byte) :=
  match path.dropWhile (· = slash) with
  | [] => none
  | c :: rest =>
    let elem := (c :: rest).takeWhile (· ≠ slash)
    some (elem.take DIRSIZ, ((c :: rest).dropWhile (· ≠ slash)).dropWhile (· = slash))

theorem skipelem_shorter {path name rest : List Byte} (elem : skipelem path = some (name, rest)) :
    rest.length < path.length := by
  have skipped := List.length_dropWhile_le (· = slash) path
  unfold skipelem at elem
  cases start : path.dropWhile (· = slash) with
  | nil => simp [start] at elem
  | cons c tail =>
    have first : c ≠ slash := by
      have notSlash := List.head_dropWhile_not (· = slash) (l := path) (by simp [start])
      simpa [start] using notSlash
    simp only [start, Option.some.injEq, Prod.mk.injEq] at elem
    obtain ⟨-, rfl⟩ := elem
    -- the first byte of the element is gone
    have gone := List.length_dropWhile_le (· = slash) ((c :: tail).dropWhile (· ≠ slash))
    rw [List.dropWhile_cons_of_pos (by simpa using first)] at gone ⊢
    have elemGone := List.length_dropWhile_le (· ≠ slash) tail
    rw [start, List.length_cons] at skipped
    omega

/-- The loop of `namex` from inode `ip` on. With the parent's inode it returns the last element. -/
def namexLoop (parent : Bool) (path : List Byte) (last : List Byte) (ip : Slot) :
    FsM (Option (Slot × List Byte)) :=
  match _elem : skipelem path with
  | none =>
    if parent then do
      iput ip
      return none
    else
      return some (ip, last)
  | some (name, rest) => do
    ilock (some ip)
    let s ← get
    if (s.disk ip).type ≠ T_DIR then
      iunlockput ip
      return none
    else if parent ∧ rest = [] then
      iunlock (some ip)
      return some (ip, name)
    else
      let next ← dirlookup ip name
      match next with
      | none =>
        iunlockput ip
        return none
      | some (next, _) =>
        iunlockput ip
        namexLoop parent rest name next
termination_by path.length
decreasing_by exact skipelem_shorter ‹_›

def namex (parent : Bool) (path : List Byte) : FsM (Option (Slot × List Byte)) := do
  if path.head? = some slash then
    let ip ← iget ROOTDEV ROOTINO
    namexLoop parent path [] ip
  else
    let s ← get
    let ip ← idup s.cwd
    namexLoop parent path [] ip

def namei (path : List Byte) : FsM (Option Slot) := do
  let found ← namex false path
  return found.map Prod.fst

def nameiparent (path : List Byte) : FsM (Option (Slot × List Byte)) := namex true path

/-! ## `create` -/

/-- A new directory gets its entries `.` and `..`. -/
def createDots (type : Nat) (ip dp : Slot) : FsM Unit := do
  if type = T_DIR then
    modify fun s => s.setInode dp { s.icache dp with
      disk := { s.disk dp with nlink := ((s.disk dp).nlink + 1) % 2 ^ 16 } }
    iupdate dp
    let s ← get
    let dot ← dirlink ip [46] (s.icache ip).inum
    panicIf (dot < 0) "create dots"
    let dots ← dirlink ip [46, 46] (s.icache dp).inum
    panicIf (dots < 0) "create dots"
  else
    return ()

/-- Make inode and entry in directory `dp`, which is locked. -/
def createIn (dp : Slot) (name : List Byte) (type major minor : Nat) : FsM Slot := do
  let s ← get
  let ip ← ialloc (s.icache dp).dev type
  ilock (some ip)
  modify fun s => s.setInode ip { s.icache ip with
    disk := { s.disk ip with major := major, minor := minor, nlink := 1 } }
  iupdate ip
  createDots type ip dp
  let s ← get
  let linked ← dirlink dp name (s.icache ip).inum
  panicIf (linked < 0) "create: dirlink"
  iunlockput dp
  return ip

def create (path : List Byte) (type major minor : Nat) : FsM (Option Slot) := do
  let found ← nameiparent path
  match found with
  | none => return none
  | some (dp, name) =>
    ilock (some dp)
    let existing ← dirlookup dp name
    match existing with
    | some (ip, _) =>
      iunlockput dp
      ilock (some ip)
      let s ← get
      if type = T_FILE ∧ (s.disk ip).type = T_FILE then
        return some ip
      else
        iunlockput ip
        return none
    | none =>
      let ip ← createIn dp name type major minor
      return some ip

end Xv6.Fs
