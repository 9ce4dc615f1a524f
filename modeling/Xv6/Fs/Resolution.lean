/-
# Xv6.Fs.Resolution -- fs.c: the components of a path, and the walk along them

Applied again and again, `skipelem` yields the components of the path (`elements_eq_components`).
What the two lookups are for is said over that list: `walk` looks one name up after the other, and
`parentWalk` all but the last. The loop over the bytes of the path is the same program, whatever it
meets on the way.
-/
import Xv6.Fs.Balance
import Mathlib.Data.List.DropRight

namespace Xv6.Fs
open Lib List
set_option autoImplicit false

variable {path name rest last : List Byte}

/-! ## Components -/

/-- What `skipelem` yields, applied again and again. -/
def elements (path : List Byte) : List (List Byte) :=
  match _elem : skipelem path with
  | none => []
  | some (name, rest) => name :: elements rest
termination_by path.length
decreasing_by exact skipelem_shorter ‹_›

/-- The non-empty pieces between slashes, each cut to `DIRSIZ` bytes. -/
def components (path : List Byte) : List (List Byte) :=
  ((path.splitOn slash).filter (· ≠ [])).map (take DIRSIZ)

theorem components_slash (path : List Byte) : components (slash :: path) = components path := by
  have split := splitOn_append_cons_self (a := slash) [] path
  rw [nil_append, splitOn_nil] at split
  simp [components, split]

theorem components_dropWhile (path : List Byte) :
    components (path.dropWhile (· = slash)) = components path := by
  induction path with
  | nil => rfl
  | cons b rest ih =>
    by_cases isSlash : b = slash
    · rw [dropWhile_cons_of_pos (by simpa using isSlash), ih, isSlash, components_slash]
    · rw [dropWhile_cons_of_neg (by simpa using isSlash)]

/-- A word, up to the end of the path or the next slash, is the first component. -/
theorem components_append (word : slash ∉ name) (nonempty : name ≠ [])
    (ends : ∀ b ∈ rest.head?, b = slash) :
    components (name ++ rest) = name.take DIRSIZ :: components rest := by
  have single : name.splitOn slash = [name] := splitOn_eq_singleton word
  cases rest with
  | nil => simp [components, single, nonempty]
  | cons b rest =>
    obtain rfl : b = slash := ends b rfl
    rw [components_slash, components, splitOn_append_cons_self, single]
    simp [components, nonempty]

theorem skipelem_none (done : skipelem path = none) : path.dropWhile (· = slash) = [] := by
  unfold skipelem at done
  split at done
  next empty => exact empty
  next => cases done

theorem skipelem_some (elem : skipelem path = some (name, rest)) :
    components path = name :: components rest ∧ rest.dropWhile (· = slash) = rest := by
  unfold skipelem at elem
  split at elem
  next => cases elem
  next c tail start =>
    cases elem
    have first : c ≠ slash := by
      have notSlash := head_dropWhile_not (· = slash) (l := path) (by simp [start])
      simpa [start] using notSlash
    refine ⟨?_, dropWhile_idempotent _ _⟩
    rw [components_dropWhile, ← components_dropWhile path, start]
    nth_rewrite 1 [← takeWhile_append_dropWhile (p := (· ≠ slash)) (l := c :: tail)]
    refine components_append ?_ ?_ ?_
    · intro inside
      simpa using mem_takeWhile_imp inside
    · rw [takeWhile_cons_of_pos (by simpa using first)]
      exact cons_ne_nil _ _
    · intro b heads
      have ends := head?_dropWhile_not (· ≠ slash) (c :: tail)
      rw [heads] at ends
      simpa using ends

theorem elements_eq_components (path : List Byte) : elements path = components path := by
  fun_induction elements path with
  | case1 path done => rw [← components_dropWhile, skipelem_none done]; rfl
  | case2 path name rest elem ih => rw [(skipelem_some elem).1, ih]

theorem elements_ne_nil (elem : skipelem path = some (name, rest)) (more : rest ≠ []) :
    elements rest ≠ [] := by
  fun_cases elements rest with
  | case1 done => exact absurd ((skipelem_some elem).2.symm.trans (skipelem_none done)) more
  | case2 => exact cons_ne_nil _ _

/-! ## The walk -/

/-- The inode that `ip` names `name`, or none if `ip` is not a directory or has no such entry. -/
def lookup (ip : Slot) (name : List Byte) : FsM (Option Slot) := do
  ilock (some ip)
  let s ← get
  if (s.disk ip).type ≠ T_DIR then
    iunlockput ip
    return none
  else
    let next ← dirlookup ip name
    iunlockput ip
    return next.map Prod.fst

def walk : List (List Byte) → Slot → FsM (Option Slot)
  | [], ip => return some ip
  | name :: names, ip => do
    let next ← lookup ip name
    match next with
    | none => return none
    | some next => walk names next

/-- All names but the last lead to a directory. -/
def parentWalk (names : List (List Byte)) (ip : Slot) : FsM (Option (Slot × List Byte)) :=
  match names.getLast? with
  | none => do
    iput ip
    return none
  | some last => do
    let parent ← walk names.dropLast ip
    match parent with
    | none => return none
    | some dp =>
      ilock (some dp)
      let s ← get
      if (s.disk dp).type ≠ T_DIR then
        iunlockput dp
        return none
      else
        iunlock (some dp)
        return some (dp, last)

theorem walk_cons (names : List (List Byte)) (ip : Slot) :
    walk (name :: names) ip = lookup ip name >>= fun next => next.elim (return none) (walk names) := by
  rw [walk]
  refine bind_congr fun next => ?_
  cases next <;> rfl

theorem parentWalk_cons {names : List (List Byte)} (more : names ≠ []) (ip : Slot) :
    parentWalk (name :: names) ip =
      lookup ip name >>= fun next => next.elim (return none) (parentWalk names) := by
  obtain ⟨n, names, rfl⟩ := exists_cons_of_ne_nil more
  refine (bind_assoc ..).trans (bind_congr fun next => ?_)
  cases next <;> rfl

theorem namexLoop_done {parent : Bool} (done : skipelem path = none) (last : List Byte) (ip : Slot) :
    namexLoop parent path last ip =
      if parent then (do iput ip; return none) else return some (ip, last) := by
  fun_cases namexLoop parent path last ip with
  | case1 _ isParent => rw [if_pos isParent]
  | case2 _ notParent => rw [if_neg notParent]
  | case3 name rest elem => cases done.symm.trans elem

/-- The turn at an element that is not the one `nameiparent` stops at. -/
theorem namexLoop_elem {parent : Bool} (elem : skipelem path = some (name, rest))
    (goesOn : ¬(parent = true ∧ rest = [])) (last : List Byte) (ip : Slot) :
    namexLoop parent path last ip =
      lookup ip name >>= fun next => next.elim (return none) (namexLoop parent rest name) := by
  fun_cases namexLoop parent path last ip with
  | case1 done | case2 done => cases done.symm.trans elem
  | case3 name' rest' elem' =>
    cases elem.symm.trans elem'
    simp only [if_neg goesOn, lookup, bind_assoc]
    refine bind_congr fun _ => bind_congr fun s => ?_
    split
    · simp
    · rw [bind_assoc]
      refine bind_congr fun next => ?_
      cases next <;> simp

theorem namexLoop_last (elem : skipelem path = some (name, [])) (last : List Byte) (ip : Slot) :
    namexLoop true path last ip = parentWalk [name] ip := by
  fun_cases namexLoop true path last ip with
  | case1 done | case2 done => cases done.symm.trans elem
  | case3 name' rest' elem' =>
    cases elem.symm.trans elem'
    simp [parentWalk, walk]

theorem namexLoop_walk (last : List Byte) (ip : Slot) :
    Option.map Prod.fst <$> namexLoop false path last ip = walk (elements path) ip := by
  fun_induction elements path generalizing last ip with
  | case1 path done =>
    rw [namexLoop_done done]
    rfl
  | case2 path name rest elem ih =>
    rw [namexLoop_elem elem (by simp), walk_cons, map_bind]
    refine bind_congr fun next => ?_
    cases next with
    | none => rfl
    | some next => exact ih name next

theorem namexLoop_parent (last : List Byte) (ip : Slot) :
    namexLoop true path last ip = parentWalk (elements path) ip := by
  fun_induction elements path generalizing last ip with
  | case1 path done =>
    rw [namexLoop_done done]
    rfl
  | case2 path name rest elem ih =>
    by_cases isLast : rest = []
    · subst isLast
      rw [elements_eq_components]
      exact namexLoop_last elem last ip
    · rw [namexLoop_elem elem (by simp [isLast]), parentWalk_cons (elements_ne_nil elem isLast)]
      refine bind_congr fun next => ?_
      cases next with
      | none => rfl
      | some next => exact ih name next

/-- The inode a path starts at. -/
def start (path : List Byte) : FsM Slot := do
  if path.head? = some slash then
    iget ROOTDEV ROOTINO
  else
    let s ← get
    idup s.cwd

theorem namex_eq (parent : Bool) (path : List Byte) :
    namex parent path = start path >>= namexLoop parent path [] := by
  unfold namex start
  split
  · rfl
  · rw [bind_assoc]

/-- `skipelem` yields the components; `namei` walks along all of them and `nameiparent` along all but
the last, and the only reference either adds is that of the inode it returns. -/
theorem path_resolution (path : List Byte) :
    elements path = components path ∧
    namei path = start path >>= walk (components path) ∧
    nameiparent path = start path >>= parentWalk (components path) ∧
    (∀ s r s', namei path s = .ok (r, s') → Moved (refOf r) s s') ∧
    ∀ s r s', nameiparent path s = .ok (r, s') → Moved (refOf (r.map Prod.fst)) s s' := by
  have components := elements_eq_components path
  refine ⟨components, ?_, ?_, namei_adds, namex_adds⟩
  · rw [namei, namex_eq, bind_pure_comp, map_bind, ← components]
    exact bind_congr fun ip => namexLoop_walk [] ip
  · rw [nameiparent, namex_eq, ← components]
    exact bind_congr fun ip => namexLoop_parent [] ip

end Xv6.Fs
