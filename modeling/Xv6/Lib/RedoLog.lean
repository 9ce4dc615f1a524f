/-
# Xv6.Lib.RedoLog -- the disk of a redo log

A disk has a header, slots, and the places where blocks belong. The header lists some of those places;
slot `i` keeps a copy of what belongs to the `i`-th of them.

`Durable disk target` says that replaying the log makes the disk the `target`: a listed place has its
value in the slot, every other place has it already. It says nothing of what the listed places hold,
so it does not matter how far a replay came. Every write that the protocol makes keeps `Durable`, and
only writing the header changes the target:

* a slot may be written while the header is empty;
* the header may be written when the slots hold the new values of the places it lists;
* a listed place may be given the value of its slot;
* the header may be emptied when every place has its value.
-/
import Mathlib.Tactic

namespace Xv6.Lib
open Function
set_option autoImplicit false

/-- Make the writes of a list, from its head on. -/
def applyWrites {A D : Type} [DecidableEq A] (disk : A → D) (writes : List (A × D)) : A → D :=
  writes.foldl (fun d w => update d w.1 w.2) disk

section Writes

variable {A D : Type} [DecidableEq A]

theorem applyWrites_append (disk : A → D) (first second : List (A × D)) :
    applyWrites disk (first ++ second) = applyWrites (applyWrites disk first) second := by
  unfold applyWrites
  rw [List.foldl_append]

theorem applyWrites_snoc (disk : A → D) (writes : List (A × D)) (a : A) (x : D) :
    applyWrites disk (writes ++ [(a, x)]) = update (applyWrites disk writes) a x :=
  applyWrites_append disk writes [(a, x)]

/-- A place that no write names keeps its value. -/
theorem applyWrites_other {disk : A → D} {writes : List (A × D)} {a : A}
    (other : ∀ w ∈ writes, w.1 ≠ a) : applyWrites disk writes a = disk a := by
  induction writes generalizing disk with
  | nil => rfl
  | cons w rest ih =>
    have untouched : applyWrites (update disk w.1 w.2) rest a =
        update disk w.1 w.2 a :=
      ih fun v inside => other v (List.mem_cons_of_mem w inside)
    have first : a ≠ w.1 := (other w List.mem_cons_self).symm
    exact untouched.trans (update_of_ne first _ _)

end Writes

/-- Where the log is, and how a header lists places. -/
structure RedoLog (A D : Type) where
  head : A
  slot : Nat → A
  capacity : Nat
  decode : D → List A
  apart : ∀ i j, i < capacity → j < capacity → slot i = slot j → i = j
  beside : ∀ i < capacity, slot i ≠ head

namespace RedoLog

variable {A D : Type}

/-- A place outside the log. -/
def Home (L : RedoLog A D) (a : A) : Prop := a ≠ L.head ∧ ∀ i < L.capacity, a ≠ L.slot i

structure Durable (L : RedoLog A D) (disk target : A → D) : Prop where
  short : (L.decode (disk L.head)).length ≤ L.capacity
  homes : ∀ a ∈ L.decode (disk L.head), L.Home a
  slots : ∀ i a, (L.decode (disk L.head))[i]? = some a → disk (L.slot i) = target a
  rest : ∀ a, L.Home a → a ∉ L.decode (disk L.head) → disk a = target a

variable [DecidableEq A] {L : RedoLog A D} {disk target target' : A → D} {a : A} {x : D}
  {l : List A} {i : Nat}

omit [DecidableEq A] in
theorem Durable.home (durable : L.Durable disk target) (empty : L.decode (disk L.head) = [])
    (home : L.Home a) : disk a = target a :=
  durable.rest a home (by simp [empty])

/-- With an empty header the slots say nothing. -/
theorem Durable.writeSlot (durable : L.Durable disk target) (empty : L.decode (disk L.head) = [])
    (inside : i < L.capacity) (x : D) : L.Durable (update disk (L.slot i) x) target := by
  have head : update disk (L.slot i) x L.head = disk L.head :=
    update_of_ne (L.beside i inside).symm _ _
  constructor
  case short => rw [head]; exact durable.short
  case homes => rw [head]; exact durable.homes
  case slots => rw [head, empty]; simp
  case rest =>
    intro a home listed
    rw [head] at listed
    rw [update_of_ne (home.2 i inside)]
    exact durable.rest a home listed

/-- The header lists `l`, and the target changes nowhere else. -/
theorem Durable.writeHead (durable : L.Durable disk target) (empty : L.decode (disk L.head) = [])
    (header : L.decode x = l) (short : l.length ≤ L.capacity) (homes : ∀ a ∈ l, L.Home a)
    (slots : ∀ i a, l[i]? = some a → disk (L.slot i) = target' a)
    (same : ∀ a, L.Home a → a ∉ l → target' a = target a) :
    L.Durable (update disk L.head x) target' := by
  have head : update disk L.head x L.head = x := update_self _ _ _
  constructor
  case short => rw [head, header]; exact short
  case homes => rw [head, header]; exact homes
  case slots =>
    rw [head, header]
    intro i a listed
    have inside : i < l.length := by
      by_contra outside
      rw [List.getElem?_eq_none (by omega)] at listed
      cases listed
    rw [update_of_ne (L.beside i (by omega))]
    exact slots i a listed
  case rest =>
    rw [head, header]
    intro a home listed
    rw [update_of_ne home.1, same a home listed]
    exact durable.home empty home

/-- A listed place gets the value of its slot. -/
theorem Durable.install (durable : L.Durable disk target)
    (listed : (L.decode (disk L.head))[i]? = some a) :
    L.Durable (update disk a (disk (L.slot i))) target := by
  have home := durable.homes a (List.mem_of_getElem? listed)
  have head : update disk a (disk (L.slot i)) L.head = disk L.head :=
    update_of_ne home.1.symm _ _
  constructor
  case short => rw [head]; exact durable.short
  case homes => rw [head]; exact durable.homes
  case slots =>
    rw [head]
    intro j b other
    have inside : j < (L.decode (disk L.head)).length := by
      by_contra outside
      rw [List.getElem?_eq_none (by omega)] at other
      cases other
    have beside : L.slot j ≠ a := (home.2 j (inside.trans_le durable.short)).symm
    rw [update_of_ne beside]
    exact durable.slots j b other
  case rest =>
    rw [head]
    intro b there absent
    have other : b ≠ a := by
      rintro rfl
      exact absent (List.mem_of_getElem? listed)
    rw [update_of_ne other]
    exact durable.rest b there absent

/-- Every place has its value: the header is not needed any more. -/
theorem Durable.clear (all : ∀ a, L.Home a → disk a = target a) (header : L.decode x = []) :
    L.Durable (update disk L.head x) target := by
  constructor
  case short => simp [header]
  case homes => simp [header]
  case slots => simp [header]
  case rest =>
    intro a home _
    rw [update_of_ne home.1]
    exact all a home

end RedoLog

end Xv6.Lib
