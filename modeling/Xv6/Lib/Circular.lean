/-
# Xv6.Lib.Circular -- circular doubly linked lists

Nodes with a `next` and a `prev` pointer. `Seg k a l b` says that the pointers lead from `a` through
`l` to `b`, in both directions; `Ring k head l` that they lead from `head` through `l` back to `head`,
and no node comes twice. Taking a node out and putting one in front are the usual assignments, one
after the other; a loop along the pointers until `head` comes again finds what `List.find?` finds.
-/
import Mathlib.Tactic

namespace Xv6.Lib
open List Function
set_option autoImplicit false

structure Links (N : Type) where
  next : N → N
  prev : N → N

namespace Links

variable {N : Type}

def Seg (k : Links N) : N → List N → N → Prop
  | a, [], b => k.next a = b ∧ k.prev b = a
  | a, x :: l, b => (k.next a = x ∧ k.prev x = a) ∧ Seg k x l b

structure Ring (k : Links N) (head : N) (l : List N) : Prop where
  nodup : (head :: l).Nodup
  seg : k.Seg head l head

/-- Follow pointers until `stop`, and end early at a node that meets `p`. -/
def walk [DecidableEq N] (step : N → N) (stop : N) (p : N → Bool) : Nat → N → Option (Option N)
  | 0, _ => none
  | fuel + 1, x =>
    if x = stop then some none
    else if p x then some (some x)
    else walk step stop p fuel (step x)

section Ops

variable [DecidableEq N]

/-- `x->next->prev = x->prev; x->prev->next = x->next;` -/
def unlink (k : Links N) (x : N) : Links N :=
  let k : Links N := { k with prev := update k.prev (k.next x) (k.prev x) }
  { k with next := update k.next (k.prev x) (k.next x) }

/-- `x->next = head->next; x->prev = head; head->next->prev = x; head->next = x;` -/
def insertAfter (k : Links N) (head x : N) : Links N :=
  let k : Links N := { k with next := update k.next x (k.next head) }
  let k : Links N := { k with prev := update k.prev x head }
  let k : Links N := { k with prev := update k.prev (k.next head) x }
  { k with next := update k.next head x }

end Ops

variable {k k' : Links N} {a b c x head : N} {l l₁ l₂ : List N}

/-! ## Segments -/

theorem Seg.append_iff :
    k.Seg a (l₁ ++ x :: l₂) b ↔ k.Seg a l₁ x ∧ k.Seg x l₂ b := by
  induction l₁ generalizing a with
  | nil => rfl
  | cons y l₁ ih => simp only [cons_append, Seg, ih, and_assoc]

/-- Only the pointers between two nodes of a segment count. -/
theorem Seg.frame (seg : k.Seg a l b) (next : ∀ y ∈ a :: l, k'.next y = k.next y)
    (prev : ∀ y ∈ l ++ [b], k'.prev y = k.prev y) : k'.Seg a l b := by
  induction l generalizing a with
  | nil => exact ⟨(next a (by simp)).trans seg.1, (prev b (by simp)).trans seg.2⟩
  | cons y l ih =>
    obtain ⟨⟨forward, backward⟩, rest⟩ := seg
    refine ⟨⟨(next a (by simp)).trans forward, (prev y (by simp)).trans backward⟩, ?_⟩
    exact ih rest (fun z inside => next z (mem_cons_of_mem a inside)) fun z inside =>
      prev z (mem_cons_of_mem y inside)

theorem Seg.prev_mem (seg : k.Seg a l b) : k.prev b ∈ a :: l := by
  induction l generalizing a with
  | nil => simp [seg.2]
  | cons y l ih => exact mem_cons_of_mem a (ih seg.2)

theorem Seg.next_mem (seg : k.Seg a l b) : k.next a ∈ l ++ [b] := by
  cases l with
  | nil => simp [seg.1]
  | cons y l => simp [seg.1.1]

/-- The last pointer of a segment is turned to another node. -/
theorem Seg.retarget (seg : k.Seg a l b) (nodup : (a :: l).Nodup)
    (next : ∀ y ∈ a :: l, y ≠ k.prev b → k'.next y = k.next y)
    (prev : ∀ y ∈ l, k'.prev y = k.prev y) (forward : k'.next (k.prev b) = c)
    (backward : k'.prev c = k.prev b) : k'.Seg a l c := by
  induction l generalizing a with
  | nil =>
    rw [seg.2] at forward backward
    exact ⟨forward, backward⟩
  | cons y l ih =>
    obtain ⟨⟨here, back⟩, rest⟩ := seg
    rw [nodup_cons] at nodup
    have other : a ≠ k.prev b := fun same => nodup.1 (same ▸ rest.prev_mem)
    refine ⟨⟨(next a (by simp) other).trans here, (prev y (by simp)).trans back⟩, ?_⟩
    exact ih rest nodup.2 (fun z inside => next z (mem_cons_of_mem a inside)) fun z inside =>
      prev z (mem_cons_of_mem y inside)

theorem Seg.reverse (seg : k.Seg a l b) : Seg ⟨k.prev, k.next⟩ b l.reverse a := by
  induction l generalizing a with
  | nil => exact ⟨seg.2, seg.1⟩
  | cons y l ih =>
    obtain ⟨⟨forward, backward⟩, rest⟩ := seg
    rw [reverse_cons]
    exact Seg.append_iff.mpr ⟨ih rest, backward, forward⟩

/-! ## Loops -/

variable [DecidableEq N] {fuel : Nat}

theorem Seg.walk_next (seg : k.Seg a l head) (absent : head ∉ l) (p : N → Bool)
    (enough : l.length < fuel) : walk k.next head p fuel (k.next a) = some (l.find? p) := by
  induction l generalizing a fuel with
  | nil =>
    cases fuel with
    | zero => cases enough
    | succ fuel => simp [walk, seg.1]
  | cons y l ih =>
    cases fuel with
    | zero => cases enough
    | succ fuel =>
      obtain ⟨⟨forward, -⟩, rest⟩ := seg
      have other : y ≠ head := fun same => absent (by simp [same])
      rw [walk, forward, if_neg other, find?_cons]
      cases p y with
      | true => rfl
      | false =>
        exact ih rest (fun inside => absent (mem_cons_of_mem y inside))
          (Nat.lt_of_succ_lt_succ enough)

theorem Ring.walk_next (ring : k.Ring head l) (p : N → Bool) (enough : l.length < fuel) :
    walk k.next head p fuel (k.next head) = some (l.find? p) :=
  ring.seg.walk_next (nodup_cons.mp ring.nodup).1 p enough

theorem Ring.walk_prev (ring : k.Ring head l) (p : N → Bool) (enough : l.length < fuel) :
    walk k.prev head p fuel (k.prev head) = some (l.reverse.find? p) := by
  refine ring.seg.reverse.walk_next ?_ p (by simpa using enough)
  simpa using (nodup_cons.mp ring.nodup).1

/-! ## Taking out and putting in -/

theorem unlink_next (k : Links N) (x : N) :
    (k.unlink x).next = update k.next (k.prev x) (k.next x) := by
  by_cases same : x = k.next x
  · simp [unlink, ← same]
  · simp [unlink, update_of_ne same]

theorem Ring.unlink (ring : k.Ring head (l₁ ++ x :: l₂)) : (k.unlink x).Ring head (l₁ ++ l₂) := by
  obtain ⟨nodup, seg⟩ := ring
  obtain ⟨before, after⟩ := Seg.append_iff.mp seg
  have once : (head :: (l₁ ++ l₂)).Nodup :=
    nodup.sublist ((List.Sublist.append_left (sublist_cons_self x l₂) l₁).cons_cons head)
  have left : (head :: l₁).Nodup := nodup.sublist ((sublist_append_left l₁ _).cons_cons head)
  simp only [nodup_cons, nodup_append, mem_append, not_or] at once
  obtain ⟨⟨headOut₁, headOut₂⟩, nodup₁, nodup₂, apart⟩ := once
  have last := before.prev_mem
  refine ⟨nodup.sublist
    ((List.Sublist.append_left (sublist_cons_self x l₂) l₁).cons_cons head), ?_⟩
  cases l₂ with
  | nil =>
    obtain ⟨forward, backward⟩ := after
    rw [append_nil]
    refine before.retarget left ?_ ?_ ?_ ?_
    · intro y _ other
      rw [unlink_next, update_of_ne other]
    · intro y inside
      have other : y ≠ k.next x := by
        rw [forward]
        rintro rfl
        exact headOut₁ inside
      exact update_of_ne other _ _
    · rw [unlink_next, update_self, forward]
    · rw [← forward]
      exact update_self _ _ _
  | cons q l₂ =>
    obtain ⟨⟨forward, backward⟩, rest⟩ := after
    rw [mem_cons, not_or] at headOut₂
    rw [nodup_cons] at nodup₂
    -- the node before `x` is in front of `q` now
    have lastOut : ∀ y ∈ q :: l₂, y ≠ k.prev x := by
      rintro y inside rfl
      rcases mem_cons.mp last with isHead | inFront
      · rw [isHead] at inside
        exact (mem_cons.mp inside).elim headOut₂.1 headOut₂.2
      · exact apart _ inFront _ inside rfl
    refine Seg.append_iff.mpr ⟨before.retarget left ?_ ?_ ?_ ?_, rest.frame ?_ ?_⟩
    · intro y _ other
      rw [unlink_next, update_of_ne other]
    · intro y inside
      have other : y ≠ k.next x := by
        rw [forward]
        exact apart y inside q mem_cons_self
      exact update_of_ne other _ _
    · rw [unlink_next, update_self, forward]
    · rw [← forward]
      exact update_self _ _ _
    · intro y inside
      rw [unlink_next, update_of_ne (lastOut y inside)]
    · intro y inside
      have other : y ≠ k.next x := by
        rw [forward]
        rintro rfl
        rcases mem_append.mp inside with later | isHead
        · exact nodup₂.1 later
        · exact headOut₂.1 (mem_singleton.mp isHead).symm
      exact update_of_ne other _ _

theorem Ring.insertAfter (ring : k.Ring head l) (absent : x ∉ head :: l) :
    (k.insertAfter head x).Ring head (x :: l) := by
  obtain ⟨nodup, seg⟩ := ring
  obtain ⟨notHead, notInside⟩ : x ≠ head ∧ x ∉ l := by simpa using absent
  rw [nodup_cons] at nodup
  obtain ⟨headOut, nodup⟩ := nodup
  have first : x ≠ k.next head := by
    rintro same
    rcases mem_append.mp seg.next_mem with inside | isHead
    · exact notInside (same ▸ inside)
    · exact notHead (same.trans (mem_singleton.mp isHead))
  have next : (k.insertAfter head x).next =
      update (update k.next x (k.next head)) head x := rfl
  have prev : (k.insertAfter head x).prev =
      update (update k.prev x head) (k.next head) x := by
    simp [Links.insertAfter, update_of_ne notHead.symm]
  refine ⟨?_, ⟨?_, ?_⟩, ?_⟩
  · simp only [nodup_cons, mem_cons, not_or]
    exact ⟨⟨notHead.symm, headOut⟩, notInside, nodup⟩
  · rw [next, update_self]
  · rw [prev, update_of_ne first, update_self]
  · cases l with
    | nil =>
      obtain ⟨forward, -⟩ := seg
      refine ⟨?_, ?_⟩
      · rw [next, update_of_ne notHead, update_self, forward]
      · rw [prev, forward, update_self]
    | cons y l =>
      obtain ⟨⟨forward, -⟩, rest⟩ := seg
      rw [mem_cons, not_or] at headOut notInside
      rw [nodup_cons] at nodup
      refine ⟨⟨?_, ?_⟩, rest.frame ?_ ?_⟩
      · rw [next, update_of_ne notHead, update_self, forward]
      · rw [prev, forward, update_self]
      · intro z inside
        have notX : z ≠ x := by
          rintro rfl
          exact (mem_cons.mp inside).elim notInside.1 notInside.2
        have notHead : z ≠ head := by
          rintro rfl
          exact (mem_cons.mp inside).elim headOut.1 headOut.2
        rw [next, update_of_ne notHead, update_of_ne notX]
      · intro z inside
        have notX : z ≠ x := by
          rintro rfl
          rcases mem_append.mp inside with later | isHead
          · exact notInside.2 later
          · exact notHead (mem_singleton.mp isHead)
        have notY : z ≠ k.next head := by
          rw [forward]
          rintro rfl
          rcases mem_append.mp inside with later | isHead
          · exact nodup.1 later
          · exact headOut.1 (mem_singleton.mp isHead).symm
        rw [prev, update_of_ne notY, update_of_ne notX]

/-- A node of the ring is put in front. -/
theorem Ring.moveToFront (ring : k.Ring head l) (inside : x ∈ l) :
    ∃ l', ((k.unlink x).insertAfter head x).Ring head l' ∧ l'.Perm l := by
  obtain ⟨l₁, l₂, rfl⟩ := append_of_mem inside
  refine ⟨x :: (l₁ ++ l₂), ring.unlink.insertAfter ?_, perm_middle.symm⟩
  have nodup := ring.nodup
  simp only [nodup_cons, nodup_append, mem_append, mem_cons, not_or] at nodup
  obtain ⟨⟨-, notHead, -⟩, -, ⟨after, -⟩, apart⟩ := nodup
  simp only [mem_cons, mem_append, not_or]
  exact ⟨Ne.symm notHead, fun before => apart x before x (.inl rfl) rfl, after⟩

end Links

end Xv6.Lib
