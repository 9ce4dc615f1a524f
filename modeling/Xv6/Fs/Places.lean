/-
# Xv6.Fs.Places -- where inodes have their blocks, and what is in them

An inode refers to blocks from its thirteen addresses, the last of which is a table of further ones.
`Dinode.place` is the block at such a place, `Dinode.byte` what is at an offset of the contents; a
block that is not there reads as zeros. The lemmas say what the three changes of the file system do
to all inodes at once:

* `Grown`: a free block, cleared, is given to an empty place (an address of the inode, or an entry of
  its table): one more place is filled and no contents change;
* `write_place`, `write_byte`: a data block is overwritten: the places are the same, and so are the
  contents except for that block of that inode.

A free inode (type 0) has no places, whatever its addresses are.
-/
import Xv6.Lib.Allotment
import Xv6.Fs.Bytes
import Xv6.Fs.Inode

namespace Xv6.Fs
open Lib Function
set_option autoImplicit false

/-! ## Chunks -/

theorem chunk_le (off n : Nat) : chunk off n ≤ n := Nat.min_le_left _ _

theorem chunk_inside (off n : Nat) : off % BSIZE + chunk off n ≤ BSIZE := by
  have small : off % BSIZE < BSIZE := Nat.mod_lt _ (by decide)
  have fits : chunk off n ≤ BSIZE - off % BSIZE := Nat.min_le_right _ _
  omega

@[simp] theorem length_take_chunk (off : Nat) (text : List Byte) :
    (text.take (chunk off text.length)).length = chunk off text.length := by
  rw [List.length_take, Nat.min_eq_left (chunk_le _ _)]

/-! ## Places -/

inductive Pointer where
  | addr (k : Fin (NDIRECT + 1))
  | entry (j : Fin NINDIRECT)
  deriving DecidableEq, Repr

/-- The block with the table of further addresses. -/
def Dinode.table (d : Dinode) : Nat := d.addrs (Fin.last NDIRECT)

def Dinode.place (d : Dinode) (blocks : Nat → Block) : Pointer → Nat
  | .addr k => d.addrs k
  | .entry j => if d.table = 0 then 0 else (blocks d.table).le (4 * j) 4

/-- The place of block `bn` of the contents. -/
def Pointer.ofBlock (bn : Nat) : Option Pointer :=
  if direct : bn < NDIRECT then some (.addr ⟨bn, Nat.lt_succ_of_lt direct⟩)
  else if listed : bn - NDIRECT < NINDIRECT then some (.entry ⟨bn - NDIRECT, listed⟩)
  else none

def Dinode.blockAt (d : Dinode) (blocks : Nat → Block) (bn : Nat) : Nat :=
  match Pointer.ofBlock bn with
  | none => 0
  | some p => d.place blocks p

def Dinode.byte (d : Dinode) (blocks : Nat → Block) (off : Nat) : Byte :=
  if d.blockAt blocks (off / BSIZE) = 0 then 0
  else blocks (d.blockAt blocks (off / BSIZE)) (off % BSIZE)

/-- A place of an inode, by its number. -/
def placeOf (ino : Nat → Dinode) (blocks : Nat → Block) (x : Nat × Pointer) : Nat :=
  if (ino x.1).type = 0 then 0 else (ino x.1).place blocks x.2

variable {blocks : Nat → Block} {d : Dinode} {j : Fin NINDIRECT}

theorem placeOf_live {ino : Nat → Dinode} {n : Nat} (live : (ino n).type ≠ 0) (p : Pointer) :
    placeOf ino blocks (n, p) = (ino n).place blocks p := if_neg live

theorem Dinode.place_entry_zero (absent : d.table = 0) :
    d.place blocks (.entry j) = 0 := if_pos absent

theorem Dinode.place_entry (there : d.table ≠ 0) :
    d.place blocks (.entry j) = (blocks d.table).le (4 * j) 4 := if_neg there

variable {d' : Dinode} {blocks' : Nat → Block} {bn : Nat}

theorem Dinode.place_entry_congr (same : d'.table = d.table)
    (data : d.table ≠ 0 → blocks' d.table = blocks d.table) :
    d'.place blocks' (.entry j) = d.place blocks (.entry j) := by
  by_cases absent : d.table = 0
  · rw [Dinode.place_entry_zero absent, Dinode.place_entry_zero (same.trans absent)]
  · rw [Dinode.place_entry absent, Dinode.place_entry (same ▸ absent), same, data absent]

theorem Pointer.ofBlock_inj {bn' : Nat} {p : Pointer} (here : Pointer.ofBlock bn = some p)
    (there : Pointer.ofBlock bn' = some p) : bn = bn' := by
  unfold Pointer.ofBlock at here there
  grind

theorem Pointer.ofBlock_ne_table : Pointer.ofBlock bn ≠ some (.addr (Fin.last NDIRECT)) := by
  intro here
  unfold Pointer.ofBlock at here
  grind [Fin.last]

/-- The contents depend on the addresses and on the blocks that are there. -/
theorem Dinode.byte_congr {off : Nat}
    (same : d'.blockAt blocks' (off / BSIZE) = d.blockAt blocks (off / BSIZE))
    (data : d.blockAt blocks (off / BSIZE) ≠ 0 →
      blocks' (d.blockAt blocks (off / BSIZE)) = blocks (d.blockAt blocks (off / BSIZE))) :
    d'.byte blocks' off = d.byte blocks off := by
  unfold Dinode.byte
  rw [same]
  split
  · rfl
  · rename_i there
    rw [data there]

/-! ## Changes -/

section Changes

variable {ino ino' : Nat → Dinode} {blocks blocks' : Nat → Block} {used area : Nat → Prop}
  {n m b bn : Nat} {p : Pointer} {k : Fin (NDIRECT + 1)}

section

variable (allotted : Allotted (placeOf ino blocks) used area)
include allotted

/-- What a place of a live inode holds is in the area and used. -/
theorem place_sound (live : (ino n).type ≠ 0) (held : (ino n).place blocks p ≠ 0) :
    area ((ino n).place blocks p) ∧ used ((ino n).place blocks p) := by
  have sound := allotted.sound (n, p)
  rw [placeOf_live live] at sound
  exact sound held

theorem table_sound (live : (ino n).type ≠ 0) (there : (ino n).table ≠ 0) :
    area (ino n).table ∧ used (ino n).table := by
  have sound := allotted.sound (n, .addr (Fin.last NDIRECT))
  rw [placeOf_live live] at sound
  exact sound there

theorem place_inj {p' : Pointer} (liveN : (ino n).type ≠ 0) (liveM : (ino m).type ≠ 0)
    (held : (ino n).place blocks p ≠ 0) (equal : (ino n).place blocks p = (ino m).place blocks p') :
    n = m ∧ p = p' := by
  have inj := allotted.inj (n, p) (m, p')
  rw [placeOf_live liveN, placeOf_live liveM] at inj
  exact Prod.mk.inj (inj equal held)

/-- Blocks outside the area do not matter to the inodes. -/
theorem place_frame (same : ∀ c, area c → blocks' c = blocks c) (live : (ino n).type ≠ 0)
    (p : Pointer) : (ino n).place blocks' p = (ino n).place blocks p := by
  cases p with
  | addr k => rfl
  | entry j =>
    refine Dinode.place_entry_congr rfl fun there => same _ ?_
    exact (table_sound allotted live there).1

theorem placeOf_frame (same : ∀ c, area c → blocks' c = blocks c) (x : Nat × Pointer) :
    placeOf ino blocks' x = placeOf ino blocks x := by
  by_cases free : (ino x.1).type = 0
  · simp [placeOf, free]
  · rw [placeOf_live free, placeOf_live free, place_frame allotted same free]

theorem blockAt_frame (same : ∀ c, area c → blocks' c = blocks c) (live : (ino n).type ≠ 0)
    (l : Nat) : (ino n).blockAt blocks' l = (ino n).blockAt blocks l := by
  unfold Dinode.blockAt
  split
  · rfl
  · exact place_frame allotted same live _

theorem byte_frame (same : ∀ c, area c → blocks' c = blocks c) (live : (ino n).type ≠ 0) (off : Nat) :
    (ino n).byte blocks' off = (ino n).byte blocks off := by
  refine Dinode.byte_congr (blockAt_frame allotted same live _) fun there => same _ ?_
  unfold Dinode.blockAt at there ⊢
  split at there
  · exact absurd rfl there
  · exact (place_sound allotted live there).1

end

/-- A block goes into an empty place, and no contents change. -/
structure Grown (ino ino' : Nat → Dinode) (blocks blocks' : Nat → Block) (x : Nat × Pointer) (b : Nat) :
    Prop where
  place : ∀ y, placeOf ino' blocks' y = update (placeOf ino blocks) x b y
  byte : ∀ m, (ino m).type ≠ 0 → ∀ off, (ino' m).byte blocks' off = (ino m).byte blocks off

theorem blockAt_some (here : Pointer.ofBlock bn = some p) (d : Dinode) :
    d.blockAt blocks bn = d.place blocks p := by
  unfold Dinode.blockAt
  rw [here]

/-- If one place of one inode was filled with a cleared block, the contents are the same. -/
theorem Grown.of_place (live : (ino n).type ≠ 0) (empty : (ino n).place blocks p = 0)
    (cleared : blocks' b = fun _ => 0) (types : ∀ m, (ino' m).type = (ino m).type)
    (place : ∀ m q, (ino m).type ≠ 0 →
      (ino' m).place blocks' q = if m = n ∧ q = p then b else (ino m).place blocks q)
    (data : ∀ m bn, (ino m).type ≠ 0 → (ino m).blockAt blocks bn ≠ 0 →
      blocks' ((ino m).blockAt blocks bn) = blocks ((ino m).blockAt blocks bn)) :
    Grown ino ino' blocks blocks' (n, p) b := by
  refine ⟨fun y => ?_, fun m liveM off => ?_⟩
  · obtain ⟨m, q⟩ := y
    by_cases liveM : (ino m).type = 0
    · have other : (m, q) ≠ (n, p) := by
        rintro ⟨rfl, rfl⟩
        exact live liveM
      rw [update_of_ne other]
      simp [placeOf, types, liveM]
    · rw [placeOf_live (by rw [types]; exact liveM), place m q liveM]
      by_cases here : m = n ∧ q = p
      · rw [if_pos here, here.1, here.2, update_self]
      · rw [if_neg here, update_of_ne, placeOf_live liveM]
        intro equal
        exact here ⟨congrArg Prod.fst equal, congrArg Prod.snd equal⟩
  · cases here : Pointer.ofBlock (off / BSIZE) with
    | none =>
      apply Dinode.byte_congr
      · simp [Dinode.blockAt, here]
      · simp [Dinode.blockAt, here]
    | some q =>
      have now : (ino' m).blockAt blocks' (off / BSIZE) = (ino' m).place blocks' q :=
        blockAt_some here _
      have before : (ino m).blockAt blocks (off / BSIZE) = (ino m).place blocks q :=
        blockAt_some here _
      by_cases filled : m = n ∧ q = p
      · -- the new block reads as the hole it fills
        obtain ⟨rfl, rfl⟩ := filled
        have zero : (ino m).blockAt blocks (off / BSIZE) = 0 := before.trans empty
        have isNew : (ino' m).blockAt blocks' (off / BSIZE) = b := by
          rw [now, place m q live, if_pos ⟨rfl, rfl⟩]
        unfold Dinode.byte
        rw [if_pos zero, isNew, cleared]
        split <;> rfl
      · apply Dinode.byte_congr
        · rw [now, before, place m q liveM, if_neg filled]
        · exact data m _ liveM

section

variable (allotted : Allotted (placeOf ino blocks) used area) (live : (ino n).type ≠ 0)
include allotted live

/-- An address of the inode. -/
theorem grown_addr (empty : (ino n).addrs k = 0) (free : ¬used b) (nonzero : b ≠ 0)
    (cleared : blocks' b = fun _ => 0) (rest : ∀ c, area c → c ≠ b → blocks' c = blocks c)
    (same : ∀ m, m ≠ n → ino' m = ino m)
    (filled : ino' n = { ino n with addrs := update (ino n).addrs k b }) :
    Grown ino ino' blocks blocks' (n, .addr k) b := by
  -- a block in use is not the new one
  have kept : ∀ m q, (ino m).type ≠ 0 → (ino m).place blocks q ≠ 0 →
      blocks' ((ino m).place blocks q) = blocks ((ino m).place blocks q) := by
    intro m q liveM held
    obtain ⟨isInside, isUsed⟩ := place_sound allotted liveM held
    exact rest _ isInside fun here => free (here ▸ isUsed)
  refine Grown.of_place live empty cleared (fun m => ?_) (fun m q liveM => ?_) (fun m bn liveM held => ?_)
  · by_cases here : m = n
    · rw [here, filled]
    · rw [same m here]
  · by_cases here : m = n
    · subst here
      rw [filled]
      cases q with
      | addr l =>
        by_cases isK : l = k
        · simp [Dinode.place, isK]
        · simp [Dinode.place, isK]
      | entry j =>
        rw [if_neg (by simp)]
        by_cases isTable : k = Fin.last NDIRECT
        · -- the table was not there, and the new one is empty
          have now : Dinode.table { ino m with addrs := update (ino m).addrs k b } = b := by
            simp [Dinode.table, isTable]
          have absent : (ino m).table = 0 := by
            rw [isTable] at empty
            exact empty
          rw [Dinode.place_entry_zero absent, Dinode.place_entry (by rw [now]; exact nonzero), now,
            cleared]
          rfl
        · refine Dinode.place_entry_congr ?_ fun hasTable =>
            kept m (.addr (Fin.last NDIRECT)) liveM hasTable
          exact update_of_ne (Ne.symm isTable) _ _
    · rw [same m here, if_neg fun both => here both.1]
      cases q with
      | addr l => rfl
      | entry j =>
        exact Dinode.place_entry_congr rfl fun hasTable =>
          kept m (.addr (Fin.last NDIRECT)) liveM hasTable
  · cases here : Pointer.ofBlock bn with
    | none => simp [Dinode.blockAt, here] at held
    | some q =>
      rw [blockAt_some here] at held ⊢
      exact kept m q liveM held

/-- An entry of the table. -/
theorem grown_entry (there : (ino n).table ≠ 0) (empty : (ino n).place blocks (.entry j) = 0)
    (free : ¬used b) (small : b < 2 ^ 32) (cleared : blocks' b = fun _ => 0)
    (listed : blocks' (ino n).table = (blocks (ino n).table).put (4 * j) (leBytes b 4))
    (rest : ∀ c, area c → c ≠ b → c ≠ (ino n).table → blocks' c = blocks c) :
    Grown ino ino blocks blocks' (n, .entry j) b := by
  -- a block in use is not the new one, and it is no other's table
  have kept : ∀ m q, (ino m).type ≠ 0 → (ino m).place blocks q ≠ 0 →
      ¬(m = n ∧ q = .addr (Fin.last NDIRECT)) →
      blocks' ((ino m).place blocks q) = blocks ((ino m).place blocks q) := by
    intro m q liveM held other
    obtain ⟨isInside, isUsed⟩ := place_sound allotted liveM held
    refine rest _ isInside (fun here => free (here ▸ isUsed)) fun here => ?_
    exact other (place_inj allotted liveM live held here)
  refine Grown.of_place live empty cleared (fun _ => rfl) (fun m q liveM => ?_)
    (fun m bn liveM held => ?_)
  · cases q with
    | addr l => simp [Dinode.place]
    | entry l =>
      by_cases here : m = n
      · subst here
        rw [Dinode.place_entry there, Dinode.place_entry there, listed]
        by_cases same : l = j
        · rw [if_pos ⟨rfl, by rw [same]⟩, same]
          exact Block.le_put small
        · have apart : (l : Nat) ≠ j := fun equal => same (Fin.ext equal)
          rw [if_neg fun both => same (Pointer.entry.inj both.2)]
          rcases Nat.lt_or_gt_of_ne apart with below | above
          · exact Block.le_put_below (by omega)
          · exact Block.le_put_above (by rw [leBytes_length]; omega)
      · rw [if_neg fun both => here both.1]
        exact Dinode.place_entry_congr rfl fun hasTable =>
          kept m (.addr (Fin.last NDIRECT)) liveM hasTable fun both => here both.1
  · cases here : Pointer.ofBlock bn with
    | none => simp [Dinode.blockAt, here] at held
    | some q =>
      rw [blockAt_some here] at held ⊢
      exact kept m q liveM held fun both => Pointer.ofBlock_ne_table (here.trans (by rw [both.2]))

/-! ## Writing -/

/-- A data block is overwritten: no place changes. -/
theorem write_place (here : (ino n).blockAt blocks bn = b) (held : b ≠ 0)
    (rest : ∀ c, area c → c ≠ b → blocks' c = blocks c) (liveM : (ino m).type ≠ 0) (q : Pointer) :
    (ino m).place blocks' q = (ino m).place blocks q := by
  cases q with
  | addr l => rfl
  | entry j =>
    refine Dinode.place_entry_congr rfl fun hasTable => ?_
    have inside := (table_sound allotted liveM hasTable).1
    refine rest _ inside fun isBlock => ?_
    -- data blocks are at other places than tables
    cases place : Pointer.ofBlock bn with
    | none =>
      rw [Dinode.blockAt, place] at here
      exact held here.symm
    | some p =>
      rw [blockAt_some place] at here
      have isTable : (ino n).place blocks p = (ino m).place blocks (.addr (Fin.last NDIRECT)) :=
        here.trans isBlock.symm
      have same := place_inj allotted live liveM (here ▸ held) isTable
      exact Pointer.ofBlock_ne_table (place.trans (by rw [same.2]))

/-- ... and the contents change only there. -/
theorem write_byte (here : (ino n).blockAt blocks bn = b) (held : b ≠ 0)
    (rest : ∀ c, area c → c ≠ b → blocks' c = blocks c) (liveM : (ino m).type ≠ 0) (off : Nat) :
    (ino m).byte blocks' off =
      if m = n ∧ off / BSIZE = bn then blocks' b (off % BSIZE) else (ino m).byte blocks off := by
  have places := fun q => write_place allotted live here held rest liveM q
  have blockAt : ∀ bn, (ino m).blockAt blocks' bn = (ino m).blockAt blocks bn := by
    intro bn
    unfold Dinode.blockAt
    split
    · rfl
    · exact places _
  by_cases written : m = n ∧ off / BSIZE = bn
  · obtain ⟨rfl, rfl⟩ := written
    rw [if_pos ⟨rfl, rfl⟩, Dinode.byte, blockAt, here, if_neg held]
  · rw [if_neg written]
    refine Dinode.byte_congr (blockAt _) fun there => ?_
    cases placeM : Pointer.ofBlock (off / BSIZE) with
    | none => simp [Dinode.blockAt, placeM] at there
    | some q =>
      rw [blockAt_some placeM] at there ⊢
      refine rest _ (place_sound allotted liveM there).1 fun isBlock => written ?_
      cases place : Pointer.ofBlock bn with
      | none =>
        rw [Dinode.blockAt, place] at here
        exact absurd here.symm held
      | some p =>
        rw [blockAt_some place] at here
        have same := place_inj allotted liveM live there (isBlock.trans here.symm)
        exact ⟨same.1, Pointer.ofBlock_inj placeM (place.trans (by rw [same.2]))⟩

end

end Changes

end Xv6.Fs
