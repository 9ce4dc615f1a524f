/-
# Xv6.Mkfs.Blocks -- the blocks that iappend gives to a file

`Base img ino` is what holds of the data blocks of an unfinished image, with the inodes as they are in
memory (`ino`): the blocks handed out so far, from `nmeta` up to the counter, are those that the
inodes hold, each once, and the others have not been written. `Stores d blocks text` says that an
inode has the blocks for a text, no others, and the text in them. One round of the loop in `iappend`
takes the text a chunk further (`blockFor_gives`, `Stores.extend`), and the loop to its end
(`iappendLoop_gives`).
-/
import Xv6.Lib.Ensures
import Xv6.Fs.Places
import Xv6.Fs.Dinodes
import Xv6.Mkfs.Image
import Mathlib.Data.List.GetD

namespace Xv6.Mkfs
open Lib List Function
open Fs (Byte Block Dinode Pointer FSSIZE BSIZE NDIRECT NINDIRECT MAXFILE placeOf Grown chunk leBytes)
set_option autoImplicit false

/-- If it returns, `Q` holds. -/
abbrev Gives {α : Type} (m : MkM α) (img : Image) (Q : α → Image → Prop) : Prop :=
  Ensures (fun _ => False) m img Q

variable {img : Image}

theorem stop_gives {α : Type} {Q : α → Image → Prop} {reason : Stop} :
    Gives (stop reason) img Q := .stop id

theorem assert_gives {c : Prop} [Decidable c] {text : String} :
    Gives (assert c text) img fun _ img' => img = img' ∧ c := by
  unfold assert
  split
  · rename_i holds
    exact .pure ⟨rfl, holds⟩
  · exact stop_gives

theorem rsect_gives {sec : Nat} :
    Gives (rsect sec) img fun buf img' => img = img' ∧ buf = img.sector sec ∧ sec < img.length := by
  refine .getBind ?_
  split
  · rename_i inside
    exact .pure ⟨rfl, rfl, inside⟩
  · exact stop_gives

/-! ## The data blocks -/

structure Base (img : Image) (ino : Nat → Dinode) : Prop where
  length : img.length = FSSIZE
  low : nmeta ≤ img.freeblock
  /-- one block may have been given out that is not on the disk -/
  high : img.freeblock ≤ FSSIZE + 1
  clean : ∀ b, img.freeblock ≤ b → img.sector b = fun _ => 0
  allotted : Allotted (placeOf ino img.sector) (· < img.freeblock) (nmeta ≤ ·)
  exact : Exact (placeOf ino img.sector) (· < img.freeblock) (nmeta ≤ ·)

section Blocks

variable {img : Image} {ino ino' : Nat → Dinode} {n bn : Nat} {din : Dinode} {p : Pointer}
  {blocks : Nat → Block}

/-- The next block goes to an empty place. -/
theorem Base.take (base : Base img ino) (room : img.freeblock ≤ FSSIZE)
    (grown : Grown ino ino' img.sector blocks (n, p) img.freeblock)
    (empty : placeOf ino img.sector (n, p) = 0)
    (clean : ∀ b, img.freeblock < b → blocks b = fun _ => 0) :
    Base { img with freeblock := img.freeblock + 1, sector := blocks } ino' := by
  have usage : ∀ c, nmeta ≤ c → (c < img.freeblock + 1 ↔ c = img.freeblock ∨ c < img.freeblock) := by
    intro c _
    omega
  refine ⟨base.length, Nat.le_succ_of_le base.low, Nat.succ_le_succ room, fun b above => ?_, ?_, ?_⟩
  · exact clean b above
  · exact base.allotted.take base.low (Nat.lt_irrefl _) grown.place usage
  · refine base.exact.take empty (fun c inside => ?_) grown.place usage
    exact Nat.pos_iff_ne_zero.mp (Nat.lt_of_lt_of_le (by decide) inside)

variable {m : Nat} {img'' : Image} {more : List Byte}

/-- A place of the contents is filled: the other blocks of the contents are where they were. -/
theorem blockAt_grown {b : Nat} (grown : Grown ino ino' img.sector blocks (n, p) b)
    (types : ∀ m, (ino' m).type = (ino m).type) (here : ∀ l, Pointer.ofBlock l = some p → l = bn)
    {l : Nat} (live : (ino m).type ≠ 0) (other : m ≠ n ∨ l ≠ bn) :
    (ino' m).blockAt blocks l = (ino m).blockAt img.sector l := by
  cases place : Pointer.ofBlock l with
  | none => simp [Dinode.blockAt, place]
  | some q =>
    have now := grown.place (m, q)
    have apart : (m, q) ≠ (n, p) := by
      rintro ⟨rfl, rfl⟩
      rcases other with other | other
      · exact other rfl
      · exact other (here l place)
    rw [update_of_ne apart, Fs.placeOf_live live,
      Fs.placeOf_live (by rw [types]; exact live)] at now
    rw [Fs.blockAt_some place, Fs.blockAt_some place, now]

/-- The inodes with one of them as it is in memory. -/
def working (ino : Nat → Dinode) (n : Nat) (din : Dinode) : Nat → Dinode := update ino n din

@[simp] theorem working_self : working ino n din n = din := by
  rw [working, update_self]

theorem working_other (other : m ≠ n) : working ino n din m = ino m :=
  update_of_ne other _ _

variable {din' : Dinode} {img' : Image} {x : Nat} {t : List Byte}

theorem working_type (same : din'.type = din.type) (m : Nat) :
    (working ino n din' m).type = (working ino n din m).type := by
  by_cases here : m = n
  · rw [here, working_self, working_self, same]
  · rw [working_other here, working_other here]

/-- No contents change; of the blocks of the contents only `bn` of inode `n` may be new. -/
structure Same (n bn : Nat) (img img' : Image) (ino ino' : Nat → Dinode) : Prop where
  freeinode : img'.freeinode = img.freeinode
  fixed : ∀ c, c < nmeta → img'.sector c = img.sector c
  types : ∀ m, (ino' m).type = (ino m).type
  byte : ∀ m, (ino m).type ≠ 0 → ∀ off, (ino' m).byte img'.sector off = (ino m).byte img.sector off
  blockAt : ∀ m, (ino m).type ≠ 0 → ∀ l, m ≠ n ∨ l ≠ bn →
    (ino' m).blockAt img'.sector l = (ino m).blockAt img.sector l

theorem Same.refl : Same n bn img img ino ino :=
  ⟨rfl, fun _ _ => rfl, fun _ => rfl, fun _ _ _ => rfl, fun _ _ _ _ => rfl⟩

theorem Same.trans {ino'' : Nat → Dinode} (first : Same n bn img img' ino ino')
    (second : Same n bn img' img'' ino' ino'') : Same n bn img img'' ino ino'' where
  freeinode := second.freeinode.trans first.freeinode
  fixed := fun c low => (second.fixed c low).trans (first.fixed c low)
  types := fun m => (second.types m).trans (first.types m)
  byte := fun m live off =>
    (second.byte m (by rw [first.types]; exact live) off).trans (first.byte m live off)
  blockAt := fun m live l other =>
    (second.blockAt m (by rw [first.types]; exact live) l other).trans (first.blockAt m live l other)

/-! ## Addresses -/

theorem nextBlock_gives : Gives nextBlock img fun b img' =>
    b = img.freeblock ∧ img' = { img with freeblock := img.freeblock + 1 } :=
  .getBind (.updateBind (.pure ⟨rfl, rfl⟩))

theorem addrAt_gives (bn : Nat) (base : Base img (working ino n din)) (room : img.freeblock ≤ FSSIZE)
    (live : din.type ≠ 0) {k : Fin (NDIRECT + 1)}
    (here : ∀ l, Pointer.ofBlock l = some (.addr k) → l = bn) :
    Gives (addrAt din k) img fun din' img' =>
      Base img' (working ino n din') ∧
      Same n bn img img' (working ino n din) (working ino n din') ∧
      din'.addrs k ≠ 0 ∧ (∃ addrs, din' = { din with addrs := addrs }) ∧
      (img'.freeblock ≤ FSSIZE ∨ din'.addrs k + 1 = img'.freeblock) := by
  unfold addrAt
  split
  case isTrue empty =>
    refine .bind nextBlock_gives ?_
    rintro _ _ ⟨rfl, rfl⟩
    have grown : Grown (working ino n din)
        (working ino n { din with addrs := update din.addrs k img.freeblock }) img.sector
        img.sector (n, .addr k) img.freeblock := by
      refine Fs.grown_addr base.allotted (by simpa using live) (by simpa using empty)
        (Nat.lt_irrefl _) ?_ (base.clean _ (Nat.le_refl _)) (fun _ _ _ => rfl) (fun m other => ?_) ?_
      · exact Nat.pos_iff_ne_zero.mp (Nat.lt_of_lt_of_le (by decide) base.low)
      · rw [working_other other, working_other other]
      · simp
    have none : placeOf (working ino n din) img.sector (n, .addr k) = 0 := by
      rw [Fs.placeOf_live (by simpa using live)]
      simpa [Dinode.place] using empty
    refine .pure ⟨?_, ?_, ?_, ⟨_, rfl⟩, .inr ?_⟩
    · exact base.take room grown none fun b above => base.clean b (Nat.le_of_lt above)
    · exact ⟨rfl, fun _ _ => rfl, working_type rfl, grown.byte,
        fun m liveM l other => blockAt_grown grown (working_type rfl) here liveM other⟩
    · have pos := Nat.lt_of_lt_of_le (by decide : 0 < nmeta) base.low
      simpa using Nat.pos_iff_ne_zero.mp pos
    · simp
  case isFalse there => exact .pure ⟨base, .refl, there, ⟨_, rfl⟩, .inl room⟩

/-- What `blockFor` finds or makes. -/
structure Found (n bn : Nat) (img img' : Image) (ino : Nat → Dinode) (din : Dinode) (r : Nat × Dinode) :
    Prop where
  base : Base img' (working ino n r.2)
  same : Same n bn img img' (working ino n din) (working ino n r.2)
  here : r.2.blockAt img'.sector bn = r.1
  nonzero : r.1 ≠ 0
  addrs : ∃ addrs, r.2 = { din with addrs := addrs }
  bound : img'.freeblock ≤ FSSIZE ∨ r.1 + 1 = img'.freeblock
  inside : bn < MAXFILE

/-- The end of `blockFor` with the table. -/
theorem listed_found (base : Base img (working ino n din)) (room : img.freeblock ≤ FSSIZE)
    (live : din.type ≠ 0) (there : din.table ≠ 0) (onDisk : din.table < FSSIZE)
    (indirect : ¬bn < NDIRECT) (inside : bn < MAXFILE) :
    Gives (do
      if (img.sector din.table).le (4 * (bn - NDIRECT)) 4 = 0 then
        let b ← nextBlock
        wsect din.table ((img.sector din.table).put (4 * (bn - NDIRECT)) (leBytes b 4))
        return (b, din)
      else
        return ((img.sector din.table).le (4 * (bn - NDIRECT)) 4, din)) img
      fun r img' => Found n bn img img' ino din r := by
  have listed : bn - NDIRECT < NINDIRECT := by
    change bn < 140 at inside
    change bn - 12 < 128
    omega
  have place : Pointer.ofBlock bn = some (.entry ⟨bn - NDIRECT, listed⟩) := by
    simp [Pointer.ofBlock, indirect, listed]
  have entry : ∀ blocks : Nat → Block, din.blockAt blocks bn =
      (blocks din.table).le (4 * (bn - NDIRECT)) 4 := fun blocks => by
    rw [Fs.blockAt_some place, Dinode.place_entry there]
  split
  case isTrue empty =>
    refine .bind nextBlock_gives ?_
    rintro _ _ ⟨rfl, rfl⟩
    refine .updateBind (.pure ?_)
    have used : din.table < img.freeblock := by
      have sound := Fs.table_sound base.allotted (n := n) (by simpa using live) (by simpa using there)
      simpa using sound.2
    have grown : Grown (working ino n din) (working ino n din) img.sector
        (update img.sector din.table ((img.sector din.table).put (4 * (bn - NDIRECT))
          (leBytes img.freeblock 4)))
        (n, .entry ⟨bn - NDIRECT, listed⟩) img.freeblock := by
      refine Fs.grown_entry base.allotted (by simpa using live) (by simpa using there) ?_
        (Nat.lt_irrefl _) (by have := base.high; change _ ≤ 1001 at this; omega) ?_ (by simp)
        (fun c _ _ other => update_of_ne (by simpa using other) _ _)
      · rw [working_self, Dinode.place_entry there]
        exact empty
      · rw [update_of_ne (by omega)]
        exact base.clean _ (Nat.le_refl _)
    have none : placeOf (working ino n din) img.sector (n, .entry ⟨bn - NDIRECT, listed⟩) = 0 := by
      rw [Fs.placeOf_live (by simpa using live), working_self, Dinode.place_entry there]
      exact empty
    have taken := base.take room grown none fun b above => by
      rw [update_of_ne (by omega)]
      exact base.clean b (Nat.le_of_lt above)
    have length : max img.length (din.table + 1) = img.length := by
      rw [base.length]
      exact Nat.max_eq_left onDisk
    have low := Nat.lt_of_lt_of_le (by decide : 0 < nmeta) base.low
    have tableInside := (Fs.table_sound base.allotted (n := n) (by simpa using live)
      (by simpa using there)).1
    rw [working_self] at tableInside
    rw [length]
    refine ⟨taken, ⟨rfl, fun c below => ?_, fun _ => rfl, grown.byte, fun m liveM l other => ?_⟩, ?_,
      Nat.pos_iff_ne_zero.mp low, ⟨_, rfl⟩, .inr rfl, inside⟩
    · exact update_of_ne (by omega) _ _
    · exact blockAt_grown grown (fun _ => rfl) (fun l' isEntry => Pointer.ofBlock_inj isEntry place)
        liveM other
    · rw [entry]
      dsimp only
      rw [update_self]
      exact Block.le_put (by have := base.high; change _ ≤ 1001 at this; omega)
  case isFalse held =>
    exact .pure ⟨base, .refl, entry _, held, ⟨_, rfl⟩, .inl room, inside⟩

theorem blockFor_gives (base : Base img (working ino n din)) (room : img.freeblock ≤ FSSIZE)
    (live : din.type ≠ 0) : Gives (blockFor din bn) img fun r img' => Found n bn img img' ino din r := by
  refine .bind assert_gives ?_
  rintro _ _ ⟨rfl, inside⟩
  split
  case isTrue direct =>
    have place : Pointer.ofBlock bn = some (.addr ⟨bn, Nat.lt_succ_of_lt direct⟩) := by
      simp [Pointer.ofBlock, direct]
    refine .bind (addrAt_gives bn base room live fun l isAddr =>
      Pointer.ofBlock_inj isAddr place) ?_
    rintro din' img' ⟨base', same, nonzero, addrs, bound⟩
    refine .pure ⟨base', same, ?_, nonzero, addrs, bound, inside⟩
    rw [Fs.blockAt_some place]
    rfl
  case isFalse indirect =>
    refine .bind (addrAt_gives bn base room live fun l isTable =>
      absurd isTable Pointer.ofBlock_ne_table) ?_
    rintro din' img' ⟨base', same, nonzero, ⟨addrs, rfl⟩, bound⟩
    refine .bind rsect_gives ?_
    rintro _ _ ⟨rfl, rfl, onDisk⟩
    rw [base'.length] at onDisk
    have room' : img'.freeblock ≤ FSSIZE := by
      rcases bound with bound | bound
      · exact bound
      · omega
    refine (listed_found base' room' (by exact live) nonzero onDisk indirect inside).mono ?_
    rintro r img'' found
    obtain ⟨addrs', here⟩ := found.addrs
    exact ⟨found.base, same.trans found.same, found.here, found.nonzero, ⟨addrs', by rw [here]⟩,
      found.bound, inside⟩

/-! ## Contents -/

/-- The inode has the blocks for the text, and the text is in them. -/
structure Stores (d : Dinode) (blocks : Nat → Block) (text : List Byte) : Prop where
  blockAt : ∀ l, d.blockAt blocks l ≠ 0 ↔ l * BSIZE < text.length
  byte : ∀ j, d.byte blocks j = text.getD j 0

/-- The other inodes keep their blocks and contents, and the disk below the data blocks stays. -/
structure Elsewhere (n : Nat) (ino : Nat → Dinode) (img img' : Image) : Prop where
  freeinode : img'.freeinode = img.freeinode
  fixed : ∀ c, c < nmeta → img'.sector c = img.sector c
  stores : ∀ m text, m ≠ n → (ino m).type ≠ 0 → Stores (ino m) img.sector text →
    Stores (ino m) img'.sector text

theorem Elsewhere.trans (first : Elsewhere n ino img img') (second : Elsewhere n ino img' img'') :
    Elsewhere n ino img img'' where
  freeinode := second.freeinode.trans first.freeinode
  fixed := fun c low => (second.fixed c low).trans (first.fixed c low)
  stores := fun m text other live held => second.stores m text other live (first.stores m text other live held)

/-- The data block that was found is overwritten. -/
theorem Base.write (base : Base img ino) (data : Block) (live : (ino n).type ≠ 0)
    (here : (ino n).blockAt img.sector bn = x) (nonzero : x ≠ 0) (onDisk : x < FSSIZE) :
    Base { img with length := max img.length (x + 1), sector := update img.sector x data } ino ∧
    (∀ m l, (ino m).type ≠ 0 → (ino m).blockAt (update img.sector x data) l =
      (ino m).blockAt img.sector l) ∧
    nmeta ≤ x := by
  have rest : ∀ c, nmeta ≤ c → c ≠ x → update img.sector x data c = img.sector c :=
    fun c _ other => update_of_ne other _ _
  have places := fun m live' q => Fs.write_place (m := m) base.allotted live here nonzero rest live' q
  have blockAt : ∀ m l, (ino m).type ≠ 0 → (ino m).blockAt (update img.sector x data) l =
      (ino m).blockAt img.sector l := by
    intro m l liveM
    unfold Dinode.blockAt
    split
    · rfl
    · exact places m liveM _
  have same : ∀ y, placeOf ino (update img.sector x data) y = placeOf ino img.sector y := by
    intro y
    by_cases free : (ino y.1).type = 0
    · simp [placeOf, free]
    · rw [Fs.placeOf_live free, Fs.placeOf_live free, places _ free]
  -- the block is one that was given out
  obtain ⟨p, place⟩ : ∃ p, Pointer.ofBlock bn = some p := by
    cases place : Pointer.ofBlock bn with
    | none =>
      rw [Dinode.blockAt, place] at here
      exact absurd here.symm nonzero
    | some p => exact ⟨p, rfl⟩
  rw [Fs.blockAt_some place] at here
  have sound := Fs.place_sound base.allotted live (here ▸ nonzero)
  rw [here] at sound
  have length : max img.length (x + 1) = img.length := by
    rw [base.length]
    exact Nat.max_eq_left onDisk
  refine ⟨⟨length.trans base.length, base.low, base.high, fun b above => ?_, ?_, ?_⟩, blockAt, sound.1⟩
  · have other : b ≠ x := by
      rintro rfl
      exact Nat.lt_irrefl _ (Nat.lt_of_lt_of_le sound.2 above)
    dsimp only
    rw [update_of_ne other]
    exact base.clean b above
  · exact base.allotted.congr same fun _ _ => Iff.rfl
  · exact base.exact.congr same fun _ _ => Iff.rfl

/-- The byte at `j` after the chunk was put at the end of the text. -/
theorem getD_put_chunk {data : Block} {j : Nat} (same : j / BSIZE = t.length / BSIZE)
    (was : data (j % BSIZE) = t.getD j 0) :
    data.put (t.length % BSIZE) (more.take (chunk t.length more.length)) (j % BSIZE) =
      (t ++ more.take (chunk t.length more.length)).getD j 0 := by
  have cut : j % BSIZE + t.length = t.length % BSIZE + j := by
    change j % 512 + t.length = t.length % 512 + j
    change j / 512 = t.length / 512 at same
    omega
  rcases Nat.lt_or_ge (j % BSIZE) (t.length % BSIZE) with below | above
  · rw [Block.put_below below, was, getD_append _ _ _ _ (by omega)]
  · rw [getD_append_right _ _ _ _ (by omega)]
    obtain ⟨i, rfl⟩ : ∃ i, j = t.length + i := ⟨j - t.length, by omega⟩
    have offset : (t.length + i) % BSIZE = t.length % BSIZE + i := by omega
    rw [offset] at was ⊢
    rw [Nat.add_sub_cancel_left]
    by_cases inside : i < (more.take (chunk t.length more.length)).length
    · rw [Block.put_add inside, getD_eq_getElem _ _ inside]
    · have past : t.length ≤ t.length + i := Nat.le_add_right _ _
      rw [Block.put_above (by omega), was, getD_eq_default _ _ past,
        getD_eq_default _ _ (by omega)]

/-- One round of the loop, from the block on. -/
theorem Stores.extend (stores : Stores din img.sector t) (live : din.type ≠ 0)
    (found : Found n (t.length / BSIZE) img img' ino din (x, din')) (onDisk : x < FSSIZE)
    (nonempty : more ≠ []) :
    Stores din' (update img'.sector x ((img'.sector x).put (t.length % BSIZE)
      (more.take (chunk t.length more.length)))) (t ++ more.take (chunk t.length more.length)) := by
  obtain ⟨addrs, shape⟩ := found.addrs
  have live' : (working ino n din' n).type ≠ 0 := by
    rw [working_self]
    change din' = _ at shape
    rw [shape]
    exact live
  have hereN : (working ino n din' n).blockAt img'.sector (t.length / BSIZE) = x := by
    rw [working_self]
    exact found.here
  have wrote := found.base.write ((img'.sector x).put (t.length % BSIZE)
    (more.take (chunk t.length more.length))) live' hereN found.nonzero onDisk
  have rest : ∀ c, nmeta ≤ c → c ≠ x → update img'.sector x ((img'.sector x).put
      (t.length % BSIZE) (more.take (chunk t.length more.length))) c = img'.sector c :=
    fun c _ other => update_of_ne other _ _
  have someMore := length_pos_iff.mpr nonempty
  have pos : 0 < chunk t.length more.length := Fs.chunk_pos (Nat.pos_iff_ne_zero.mp someMore)
  have length : (t ++ more.take (chunk t.length more.length)).length =
      t.length + chunk t.length more.length := by
    rw [length_append, Fs.length_take_chunk]
  refine ⟨fun l => ?_, fun j => ?_⟩
  · have now := wrote.2.1 n l live'
    rw [working_self] at now
    rw [now, length]
    by_cases here : l = t.length / BSIZE
    · have there : din'.blockAt img'.sector l ≠ 0 := by
        rw [here, found.here]
        exact found.nonzero
      refine ⟨fun _ => ?_, fun _ => there⟩
      change l = t.length / 512 at here
      change l * 512 < _
      omega
    · have same := found.same.blockAt n (by rw [working_self]; exact live) l (.inr here)
      rw [working_self, working_self] at same
      rw [same, stores.blockAt]
      have inBlock := Fs.chunk_inside t.length more.length
      change t.length % 512 + _ ≤ 512 at inBlock
      change ¬l = t.length / 512 at here
      change l * 512 < t.length ↔ l * 512 < _
      omega
  · have now := Fs.write_byte found.base.allotted live' hereN found.nonzero rest live' j
    have before := found.same.byte n (by rw [working_self]; exact live) j
    rw [working_self, working_self] at before
    rw [working_self, before, stores.byte] at now
    rw [now]
    by_cases inBlock : j / BSIZE = t.length / BSIZE
    · rw [if_pos ⟨rfl, inBlock⟩, update_self]
      refine getD_put_chunk inBlock ?_
      rw [← stores.byte, ← before, Dinode.byte, inBlock]
      have there : din'.blockAt img'.sector (t.length / BSIZE) = x := found.here
      rw [there, if_neg found.nonzero]
    · rw [if_neg fun both => inBlock both.2]
      have inside := Fs.chunk_inside t.length more.length
      change t.length % 512 + _ ≤ 512 at inside
      change ¬j / 512 = t.length / 512 at inBlock
      by_cases early : j < t.length
      · rw [getD_append _ _ _ _ early]
      · rw [getD_eq_default _ _ (by omega), getD_eq_default]
        rw [length]
        omega

/-- ... for the other inodes. -/
theorem Found.elsewhere (found : Found n bn img img' ino din (x, din')) (data : Block)
    (live : din.type ≠ 0) (onDisk : x < FSSIZE) :
    Elsewhere n ino img
      { img' with length := max img'.length (x + 1), sector := update img'.sector x data } := by
  obtain ⟨addrs, shape⟩ := found.addrs
  have live' : (working ino n din' n).type ≠ 0 := by
    rw [working_self]
    change din' = _ at shape
    rw [shape]
    exact live
  have hereN : (working ino n din' n).blockAt img'.sector bn = x := by
    rw [working_self]
    exact found.here
  have wrote := found.base.write data live' hereN found.nonzero onDisk
  have rest : ∀ c, nmeta ≤ c → c ≠ x → update img'.sector x data c = img'.sector c :=
    fun c _ other => update_of_ne other _ _
  refine ⟨found.same.freeinode, fun c low => ?_, fun m text other liveM held => ⟨fun l => ?_, fun j => ?_⟩⟩
  · dsimp only
    rw [update_of_ne (by omega)]
    exact found.same.fixed c low
  · have liveW : (working ino n din m).type ≠ 0 := by rw [working_other other]; exact liveM
    have liveW' : (working ino n din' m).type ≠ 0 := by rw [working_other other]; exact liveM
    have now := wrote.2.1 m l liveW'
    have same := found.same.blockAt m liveW l (.inl other)
    rw [working_other other] at now
    rw [working_other other, working_other other] at same
    rw [now, same, held.blockAt]
  · have liveW : (working ino n din m).type ≠ 0 := by rw [working_other other]; exact liveM
    have liveW' : (working ino n din' m).type ≠ 0 := by rw [working_other other]; exact liveM
    have now := Fs.write_byte found.base.allotted live' hereN found.nonzero rest liveW' j
    have same := found.same.byte m liveW j
    rw [if_neg fun both => other both.1] at now
    rw [working_other other] at now
    rw [working_other other, working_other other] at same
    rw [now, same, held.byte]

/-- The loop of `iappend` puts all of the text behind what is there. -/
theorem iappendLoop_gives (din : Dinode) (off : Nat) (more : List Byte) (atEnd : off = t.length)
    (base : Base img (working ino n din)) (room : img.freeblock ≤ FSSIZE) (live : din.type ≠ 0)
    (stores : Stores din img.sector t) :
    Gives (iappendLoop din off more) img fun r img' =>
      Base img' (working ino n r.1) ∧ img'.freeblock ≤ FSSIZE ∧
      Stores r.1 img'.sector (t ++ more) ∧ r.2 = (t ++ more).length ∧
      (∃ addrs, r.1 = { din with addrs := addrs }) ∧ Elsewhere n ino img img' := by
  fun_induction iappendLoop din off more generalizing img t with
  | case1 din off more nonempty ih =>
    subst atEnd
    refine .bind (blockFor_gives base room live) ?_
    rintro ⟨x, din'⟩ img₁ found
    refine .bind rsect_gives ?_
    rintro _ _ ⟨rfl, rfl, onDisk⟩
    rw [found.base.length] at onDisk
    have extended := stores.extend live found onDisk nonempty
    have elsewhere := found.elsewhere ((img₁.sector x).put (t.length % BSIZE)
      (more.take (chunk t.length more.length))) live onDisk
    obtain ⟨addrs, shape⟩ := found.addrs
    change din' = _ at shape
    have live' : din'.type ≠ 0 := by rw [shape]; exact live
    have wrote := found.base.write (n := n) ((img₁.sector x).put (t.length % BSIZE)
      (more.take (chunk t.length more.length))) (by rw [working_self]; exact live')
      (by rw [working_self]; exact found.here) found.nonzero onDisk
    have room' : img₁.freeblock ≤ FSSIZE := by
      rcases found.bound with bound | bound
      · exact bound
      · omega
    have length : t.length + chunk t.length more.length =
        (t ++ more.take (chunk t.length more.length)).length := by
      rw [length_append, Fs.length_take_chunk]
    refine .updateBind ((ih din' length wrote.1 room' live' extended).mono ?_)
    rintro r img₂ ⟨base₂, room₂, stores₂, end₂, ⟨addrs₂, shape₂⟩, elsewhere₂⟩
    rw [append_assoc, take_append_drop] at stores₂ end₂
    exact ⟨base₂, room₂, stores₂, end₂, ⟨addrs₂, by rw [shape₂, shape]⟩, elsewhere.trans elsewhere₂⟩
  | case2 din off more done =>
    have none : more = [] := by simpa using done
    subst none
    refine .pure ⟨base, room, ?_, ?_, ⟨_, rfl⟩, ⟨rfl, fun _ _ => rfl, fun _ _ _ _ held => held⟩⟩
    · rw [append_nil]
      exact stores
    · rw [append_nil]
      exact atEnd

end Blocks

end Xv6.Mkfs
