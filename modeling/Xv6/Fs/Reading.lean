/-
# Xv6.Fs.Reading -- reading what is there

Where the blocks of an inode are there, `readi` finds the contents (`Dinode.byte`) and changes nothing:
`bmap` allocates only for a block that is not there. The lemmas hold for any set of `bad` faults,
as long as reading the blocks of the inode does not end in one (`ReadOk`); with no bad faults they
say what is read if the call returns, with all of them bad that it does.
-/
import Xv6.Lib.Ensures
import Xv6.Fs.Places
import Xv6.Fs.Path

namespace Xv6.Fs
open Lib
set_option autoImplicit false

@[simp] theorem setInode_self (s : State) (i : Slot) (ip : Inode) : (s.setInode i ip).icache i = ip := by
  simp [State.setInode]

/-! ## Blocks -/

/-- Reading block `b` ends in no bad fault. -/
def ReadOk (bad : Fault → Prop) (s : State) (b : Nat) : Prop :=
  ∀ fault, bad fault → bread b s ≠ .error fault

section Blocks

variable {bad : Fault → Prop} {s : State} {b : Nat}

theorem bread_run {s' : State} {data : Block} (ran : bread b s = .ok (data, s')) :
    data = s.blocks b ∧ s' = { s with held := b :: s.held } := by
  change (if b ∈ s.held then _ else _ : FsM Block) s = _ at ran
  split at ran
  · cases ran
  · split at ran
    · cases ran
      exact ⟨rfl, rfl⟩
    · split at ran
      · cases ran
      · split at ran
        · cases ran
        · cases ran
          exact ⟨rfl, rfl⟩

theorem bread_reads (ok : ReadOk bad s b) : Ensures bad (bread b) s fun data s' =>
    data = s.blocks b ∧ s' = { s with held := b :: s.held } := by
  unfold Ensures
  cases ran : bread b s with
  | error fault => exact fun isBad => ok fault isBad ran
  | ok result => exact bread_run ran

theorem panicIf_then {α : Type} {c : Prop} [Decidable c] {text : Panic} {g : Unit → FsM α}
    {Q : α → State → Prop} (fine : ¬c) (rest : Ensures bad (g ()) s Q) :
    Ensures bad (Fs.panicIf c text >>= g) s Q := by
  unfold Fs.panicIf
  rw [if_neg fine]
  exact rest

/-- In a state without locked and without dirty buffers every block of the disk can be read. -/
theorem readOk_of_quiet (held : s.held = []) (dirty : s.dirty = []) (inside : b < FSSIZE) :
    ReadOk bad s b := by
  intro fault _ failed
  have free : s.freeBuffer = true := by simp [State.freeBuffer, held, dirty]
  change (if b ∈ s.held then _ else if b ∈ s.dirty then _ else if !s.freeBuffer then _
    else if FSSIZE ≤ b then _ else _ : FsM Block) s = _ at failed
  rw [if_neg (by simp [held]), if_neg (by simp [dirty]), if_neg (by simp [free]),
    if_neg (Nat.not_le.mpr inside)] at failed
  cases failed

/-- A buffer that was read is released. -/
theorem brelse_then {α : Type} {g : Unit → FsM α} {Q : α → State → Prop}
    (rest : Ensures bad (g ()) s Q) : Ensures bad (brelse b >>= g) { s with held := b :: s.held } Q := by
  refine .updateBind ?_
  rw [List.erase_cons_head]
  exact rest

end Blocks

/-! ## Contents -/

section Contents

variable {bad : Fault → Prop} {s : State} {i : Slot}

/-- The blocks of the inode can be read. -/
def Readable (bad : Fault → Prop) (s : State) (d : Dinode) : Prop :=
  ∀ p, d.place s.blocks p ≠ 0 → ReadOk bad s (d.place s.blocks p)

theorem Readable.blockAt {d : Dinode} {bn : Nat} (readable : Readable bad s d)
    (there : d.blockAt s.blocks bn ≠ 0) : ReadOk bad s (d.blockAt s.blocks bn) := by
  cases here : Pointer.ofBlock bn with
  | none => simp [Dinode.blockAt, here] at there
  | some p =>
    rw [blockAt_some here] at there ⊢
    exact readable p there

theorem bmapAt_there {k : Fin (NDIRECT + 1)} (there : (s.disk i).addrs k ≠ 0) :
    Ensures bad (bmapAt i k) s fun b s' => s = s' ∧ b = (s.disk i).addrs k := by
  refine .getBind ?_
  rw [if_neg there]
  exact .pure ⟨rfl, rfl⟩

/-- A block that is there is found. -/
theorem bmap_there {bn : Nat} (readable : Readable bad s (s.disk i))
    (there : (s.disk i).blockAt s.blocks bn ≠ 0) :
    Ensures bad (bmap i bn) s fun b s' => s = s' ∧ b = (s.disk i).blockAt s.blocks bn := by
  unfold bmap
  by_cases direct : bn < NDIRECT
  · have here : Pointer.ofBlock bn = some (.addr ⟨bn, Nat.lt_succ_of_lt direct⟩) := dif_pos direct
    rw [blockAt_some here] at there ⊢
    rw [dif_pos direct]
    exact bmapAt_there there
  · by_cases listed : bn - NDIRECT < NINDIRECT
    · have here : Pointer.ofBlock bn = some (.entry ⟨bn - NDIRECT, listed⟩) := by
        rw [Pointer.ofBlock, dif_neg direct, dif_pos listed]
      rw [blockAt_some here] at there ⊢
      have table : (s.disk i).table ≠ 0 := fun absent => there (Dinode.place_entry_zero absent)
      rw [Dinode.place_entry table] at there ⊢
      rw [dif_neg direct, if_pos listed]
      refine .bind (bmapAt_there table) ?_
      rintro _ _ ⟨rfl, rfl⟩
      refine .bind (bread_reads (readable (.addr (Fin.last NDIRECT)) table)) ?_
      rintro _ _ ⟨rfl, rfl⟩
      have found : (s.blocks ((s.disk i).addrs (Fin.last NDIRECT))).le (4 * (bn - NDIRECT)) 4 ≠ 0 := there
      rw [if_neg found]
      exact brelse_then (.pure ⟨rfl, rfl⟩)
    · have here : Pointer.ofBlock bn = none := by
        rw [Pointer.ofBlock, dif_neg direct, dif_neg listed]
      simp [Dinode.blockAt, here] at there

/-- `n` bytes of the contents from `off` on. -/
def Dinode.text (d : Dinode) (blocks : Nat → Block) (off n : Nat) : List Byte :=
  (List.range n).map fun j => d.byte blocks (off + j)

variable (d : Dinode)

@[simp] theorem Dinode.text_length (blocks : Nat → Block) (off n : Nat) :
    (d.text blocks off n).length = n := by
  simp [Dinode.text]

theorem Dinode.text_append (blocks : Nat → Block) (off m n : Nat) :
    d.text blocks off m ++ d.text blocks (off + m) n = d.text blocks off (m + n) := by
  simp [Dinode.text, List.range_add, Function.comp_def, Nat.add_assoc]

theorem Dinode.text_drop (blocks : Nat → Block) (off m n : Nat) :
    (d.text blocks off (m + n)).drop m = d.text blocks (off + m) n := by
  rw [← Dinode.text_append, List.drop_left' (d.text_length blocks off m)]

variable {n : Nat}

theorem Dinode.text_getD (blocks : Nat → Block) {off j : Nat} (below : j < n) :
    (d.text blocks off n).getD j 0 = d.byte blocks (off + j) := by
  simp [Dinode.text, List.getD_eq_getElem?_getD, below]

/-- Inside one block the contents are a slice of it. -/
theorem Dinode.slice_eq_text {d : Dinode} {blocks : Nat → Block} {off : Nat}
    (there : d.blockAt blocks (off / BSIZE) ≠ 0) (inside : off % BSIZE + n ≤ BSIZE) :
    (blocks (d.blockAt blocks (off / BSIZE))).slice (off % BSIZE) n = d.text blocks off n := by
  refine List.map_congr_left fun j member => ?_
  have below : j < n := List.mem_range.mp member
  have block : (off + j) / BSIZE = off / BSIZE := by
    change (off + j) / 512 = off / 512
    change off % 512 + n ≤ 512 at inside
    omega
  have place : (off + j) % BSIZE = off % BSIZE + j := by
    change (off + j) % 512 = off % 512 + j
    change off % 512 + n ≤ 512 at inside
    omega
  rw [Dinode.byte, block, if_neg there, place]

theorem readLoop_there (off n : Nat) (readable : Readable bad s (s.disk i))
    (there : ∀ j < n, (s.disk i).blockAt s.blocks ((off + j) / BSIZE) ≠ 0) :
    Ensures bad (readLoop i off n) s fun text s' => s = s' ∧ text = (s.disk i).text s.blocks off n := by
  induction off, n using readLoop.induct with
  | case1 off n more ih =>
    have first : (s.disk i).blockAt s.blocks (off / BSIZE) ≠ 0 := there 0 (Nat.pos_of_ne_zero more)
    unfold readLoop
    rw [dif_pos more]
    refine .bind (bmap_there readable first) ?_
    rintro _ _ ⟨rfl, rfl⟩
    refine .bind (bread_reads (readable.blockAt first)) ?_
    rintro _ _ ⟨rfl, rfl⟩
    refine brelse_then ?_
    have later : ∀ j < n - chunk off n,
        (s.disk i).blockAt s.blocks ((off + chunk off n + j) / BSIZE) ≠ 0 := by
      intro j below
      rw [Nat.add_assoc]
      exact there _ (by omega)
    refine .bind (ih later) ?_
    rintro _ _ ⟨rfl, rfl⟩
    refine .pure ⟨rfl, ?_⟩
    rw [Dinode.slice_eq_text first (chunk_inside off n), Dinode.text_append,
      Nat.add_sub_cancel' (chunk_le off n)]
  | case2 off n done =>
    unfold readLoop
    rw [dif_neg done]
    refine .pure ⟨rfl, ?_⟩
    rw [not_not.mp done]
    rfl

/-- Of `n` bytes from `off` on those below the size are read. -/
theorem readi_there {off : Nat} (readable : Readable bad s (s.disk i))
    (notDev : (s.disk i).type ≠ T_DEV) (below : off ≤ (s.disk i).size) (small : off + n < 2 ^ 32)
    (there : ∀ j < min n ((s.disk i).size - off), (s.disk i).blockAt s.blocks ((off + j) / BSIZE) ≠ 0)
    :
    Ensures bad (readi i off n) s fun read s' => s = s' ∧
      read = some ((s.disk i).text s.blocks off (min n ((s.disk i).size - off))) := by
  refine .getBind ?_
  have fits : ¬((s.disk i).size < off ∨ u32 (off + n) < off) := by
    unfold u32
    omega
  rw [if_neg notDev, if_neg fits]
  refine .bind (readLoop_there off _ readable there) ?_
  rintro _ _ ⟨rfl, rfl⟩
  exact .pure ⟨rfl, rfl⟩

end Contents

end Xv6.Fs
