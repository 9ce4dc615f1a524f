/-
# Xv6.Fs.Dinodes -- inodes in their blocks

An inode written to its place is read back (`Dinode.decode_put`), and the other inodes of the block
stay as they are (`Dinode.decode_put_other`). `diskInode` is the inode with a given number on the disk,
`diskInode_store` what storing one does to all of them.
-/
import Xv6.Fs.Bytes
import Xv6.Fs.Inode

namespace Xv6.Fs
set_option autoImplicit false

open List

/-- The fields fit into the words that they are written to. -/
structure Dinode.Fits (d : Dinode) : Prop where
  type : d.type < 2 ^ 16
  major : d.major < 2 ^ 16
  minor : d.minor < 2 ^ 16
  nlink : d.nlink < 2 ^ 16
  size : d.size < 2 ^ 32
  addrs : ∀ k, d.addrs k < 2 ^ 32

theorem Dinode.decode_fits (data : Block) (off : Nat) : (Dinode.decode data off).Fits where
  type := data.le_lt off 2
  major := data.le_lt (off + 2) 2
  minor := data.le_lt (off + 4) 2
  nlink := data.le_lt (off + 6) 2
  size := data.le_lt (off + 8) 4
  addrs := fun k => data.le_lt (off + 12 + 4 * k) 4

/-- The record up to the addresses. -/
def Dinode.header (d : Dinode) : List Byte :=
  leBytes d.type 2 ++ leBytes d.major 2 ++ leBytes d.minor 2 ++ leBytes d.nlink 2 ++ leBytes d.size 4

theorem Dinode.encode_eq (d : Dinode) :
    d.encode = d.header ++ ((finRange (NDIRECT + 1)).map d.addrs).flatMap fun x => leBytes x 4 := by
  rfl

@[simp] theorem Dinode.header_length (d : Dinode) : d.header.length = 12 := by
  simp [Dinode.header]

@[simp] theorem Dinode.encode_length (d : Dinode) : d.encode.length = sizeofDinode := by
  rfl

variable {d : Dinode} {blocks blocks' : Nat → Block}

theorem Dinode.decode_put (fits : d.Fits) (data : Block) (off : Nat) :
    Dinode.decode (data.put off d.encode) off = d := by
  have field : ∀ before after x n, d.encode = before ++ leBytes x n ++ after → x < 256 ^ n →
      (data.put off d.encode).le (off + before.length) n = x :=
    fun before after _ _ is small => Block.le_put_field before after is small
  have type := field [] (leBytes d.major 2 ++ (leBytes d.minor 2 ++ (leBytes d.nlink 2 ++
    (leBytes d.size 4 ++ (finRange (NDIRECT + 1)).flatMap fun i => leBytes (d.addrs i) 4))))
    d.type 2 (by simp only [Dinode.encode, append_assoc, nil_append]) fits.type
  have major := field (leBytes d.type 2) (leBytes d.minor 2 ++ (leBytes d.nlink 2 ++
    (leBytes d.size 4 ++ (finRange (NDIRECT + 1)).flatMap fun i => leBytes (d.addrs i) 4)))
    d.major 2 (by simp only [Dinode.encode, append_assoc]) fits.major
  have minor := field (leBytes d.type 2 ++ leBytes d.major 2) (leBytes d.nlink 2 ++
    (leBytes d.size 4 ++ (finRange (NDIRECT + 1)).flatMap fun i => leBytes (d.addrs i) 4))
    d.minor 2 (by simp only [Dinode.encode, append_assoc]) fits.minor
  have nlink := field (leBytes d.type 2 ++ leBytes d.major 2 ++ leBytes d.minor 2)
    (leBytes d.size 4 ++ (finRange (NDIRECT + 1)).flatMap fun i => leBytes (d.addrs i) 4)
    d.nlink 2 (by simp only [Dinode.encode, append_assoc]) fits.nlink
  have size := field (leBytes d.type 2 ++ leBytes d.major 2 ++ leBytes d.minor 2 ++ leBytes d.nlink 2)
    ((finRange (NDIRECT + 1)).flatMap fun i => leBytes (d.addrs i) 4)
    d.size 4 (by simp only [Dinode.encode]) fits.size
  have addr : ∀ k : Fin (NDIRECT + 1), (data.put off d.encode).le (off + 12 + 4 * k) 4 = d.addrs k := by
    intro k
    have small : ∀ x ∈ (finRange (NDIRECT + 1)).map d.addrs, x < 256 ^ 4 := by
      intro x inside
      obtain ⟨l, -, rfl⟩ := mem_map.mp inside
      exact fits.addrs l
    have read := Block.le_put_words data off d.header small (i := k) (by
      rw [length_map, length_finRange]
      exact k.isLt)
    rw [← Dinode.encode_eq, Dinode.header_length, ← Nat.add_assoc] at read
    simpa using read
  simp only [length_append, leBytes_length, length_nil, Nat.add_zero] at type major minor nlink size
  unfold Dinode.decode
  simp only [type, major, minor, nlink, size, addr]

/-- What is written elsewhere in the block. -/
theorem Dinode.decode_put_other {data : Block} {off off' : Nat} {text : List Byte}
    (apart : off' + sizeofDinode ≤ off ∨ off + text.length ≤ off') :
    Dinode.decode (data.put off text) off' = Dinode.decode data off' := by
  have field : ∀ i n, i + n ≤ sizeofDinode →
      (data.put off text).le (off' + i) n = data.le (off' + i) n := by
    intro i n inside
    rcases apart with below | above
    · exact Block.le_put_below (by omega)
    · exact Block.le_put_above (by omega)
  have addr : ∀ k : Fin (NDIRECT + 1), (data.put off text).le (off' + 12 + 4 * k) 4 =
      data.le (off' + 12 + 4 * k) 4 := by
    intro k
    rw [Nat.add_assoc]
    have small : (k : Nat) < 13 := k.isLt
    have inside : 12 + 4 * (k : Nat) + 4 ≤ 64 := by omega
    exact field _ 4 inside
  have type := field 0 2 (by decide)
  rw [Nat.add_zero] at type
  unfold Dinode.decode
  rw [type, field 2 2 (by decide), field 4 2 (by decide), field 6 2 (by decide), field 8 4 (by decide)]
  simp only [addr]

theorem Dinode.decode_zero (off : Nat) : Dinode.decode (fun _ => 0) off = Dinode.free := by
  simp [Dinode.decode, Dinode.free, Block.le_zero]

/-! ## On the disk -/

def diskInode (sb : Superblock) (blocks : Nat → Block) (inum : Nat) : Dinode :=
  Dinode.decode (blocks (iblock sb inum)) (inodeOff inum)

variable {inum : Nat}

theorem diskInode_congr {sb : Superblock}
    (same : blocks' (iblock sb inum) = blocks (iblock sb inum)) :
    diskInode sb blocks' inum = diskInode sb blocks inum := by
  unfold diskInode
  rw [same]

/-- The inodes of the first `n` numbers have blocks of their own numbers. -/
theorem iblock_eq {sb : Superblock} (small : inum / IPB + sb.inodestart < 2 ^ 32) :
    iblock sb inum = inum / IPB + sb.inodestart := Nat.mod_eq_of_lt small

/-- One inode is stored: the others stay. -/
theorem diskInode_store {sb : Superblock} {m : Nat}
    (smallInum : inum / IPB + sb.inodestart < 2 ^ 32) (smallM : m / IPB + sb.inodestart < 2 ^ 32)
    (fits : d.Fits)
    (stored : blocks' (iblock sb inum) = (blocks (iblock sb inum)).put (inodeOff inum) d.encode)
    (rest : iblock sb m ≠ iblock sb inum → blocks' (iblock sb m) = blocks (iblock sb m)) :
    diskInode sb blocks' m = if m = inum then d else diskInode sb blocks m := by
  by_cases same : m = inum
  · rw [if_pos same, same, diskInode, stored]
    exact Dinode.decode_put fits _ _
  · rw [if_neg same]
    by_cases block : iblock sb m = iblock sb inum
    · unfold diskInode
      rw [block, stored]
      apply Dinode.decode_put_other
      rw [iblock_eq smallInum, iblock_eq smallM] at block
      have apart : m % IPB ≠ inum % IPB := by
        intro equal
        change m / 8 + sb.inodestart = inum / 8 + sb.inodestart at block
        change m % 8 = inum % 8 at equal
        omega
      change m % 8 * 64 + 64 ≤ inum % 8 * 64 ∨ inum % 8 * 64 + 64 ≤ m % 8 * 64
      change m % 8 ≠ inum % 8 at apart
      omega
    · exact diskInode_congr (rest block)

end Xv6.Fs
