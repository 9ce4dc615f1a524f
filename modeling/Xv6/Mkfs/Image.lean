/-
# Xv6.Mkfs.Image -- mkfs.c

The program that makes the first image of the disk. Its state is the image file, as far as it has been
written, and the two counters from which inode and block numbers are taken. It ends by an assertion
or an error message, or it has made the image.

A host file is what the `read`s of the program return, one after the other, up to the one that returns
nothing; a file that cannot be opened is `none`. Writing to the image file does not fail, and beyond
its end it makes it longer; reading there fails. The bytes of a word are written from the lowest on
(`xshort`, `xint`).
-/
import Xv6.Fs.Path

namespace Xv6.Mkfs
open Fs (Byte Block Dinode Superblock FSSIZE BSIZE LOGSIZE IPB NDIRECT NINDIRECT MAXFILE DIRSIZ ROOTINO
  T_DIR T_FILE leBytes strncpy chunk chunk_pos iblock inodeOff sizeofDirent)
set_option autoImplicit false

/-! ## Layout -/

abbrev NINODES : Nat := 200

abbrev nbitmap : Nat := FSSIZE / (BSIZE * 8) + 1
abbrev ninodeblocks : Nat := NINODES / IPB + 1
abbrev nlog : Nat := LOGSIZE
/-- The number of blocks for boot, superblock, log, inodes and bitmap. -/
abbrev nmeta : Nat := 2 + nlog + ninodeblocks + nbitmap
abbrev nblocks : Nat := FSSIZE - nmeta

def sb : Superblock where
  size := FSSIZE
  nblocks := nblocks
  ninodes := NINODES
  nlog := nlog
  logstart := 2
  inodestart := 2 + nlog
  bmapstart := 2 + nlog + ninodeblocks

/-- `struct superblock` in its block -/
def encodeSb (sb : Superblock) : List Byte :=
  [sb.size, sb.nblocks, sb.ninodes, sb.nlog, sb.logstart, sb.inodestart, sb.bmapstart].flatMap
    fun x => leBytes x 4

/-! ## State -/

structure Image where
  /-- the length of the file, in sectors -/
  length : Nat
  sector : Nat → Block
  freeinode : Nat
  freeblock : Nat

/-- How the program ends before it is done. -/
inductive Stop where
  | assert (text : String)
  | perror (text : String)
  deriving DecidableEq, Repr

abbrev MkM := StateT Image (Except Stop)

def stop {α : Type} (reason : Stop) : MkM α := fun _ => .error reason

def assert (c : Prop) [Decidable c] (text : String) : MkM Unit :=
  if c then pure () else stop (.assert text)

/-- An argument: the name and what its `read`s return. -/
structure Arg where
  name : List Byte
  reads : Option (List (List Byte))
  deriving DecidableEq, Repr

/-! ## Sectors and inodes -/

def wsect (sec : Nat) (buf : Block) : MkM Unit :=
  modify fun img => { img with
    length := max img.length (sec + 1), sector := Function.update img.sector sec buf }

def rsect (sec : Nat) : MkM Block := do
  let img ← get
  if sec < img.length then return img.sector sec else stop (.perror "read")

def winode (inum : Nat) (ip : Dinode) : MkM Unit := do
  let buf ← rsect (iblock sb inum)
  wsect (iblock sb inum) (buf.put (inodeOff inum) ip.encode)

def rinode (inum : Nat) : MkM Dinode := do
  let buf ← rsect (iblock sb inum)
  return Dinode.decode buf (inodeOff inum)

def ialloc (type : Nat) : MkM Nat := do
  let img ← get
  let inum := img.freeinode
  modify fun img => { img with freeinode := inum + 1 }
  winode inum { Dinode.free with type := type, nlink := 1 }
  return inum

/-- `freeblock++` -/
def nextBlock : MkM Nat := do
  let img ← get
  modify fun img => { img with freeblock := img.freeblock + 1 }
  return img.freeblock

/-- The bitmap with the first `used` bits set. -/
def bitmap : Nat → Block
  | 0 => fun _ => 0
  | i + 1 => Function.update (bitmap i) (i / 8) (bitmap i (i / 8) ||| Fs.bitMask i)

def balloc (used : Nat) : MkM Unit := do
  assert (used < BSIZE * 8) "used < BSIZE * 8"
  wsect sb.bmapstart (bitmap used)

/-! ## Contents -/

/-- The address at place `k` of the inode, given out if there is none. -/
def addrAt (din : Dinode) (k : Fin (NDIRECT + 1)) : MkM Dinode := do
  if din.addrs k = 0 then
    let b ← nextBlock
    return { din with addrs := Function.update din.addrs k b }
  else
    return din

/-- The block `x` for block `fbn` of the file, and the inode with it. -/
def blockFor (din : Dinode) (fbn : Nat) : MkM (Nat × Dinode) := do
  assert (fbn < MAXFILE) "fbn < MAXFILE"
  if direct : fbn < NDIRECT then
    let din ← addrAt din ⟨fbn, Nat.lt_succ_of_lt direct⟩
    return (din.addrs ⟨fbn, Nat.lt_succ_of_lt direct⟩, din)
  else
    let din ← addrAt din (Fin.last NDIRECT)
    let indirect ← rsect (din.addrs (Fin.last NDIRECT))
    if indirect.le (4 * (fbn - NDIRECT)) 4 = 0 then
      let b ← nextBlock
      wsect (din.addrs (Fin.last NDIRECT)) (indirect.put (4 * (fbn - NDIRECT)) (leBytes b 4))
      return (b, din)
    else
      return (indirect.le (4 * (fbn - NDIRECT)) 4, din)

/-- The loop of `iappend`: the inode and its offset at the end. -/
def iappendLoop (din : Dinode) (off : Nat) (text : List Byte) : MkM (Dinode × Nat) := do
  if _more : text ≠ [] then
    let (x, din) ← blockFor din (off / BSIZE)
    let n1 := chunk off text.length
    let buf ← rsect x
    wsect x (buf.put (off % BSIZE) (text.take n1))
    iappendLoop din (off + n1) (text.drop n1)
  else
    return (din, off)
termination_by text.length
decreasing_by
  rw [List.length_drop]
  have more := List.length_pos_iff.mpr ‹text ≠ []›
  exact Nat.sub_lt more (chunk_pos (Nat.pos_iff_ne_zero.mp more))

def iappend (inum : Nat) (text : List Byte) : MkM Unit := do
  let din ← rinode inum
  let (din, off) ← iappendLoop din din.size text
  winode inum { din with size := off }

/-! ## The program -/

/-- `struct dirent` -/
def dirent (inum : Nat) (name : List Byte) : List Byte := leBytes inum 2 ++ strncpy name DIRSIZ

/-- The image is filled with zeros. -/
def clear : List Nat → MkM Unit
  | [] => pure ()
  | i :: rest => do
    wsect i fun _ => 0
    clear rest

/-- The contents of a file, read by read. -/
def appendReads (inum : Nat) : List (List Byte) → MkM Unit
  | [] => pure ()
  | cc :: rest => do
    iappend inum cc
    appendReads inum rest

/-- The underscore. -/
def underscore : Byte := 95

/-- A leading underscore is dropped. -/
def Arg.fsName (arg : Arg) : List Byte :=
  if arg.name.head? = some underscore then arg.name.tail else arg.name

/-- The loop over the arguments. -/
def addFiles (rootino : Nat) : List Arg → MkM Unit
  | [] => pure ()
  | arg :: rest => do
    assert (Fs.slash ∉ arg.name) "index(argv[i], '/') == 0"
    match arg.reads with
    | none => stop (.perror "open")
    | some reads =>
      let inum ← ialloc T_FILE
      iappend rootino (dirent inum arg.fsName)
      appendReads inum reads
      addFiles rootino rest

/-- The size of the root directory is rounded up to a full block. -/
def fixRoot (rootino : Nat) : MkM Unit := do
  let din ← rinode rootino
  winode rootino { din with size := (din.size / BSIZE + 1) * BSIZE }

/-- `main` once the image file is open, which is empty then. -/
def main (args : List Arg) : MkM Unit := do
  clear (List.range FSSIZE)
  wsect 1 (Block.put (fun _ => 0) 0 (encodeSb sb))
  let rootino ← ialloc T_DIR
  assert (rootino = ROOTINO) "rootino == ROOTINO"
  iappend rootino (dirent rootino [46])
  iappend rootino (dirent rootino [46, 46])
  addFiles rootino args
  fixRoot rootino
  let img ← get
  balloc img.freeblock

def emptyFile : Image := ⟨0, fun _ _ => 0, 1, nmeta⟩

/-- The image for these arguments. -/
def mkfs (args : List Arg) : Except Stop Image :=
  match main args emptyFile with
  | .ok (_, img) => .ok img
  | .error reason => .error reason

end Xv6.Mkfs
