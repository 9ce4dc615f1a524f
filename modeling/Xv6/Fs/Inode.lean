/-
# Xv6.Fs.Inode -- fs.c: block allocation, inodes and their contents

A pointer to an inode in memory is a slot of the inode cache; where the source tests it for null it is
an `Option`. A result `none` of `readi` or `writei` is -1. The loops that count by bytes are defined by
recursion on what is left to do, those over a table by recursion on its indices.

`bread` returns a copy of the data, and the holder of the buffer stores the changed block back with
`setData`: while it is locked nobody else changes it.
-/
import Xv6.Fs.Disk

namespace Xv6.Fs
set_option autoImplicit false

/-! ## Blocks -/

def bzero (bno : Nat) : FsM Unit := do
  let _ ← bread bno
  setData bno fun _ => 0
  logWrite bno
  brelse bno

def bblock (sb : Superblock) (b : Nat) : Nat := u32 (b / BPB + sb.bmapstart)

/-- The bit of block `bi` in its byte of the bitmap. -/
def bitMask (bi : Nat) : Byte := 1 <<< UInt8.ofNat (bi % 8)

/-- The loop of `balloc` over the blocks of the bitmap; `bases` are the values of `b` to come. -/
def ballocLoop (sb : Superblock) : List Nat → FsM Nat
  | [] => panic "balloc: out of blocks"
  | b :: rest => do
    let data ← bread (bblock sb b)
    match (List.range (min BPB (sb.size - b))).find? fun bi => data (bi / 8) &&& bitMask bi = 0 with
    | some bi =>
      setData (bblock sb b) (Function.update data (bi / 8) (data (bi / 8) ||| bitMask bi))
      logWrite (bblock sb b)
      brelse (bblock sb b)
      bzero (b + bi)
      return b + bi
    | none =>
      brelse (bblock sb b)
      ballocLoop sb rest

def balloc : FsM Nat := do
  let s ← get
  ballocLoop s.sb ((List.range ((s.sb.size + BPB - 1) / BPB)).map (· * BPB))

def bfree (b : Nat) : FsM Unit := do
  let s ← get
  let data ← bread (bblock s.sb b)
  let bi := b % BPB
  panicIf (data (bi / 8) &&& bitMask bi = 0) "freeing free block"
  setData (bblock s.sb b) (Function.update data (bi / 8) (data (bi / 8) &&& ~~~bitMask bi))
  logWrite (bblock s.sb b)
  brelse (bblock s.sb b)

/-! ## Inodes on disk -/

def iblock (sb : Superblock) (inum : Nat) : Nat := u32 (inum / IPB + sb.inodestart)

/-- Where inode `inum` starts in its block. -/
def inodeOff (inum : Nat) : Nat := inum % IPB * sizeofDinode

def Dinode.decode (data : Block) (off : Nat) : Dinode where
  type := data.le off 2
  major := data.le (off + 2) 2
  minor := data.le (off + 4) 2
  nlink := data.le (off + 6) 2
  size := data.le (off + 8) 4
  addrs := fun i => data.le (off + 12 + 4 * i) 4

def Dinode.encode (d : Dinode) : List Byte :=
  leBytes d.type 2 ++ leBytes d.major 2 ++ leBytes d.minor 2 ++ leBytes d.nlink 2 ++
    leBytes d.size 4 ++ (List.finRange (NDIRECT + 1)).flatMap fun i => leBytes (d.addrs i) 4

def Dinode.free : Dinode := ⟨0, 0, 0, 0, 0, fun _ => 0⟩

def State.disk (s : State) (i : Slot) : Dinode := (s.icache i).disk

def setDisk (i : Slot) (d : Dinode) : FsM Unit :=
  modify fun s => s.setInode i { s.icache i with disk := d }

def iupdate (i : Slot) : FsM Unit := do
  let s ← get
  let ip := s.icache i
  let data ← bread (iblock s.sb ip.inum)
  setData (iblock s.sb ip.inum) (data.put (inodeOff ip.inum) ip.disk.encode)
  logWrite (iblock s.sb ip.inum)
  brelse (iblock s.sb ip.inum)

/-! ## The inode cache -/

/-- The slot of inode `inum`, if it is in use. -/
def State.cached (s : State) (dev inum : Nat) : Option Slot :=
  (List.finRange NINODE).find? fun i =>
    decide (0 < (s.icache i).ref) && (s.icache i).dev == dev && (s.icache i).inum == inum

def State.emptySlot (s : State) : Option Slot :=
  (List.finRange NINODE).find? fun i => decide ((s.icache i).ref = 0)

def addRef (i : Slot) (n : Int) : FsM Unit :=
  modify fun s => s.setInode i { s.icache i with ref := (s.icache i).ref + n }

def iget (dev inum : Nat) : FsM Slot := do
  let s ← get
  match s.cached dev inum with
  | some i =>
    addRef i 1
    return i
  | none =>
    match s.emptySlot with
    | none => panic "iget: no inodes"
    | some i =>
      modify fun s => s.setInode i { s.icache i with
        dev := dev, inum := inum, ref := 1, valid := false }
      return i

def idup (i : Slot) : FsM Slot := do
  addRef i 1
  return i

/-- The loop of `ialloc`; `inums` are the inode numbers to come. -/
def iallocLoop (sb : Superblock) (dev type : Nat) : List Nat → FsM Slot
  | [] => panic "ialloc: no inodes"
  | inum :: rest => do
    let data ← bread (iblock sb inum)
    if (Dinode.decode data (inodeOff inum)).type = 0 then
      setData (iblock sb inum)
        (data.put (inodeOff inum) { Dinode.free with type := type }.encode)
      logWrite (iblock sb inum)
      brelse (iblock sb inum)
      iget dev inum
    else
      brelse (iblock sb inum)
      iallocLoop sb dev type rest

def ialloc (dev type : Nat) : FsM Slot := do
  let s ← get
  iallocLoop s.sb dev type (List.range' 1 (s.sb.ninodes - 1))

/-- `ilock` once the pointer has been checked and the lock taken: read the inode if it is not valid. -/
def loadInode (i : Slot) : FsM Unit := do
  let s ← get
  let ip := s.icache i
  if ip.valid then
    return ()
  else
    let data ← bread (iblock s.sb ip.inum)
    let d := Dinode.decode data (inodeOff ip.inum)
    setDisk i d
    brelse (iblock s.sb ip.inum)
    modify fun s => s.setInode i { s.icache i with valid := true }
    panicIf (d.type = 0) "ilock: no type"

def ilock : Option Slot → FsM Unit
  | none => panic "ilock"
  | some i => do
    let s ← get
    panicIf ((s.icache i).ref < 1) "ilock"
    acquiresleep i
    loadInode i

def iunlock : Option Slot → FsM Unit
  | none => panic "iunlock"
  | some i => do
    let holding ← holdingsleep i
    let s ← get
    panicIf (holding = false ∨ (s.icache i).ref < 1) "iunlock"
    releasesleep i

/-! ## Contents -/

/-- Free the direct blocks with the given indices. -/
def itruncDirect (i : Slot) : List (Fin (NDIRECT + 1)) → FsM Unit
  | [] => pure ()
  | k :: rest => do
    let s ← get
    if (s.disk i).addrs k ≠ 0 then
      bfree ((s.disk i).addrs k)
      setDisk i { s.disk i with addrs := Function.update (s.disk i).addrs k 0 }
      itruncDirect i rest
    else
      itruncDirect i rest

/-- Free the blocks that an indirect block lists. -/
def itruncIndirect (data : Block) : List Nat → FsM Unit
  | [] => pure ()
  | j :: rest => do
    if data.le (4 * j) 4 ≠ 0 then
      bfree (data.le (4 * j) 4)
      itruncIndirect data rest
    else
      itruncIndirect data rest

/-- Free the indirect block and what it lists. -/
def itruncLast (i : Slot) : FsM Unit := do
  let s ← get
  let b := (s.disk i).addrs (Fin.last NDIRECT)
  if b ≠ 0 then
    let data ← bread b
    itruncIndirect data (List.range NINDIRECT)
    brelse b
    bfree b
    setDisk i { s.disk i with addrs := Function.update (s.disk i).addrs (Fin.last NDIRECT) 0 }
  else
    return ()

def itrunc (i : Slot) : FsM Unit := do
  itruncDirect i ((List.finRange NDIRECT).map Fin.castSucc)
  itruncLast i
  modify fun s => s.setInode i { s.icache i with disk := { s.disk i with size := 0 } }
  iupdate i

/-- Free the inode if it has no links and this is the last reference to it. -/
def freeUnlinked (i : Slot) : FsM Unit := do
  let s ← get
  let ip := s.icache i
  if ip.valid ∧ ip.disk.nlink = 0 ∧ ip.ref = 1 then
    itrunc i
    modify fun s => s.setInode i { s.icache i with disk := { s.disk i with type := 0 } }
    iupdate i
    modify fun s => s.setInode i { s.icache i with valid := false }
  else
    return ()

/-- `iput`, but for the ghost. -/
def putRef (i : Slot) : FsM Unit := do
  acquiresleep i
  freeUnlinked i
  releasesleep i
  addRef i (-1)

def iput (i : Slot) : FsM Unit := do
  needsOwn
  putRef i

def iunlockput (i : Slot) : FsM Unit := do
  iunlock (some i)
  iput i

/-- The block at place `k` of the inode, allocated if there is none. -/
def bmapAt (i : Slot) (k : Fin (NDIRECT + 1)) : FsM Nat := do
  let s ← get
  if (s.disk i).addrs k = 0 then
    let addr ← balloc
    setDisk i { s.disk i with addrs := Function.update (s.disk i).addrs k addr }
    return addr
  else
    return (s.disk i).addrs k

def bmap (i : Slot) (bn : Nat) : FsM Nat := do
  if direct : bn < NDIRECT then
    bmapAt i ⟨bn, Nat.lt_succ_of_lt direct⟩
  else if bn - NDIRECT < NINDIRECT then
    let table ← bmapAt i (Fin.last NDIRECT)
    let data ← bread table
    let addr := data.le (4 * (bn - NDIRECT)) 4
    if addr = 0 then
      let addr ← balloc
      setData table (data.put (4 * (bn - NDIRECT)) (leBytes addr 4))
      logWrite table
      brelse table
      return addr
    else
      brelse table
      return addr
  else
    panic "bmap: out of range"

/-- `major` is a `short`, and `devsw` has functions for the console only. -/
def isConsole (d : Dinode) : Bool := d.major == CONSOLE

/-- A count that is not positive as an `int` waits for nothing. -/
def consoleread (i : Slot) (n : Nat) : FsM (Option (List Byte)) := do
  iunlock (some i)
  let s ← get
  if n = 0 ∨ 2 ^ 31 ≤ n then
    ilock (some i)
    return some []
  else
    match s.input with
    | [] => stop .asleep
    | .killed :: rest =>
      modify fun s => { s with input := rest }
      ilock (some i)
      return none
    | .bytes text :: rest =>
      modify fun s => { s with input := rest }
      ilock (some i)
      return some (text.take n)

/-- A count that is negative as an `int` writes nothing and is returned as it is. -/
def consolewrite (i : Slot) (text : List Byte) (n : Nat) : FsM (Option Nat) := do
  iunlock (some i)
  if n < 2 ^ 31 then
    modify fun s => { s with printed := .bytes (text.take n) :: s.printed }
    ilock (some i)
    return some n
  else
    ilock (some i)
    return none

/-- How many of `n` bytes from `off` on are in the same block. -/
def chunk (off n : Nat) : Nat := min n (BSIZE - off % BSIZE)

theorem chunk_pos {off n : Nat} (more : n ≠ 0) : 0 < chunk off n := by
  have inside : off % BSIZE < BSIZE := Nat.mod_lt _ (by decide)
  unfold chunk
  omega

def readLoop (i : Slot) (off n : Nat) : FsM (List Byte) := do
  if _more : n ≠ 0 then
    let b ← bmap i (off / BSIZE)
    let data ← bread b
    brelse b
    let rest ← readLoop i (off + chunk off n) (n - chunk off n)
    return data.slice (off % BSIZE) (chunk off n) ++ rest
  else
    return []
termination_by n
decreasing_by exact Nat.sub_lt (Nat.pos_of_ne_zero ‹_›) (chunk_pos ‹_›)

def readi (i : Slot) (off n : Nat) : FsM (Option (List Byte)) := do
  let s ← get
  if (s.disk i).type = T_DEV then
    if isConsole (s.disk i) then consoleread i n else return none
  else if (s.disk i).size < off ∨ u32 (off + n) < off then
    return none
  else
    let text ← readLoop i off (min n ((s.disk i).size - off))
    return some text

def writeLoop (i : Slot) (off : Nat) (text : List Byte) (n : Nat) : FsM Unit := do
  if _more : n ≠ 0 then
    let b ← bmap i (off / BSIZE)
    let data ← bread b
    setData b (data.put (off % BSIZE) (text.take (chunk off n)))
    logWrite b
    brelse b
    writeLoop i (off + chunk off n) (text.drop (chunk off n)) (n - chunk off n)
  else
    return ()
termination_by n
decreasing_by exact Nat.sub_lt (Nat.pos_of_ne_zero ‹_›) (chunk_pos ‹_›)

/-- The end of `writei`: a file that became longer. -/
def growTo (i : Slot) (off n : Nat) : FsM Unit := do
  let s ← get
  if 0 < n ∧ (s.disk i).size < off then
    setDisk i { s.disk i with size := off }
    iupdate i
  else
    return ()

def writei (i : Slot) (text : List Byte) (off n : Nat) : FsM (Option Nat) := do
  let s ← get
  if (s.disk i).type = T_DEV then
    if isConsole (s.disk i) then consolewrite i text n else return none
  else if (s.disk i).size < off ∨ u32 (off + n) < off then
    return none
  else if MAXFILE * BSIZE < u32 (off + n) then
    return none
  else
    writeLoop i off text n
    growTo i (off + n) n
    return some n

end Xv6.Fs
