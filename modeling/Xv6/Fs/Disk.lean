/-
# Xv6.Fs.Disk -- the state of the file system; buffers, sleep locks and the log

One system call runs at a time: `FsM` passes the state from statement to statement, and a call ends by
returning, by a panic, or by waiting for something that only another process can give (`asleep`), or
that nobody will (`stuck`).

* **Blocks.** xv6 runs with one disk. `blocks` is what `bread` finds there, through the cache: whether
  a block has reached the disk yet is not kept. `bget` needs a buffer that is neither locked nor
  dirty, unless the block is in one, so the cache is its locked and its dirty buffers.
* **Log.** `log.c`. `outstanding` counts the system calls that are inside a transaction.
* **Ghosts.** `own` counts the transactions that the running call has open itself, and `stray`
  remembers whether it has put an inode or logged a block without one.
-/
import Xv6.Param

namespace Xv6.Fs
set_option autoImplicit false

/-! ## Sizes -/

abbrev NINODE : Nat := 50
abbrev ROOTDEV : Nat := 1
abbrev MAXOPBLOCKS : Nat := 10
abbrev LOGSIZE : Nat := MAXOPBLOCKS * 3
abbrev NBUF : Nat := MAXOPBLOCKS * 3
abbrev FSSIZE : Nat := 1000

abbrev ROOTINO : Nat := 1
abbrev BSIZE : Nat := 512
abbrev NDIRECT : Nat := 12
abbrev NINDIRECT : Nat := BSIZE / 4
abbrev MAXFILE : Nat := NDIRECT + NINDIRECT
abbrev DIRSIZ : Nat := 14
/-- `sizeof(struct dinode)` and `sizeof(struct dirent)` -/
abbrev sizeofDinode : Nat := 64
abbrev sizeofDirent : Nat := 2 + DIRSIZ
abbrev IPB : Nat := BSIZE / sizeofDinode
abbrev BPB : Nat := BSIZE * 8

/-- The file types of `stat.h`. -/
abbrev T_DIR : Nat := 1
abbrev T_FILE : Nat := 2
abbrev T_DEV : Nat := 3

abbrev CONSOLE : Nat := 1

/-- `uint` arithmetic -/
def u32 (n : Nat) : Nat := n % 2 ^ 32

/-! ## Bytes -/

abbrev Byte := UInt8

/-- The contents of a block; only the first `BSIZE` bytes count. -/
abbrev Block := Nat → Byte

/-- The little-endian number in `n` bytes from `off` on. -/
def Block.le (data : Block) (off : Nat) : Nat → Nat
  | 0 => 0
  | n + 1 => (data off).toNat + 256 * Block.le data (off + 1) n

/-- The `n` little-endian bytes of a number. -/
def leBytes (x : Nat) : Nat → List Byte
  | 0 => []
  | n + 1 => UInt8.ofNat x :: leBytes (x / 256) n

/-- `memmove(data + off, text, length)` -/
def Block.put (data : Block) (off : Nat) (text : List Byte) : Block := fun i =>
  if off ≤ i then (text[i - off]?).getD (data i) else data i

/-- `n` bytes from `off` on. -/
def Block.slice (data : Block) (off n : Nat) : List Byte := (List.range n).map fun i => data (off + i)

/-! ## State -/

/-- How a call ends other than by returning. -/
inductive Fault where
  | panic (text : Panic)
  /-- it sleeps, and only another process can wake it -/
  | asleep
  /-- it spins for a spinlock that was never released -/
  | stuck
  /-- it has not come to an end yet -/
  | running
  deriving DecidableEq, Repr

structure Superblock where
  size : Nat
  nblocks : Nat
  ninodes : Nat
  nlog : Nat
  logstart : Nat
  inodestart : Nat
  bmapstart : Nat
  deriving DecidableEq, Repr

structure Log where
  start : Nat
  size : Nat
  outstanding : Int
  committing : Bool
  /-- `lh.block[0 .. lh.n)` -/
  lh : List Nat
  deriving DecidableEq, Repr

/-- `lk` is the spinlock inside. -/
structure Sleeplock where
  lk : Bool
  locked : Bool
  pid : Nat
  deriving DecidableEq, Repr

/-- The part of an inode that is on disk. -/
structure Dinode where
  type : Nat
  major : Nat
  minor : Nat
  nlink : Nat
  size : Nat
  addrs : Fin (NDIRECT + 1) → Nat

structure Inode where
  dev : Nat
  inum : Nat
  ref : Int
  lock : Sleeplock
  valid : Bool
  disk : Dinode

/-- A place in `icache.inode`: a pointer to an inode in memory. -/
abbrev Slot := Fin NINODE

instance : NeZero NINODE := ⟨by decide⟩

/-- What a console read finds: input, or that the process was killed while it waited. -/
inductive Input where
  | bytes (text : List Byte)
  | killed

/-- What appears on the console: a message of the kernel, or what a process writes. -/
inductive Output where
  | message (text : String)
  | bytes (text : List Byte)

structure State where
  sb : Superblock
  blocks : Nat → Block
  /-- the locked buffers -/
  held : List Nat
  /-- the buffers with `B_DIRTY` -/
  dirty : List Nat
  log : Log
  icache : Slot → Inode
  /-- the process that makes the call -/
  pid : Nat
  cwd : Slot
  /-- what its console reads find, one after the other -/
  input : List Input
  printed : List Output
  own : Int
  stray : Bool

abbrev FsM := StateT State (Except Fault)

def stop {α : Type} (fault : Fault) : FsM α := fun _ => .error fault

def panic {α : Type} (text : Panic) : FsM α := stop (.panic text)

def panicIf (c : Prop) [Decidable c] (text : Panic) : FsM Unit :=
  if c then panic text else pure ()

def cprintf (text : String) : FsM Unit :=
  modify fun s => { s with printed := .message text :: s.printed }

/-! ## Sleep locks -/

def Inode.setLock (ip : Inode) (lock : Sleeplock) : Inode := { ip with lock := lock }

def State.setInode (s : State) (i : Slot) (ip : Inode) : State :=
  { s with icache := Function.update s.icache i ip }

def acquiresleep (i : Slot) : FsM Unit := do
  let s ← get
  if (s.icache i).lock.lk then
    stop .stuck
  else if (s.icache i).lock.locked then
    stop .asleep
  else
    modify fun s => s.setInode i ((s.icache i).setLock ⟨false, true, s.pid⟩)

/-- By a process that does not hold the lock it returns early, and keeps the spinlock. -/
def releasesleep (i : Slot) : FsM Unit := do
  let s ← get
  let lock := (s.icache i).lock
  if lock.lk then
    stop .stuck
  else if lock.locked = false ∨ lock.pid ≠ s.pid then
    modify fun s => s.setInode i ((s.icache i).setLock { lock with lk := true })
  else
    modify fun s => s.setInode i ((s.icache i).setLock ⟨false, false, 0⟩)

def holdingsleep (i : Slot) : FsM Bool := do
  let s ← get
  let lock := (s.icache i).lock
  if lock.lk then stop .stuck else return lock.locked && lock.pid == s.pid

/-! ## Buffers -/

/-- A buffer is free if it is neither locked nor dirty. -/
def State.freeBuffer (s : State) : Bool :=
  decide ((s.held ++ s.dirty.filter (· ∉ s.held)).length < NBUF)

def bread (b : Nat) : FsM Block := do
  let s ← get
  if b ∈ s.held then
    stop .asleep
  else if b ∈ s.dirty then
    modify fun s => { s with held := b :: s.held }
    return s.blocks b
  else if !s.freeBuffer then
    panic "bget: no buffers"
  else if FSSIZE ≤ b then
    panic "incorrect blockno"
  else
    modify fun s => { s with held := b :: s.held }
    return s.blocks b

def brelse (b : Nat) : FsM Unit := modify fun s => { s with held := s.held.erase b }

/-- The holder of a buffer changes its data. -/
def setData (b : Nat) (data : Block) : FsM Unit :=
  modify fun s => { s with blocks := Function.update s.blocks b data }

def bwrite (b : Nat) : FsM Unit := do
  panicIf (FSSIZE ≤ b) "incorrect blockno"
  modify fun s => { s with dirty := s.dirty.filter (· ≠ b) }

/-! ## The log -/

def beginOp : FsM Unit := do
  let s ← get
  if s.log.committing then
    stop .asleep
  else if (s.log.lh.length : Int) + (s.log.outstanding + 1) * MAXOPBLOCKS > LOGSIZE then
    stop .asleep
  else
    modify fun s => { s with
      log := { s.log with outstanding := s.log.outstanding + 1 }
      own := s.own + 1 }

/-- Copy the logged blocks to the log, from slot `tail` on. -/
def writeLog (start : Nat) : Nat → List Nat → FsM Unit
  | _, [] => pure ()
  | tail, b :: rest => do
    let _ ← bread (start + tail + 1)
    let data ← bread b
    setData (start + tail + 1) data
    bwrite (start + tail + 1)
    brelse b
    brelse (start + tail + 1)
    writeLog start (tail + 1) rest

/-- Copy the log to where its blocks belong. -/
def installTrans (start : Nat) : Nat → List Nat → FsM Unit
  | _, [] => pure ()
  | tail, b :: rest => do
    let data ← bread (start + tail + 1)
    let _ ← bread b
    setData b data
    bwrite b
    brelse (start + tail + 1)
    brelse b
    installTrans start (tail + 1) rest

def writeHead : FsM Unit := do
  let s ← get
  let data ← bread s.log.start
  setData s.log.start
    (data.put 0 (leBytes s.log.lh.length 4 ++ s.log.lh.flatMap fun b => leBytes b 4))
  bwrite s.log.start
  brelse s.log.start

def commit : FsM Unit := do
  let s ← get
  if 0 < s.log.lh.length then
    writeLog s.log.start 0 s.log.lh
    writeHead
    installTrans s.log.start 0 s.log.lh
    modify fun s => { s with log := { s.log with lh := [] } }
    writeHead
  else
    return ()

def endOp : FsM Unit := do
  modify fun s => { s with
    log := { s.log with outstanding := s.log.outstanding - 1 }
    own := s.own - 1 }
  let s ← get
  if s.log.committing then
    panic "log.committing"
  else if s.log.outstanding = 0 then
    modify fun s => { s with log := { s.log with committing := true } }
    commit
    modify fun s => { s with log := { s.log with committing := false } }
  else
    return ()

/-- The running call does something that belongs into a transaction. -/
def needsOwn : FsM Unit := modify fun s => { s with stray := s.stray || decide (s.own < 1) }

def logWrite (b : Nat) : FsM Unit := do
  needsOwn
  let s ← get
  panicIf (LOGSIZE ≤ s.log.lh.length ∨ (s.log.size : Int) - 1 ≤ s.log.lh.length)
    "too big a transaction"
  panicIf (s.log.outstanding < 1) "log_write outside of trans"
  modify fun s => { s with
    log := { s.log with lh := if b ∈ s.log.lh then s.log.lh else s.log.lh ++ [b] }
    dirty := if b ∈ s.dirty then s.dirty else b :: s.dirty }

end Xv6.Fs
