/-
# Xv6.Files.Kernel -- open files, descriptors and the system calls on them

`ftable` of file.c and the descriptor tables and working directories of the processes, over the file
system of `Xv6.Fs`. One system call runs at a time, and the machine is the run of any calls by any
processes, one after the other; a call that panics or that waits for something it cannot get has no
successor.

* **Processes.** A process is live from its `fork` to its `exit`. Which place of the process table
  `allocproc` finds, and whether there is memory for the child, is part of the event.
* **Pipes.** A pipe is the page that `kalloc` gave for it and its two flags. What a read or write of
  a pipe returns is part of the event: the bytes in pipes are not kept here.
* **Ghosts.** Each time a file gets a pipe end or an inode reference, this gets a number of its own
  (`token`); `released` are the numbers whose end was closed or whose reference was put.
-/
import Xv6.Fs.Calls

namespace Xv6.Files
open Fs (Slot FsM Byte Input)
open Function
set_option autoImplicit false

abbrev NFILE : Nat := 100
abbrev NOFILE : Nat := 16

instance : NeZero NFILE := ⟨by decide⟩

instance : NeZero NOFILE := ⟨by decide⟩

/-! ## State -/

inductive FdType where
  | FD_NONE
  | FD_PIPE
  | FD_INODE
  deriving DecidableEq, Repr

structure File where
  type : FdType
  ref : Int
  readable : Bool
  writable : Bool
  /-- the page of the pipe -/
  pipe : Nat
  ip : Slot
  off : Nat
  /-- ghost: which pipe end or inode reference it has -/
  token : Nat
  deriving DecidableEq, Repr

structure Ends where
  readopen : Bool
  writeopen : Bool
  deriving DecidableEq, Repr

/-- A pointer into `ftable.file`. -/
abbrev FileSlot := Fin NFILE

abbrev Fd := Fin NOFILE

abbrev Proc := Fin NPROC

/-- The first process, which never exits. -/
def initproc : Proc := 0

structure Kernel where
  fs : Fs.State
  file : FileSlot → File
  ofile : Proc → Fd → Option FileSlot
  /-- null once the process has exited -/
  cwd : Proc → Slot
  live : Proc → Bool
  pipes : Nat → Option Ends
  /-- ghost: how many tokens there are -/
  tokens : Nat
  /-- ghost -/
  released : List Nat

/-- How a call ends other than by returning. -/
inductive Halt where
  /-- in the file system -/
  | fs (fault : Fs.Fault)
  | panic (text : Panic)
  /-- it uses the page of a pipe that was freed -/
  | freed
  deriving DecidableEq, Repr

abbrev KM := StateT Kernel (Except Halt)

def stop {α : Type} (halt : Halt) : KM α := fun _ => .error halt

def panicIf (c : Prop) [Decidable c] (text : Panic) : KM Unit :=
  if c then stop (.panic text) else pure ()

/-- What process `p` does in the file system. -/
def inFs {α : Type} (p : Proc) (m : FsM α) : KM α := fun k =>
  match m { k.fs with pid := p + 1, cwd := k.cwd p } with
  | .ok (a, fs) => .ok (a, { k with fs := fs })
  | .error fault => .error (.fs fault)

def setFile (f : FileSlot) (file : File) : KM Unit :=
  modify fun k => { k with file := update k.file f file }

/-- `ofile[fd]` of process `p` -/
def setOfile (p : Proc) (fd : Fd) (f : Option FileSlot) : KM Unit :=
  modify fun k => { k with ofile := update k.ofile p (update (k.ofile p) fd f) }

/-! ## file.c -/

def filealloc : KM (Option FileSlot) := do
  let k ← get
  match (List.finRange NFILE).find? fun f => decide ((k.file f).ref = 0) with
  | none => return none
  | some f =>
    setFile f { k.file f with ref := 1 }
    return some f

def filedup (f : FileSlot) : KM Unit := do
  let k ← get
  panicIf ((k.file f).ref < 1) "filedup"
  setFile f { k.file f with ref := (k.file f).ref + 1 }

def pipeclose (page : Nat) (writable : Bool) : KM Unit := do
  let k ← get
  match k.pipes page with
  | none => stop .freed
  | some ends =>
    let ends := if writable then { ends with writeopen := false } else { ends with readopen := false }
    let left := if ends.readopen = false ∧ ends.writeopen = false then none else some ends
    modify fun k => { k with pipes := update k.pipes page left }

/-- Ghost: the reference with this token is given up. -/
def release (token : Nat) : KM Unit :=
  modify fun k => { k with released := token :: k.released }

/-- The end of `fileclose`, with the copy `ff` of the file that was closed. -/
def closeLast (p : Proc) (ff : File) : KM Unit :=
  match ff.type with
  | .FD_PIPE => do
    release ff.token
    pipeclose ff.pipe ff.writable
  | .FD_INODE => do
    release ff.token
    inFs p do
      Fs.beginOp
      Fs.iput ff.ip
      Fs.endOp
  | .FD_NONE => pure ()

def fileclose (p : Proc) (f : FileSlot) : KM Unit := do
  let k ← get
  panicIf ((k.file f).ref < 1) "fileclose"
  if 0 < (k.file f).ref - 1 then
    setFile f { k.file f with ref := (k.file f).ref - 1 }
  else
    setFile f { k.file f with ref := 0, type := .FD_NONE }
    closeLast p (k.file f)

/-- `piped` is what a pipe gives. -/
def fileread (p : Proc) (f : FileSlot) (n : Nat) (piped : Option (List Byte)) :
    KM (Option (List Byte)) := do
  let k ← get
  if (k.file f).readable = false then
    return none
  else
    match (k.file f).type with
    | .FD_PIPE => return piped
    | .FD_INODE =>
      let read ← inFs p do
        Fs.ilock (some (k.file f).ip)
        let read ← Fs.readi (k.file f).ip (k.file f).off n
        Fs.iunlock (some (k.file f).ip)
        return read
      setFile f { k.file f with off := Fs.u32 ((k.file f).off + (read.getD []).length) }
      return read
    | .FD_NONE => stop (.panic "fileread")

/-- `max` of `filewrite`: what one transaction has room for -/
abbrev maxWrite : Nat := (Fs.MAXOPBLOCKS - 1 - 1 - 2) / 2 * 512

/-- The loop of `filewrite`; `text` is left to write. It says whether all was written. -/
def filewriteLoop (p : Proc) (f : FileSlot) (text : List Byte) : KM Bool := do
  if _more : text ≠ [] then
    let k ← get
    let n1 := min text.length maxWrite
    let written ← inFs p do
      Fs.beginOp
      Fs.ilock (some (k.file f).ip)
      let written ← Fs.writei (k.file f).ip (text.take n1) (k.file f).off n1
      Fs.iunlock (some (k.file f).ip)
      Fs.endOp
      return written
    match written with
    | none => return false
    | some r =>
      setFile f { k.file f with off := Fs.u32 ((k.file f).off + r) }
      panicIf (r ≠ n1) "short filewrite"
      filewriteLoop p f (text.drop n1)
  else
    return true
termination_by text.length
decreasing_by
  rw [List.length_drop]
  exact Nat.sub_lt (List.length_pos_iff.mpr ‹_›)
    (Nat.lt_min.mpr ⟨List.length_pos_iff.mpr ‹_›, by decide⟩)

def filewrite (p : Proc) (f : FileSlot) (text : List Byte) (piped : Option Nat) : KM (Option Nat) := do
  let k ← get
  if (k.file f).writable = false then
    return none
  else
    match (k.file f).type with
    | .FD_PIPE => return piped
    | .FD_INODE =>
      let all ← filewriteLoop p f text
      return if all then some text.length else none
    | .FD_NONE => stop (.panic "filewrite")

/-! ## Descriptors -/

/-- `fd` is fetched as an `int`; a negative one is at least `2 ^ 31` here. -/
def argfd (p : Proc) (fd : Option Nat) : KM (Option (Fd × FileSlot)) := do
  let k ← get
  match fd with
  | none => return none
  | some fd =>
    if inside : fd < NOFILE then
      return (k.ofile p ⟨fd, inside⟩).map fun f => (⟨fd, inside⟩, f)
    else
      return none

def fdalloc (p : Proc) (f : FileSlot) : KM (Option Fd) := do
  let k ← get
  match (List.finRange NOFILE).find? fun fd => k.ofile p fd = none with
  | none => return none
  | some fd =>
    setOfile p fd (some f)
    return some fd

/-! ## System calls -/

def sysDup (p : Proc) (fd : Option Nat) : KM (Option Fd) := do
  let arg ← argfd p fd
  match arg with
  | none => return none
  | some (_, f) =>
    let new ← fdalloc p f
    match new with
    | none => return none
    | some new =>
      filedup f
      return some new

def sysClose (p : Proc) (fd : Option Nat) : KM (Option Unit) := do
  let arg ← argfd p fd
  match arg with
  | none => return none
  | some (fd, f) =>
    setOfile p fd none
    fileclose p f
    return some ()

/-- `n` is missing if it is negative or the buffer is not memory of the process. -/
def sysRead (p : Proc) (fd n : Option Nat) (piped : Option (List Byte)) :
    KM (Option (List Byte)) := do
  let arg ← argfd p fd
  match arg, n with
  | some (_, f), some n => fileread p f n piped
  | _, _ => return none

def sysWrite (p : Proc) (fd : Option Nat) (text : Option (List Byte)) (piped : Option Nat) :
    KM (Option Nat) := do
  let arg ← argfd p fd
  match arg, text with
  | some (_, f), some text => filewrite p f text piped
  | _, _ => return none

/-- A file gets an inode reference or a pipe end. -/
def setType (f : FileSlot) (t : File → File) : KM Unit :=
  modify fun k => { k with
    file := update k.file f { t (k.file f) with token := k.tokens }
    tokens := k.tokens + 1 }

/-- The failure of `sys_open` after `filealloc` and `fdalloc`. -/
def openBad (p : Proc) (ip : Slot) : KM (Option Fd) := do
  inFs p do
    Fs.iunlockput ip
    Fs.endOp
  return none

/-- `sys_open` with the inode. -/
def openFile (p : Proc) (ip : Slot) (omode : Nat) : KM (Option Fd) := do
  let f ← filealloc
  match f with
  | none => openBad p ip
  | some f =>
    let fd ← fdalloc p f
    match fd with
    | none =>
      fileclose p f
      openBad p ip
    | some fd =>
      inFs p do
        Fs.iunlock (some ip)
        Fs.endOp
      setType f fun file => { file with
        type := .FD_INODE, ip := ip, off := 0
        readable := decide (omode &&& Fs.O_WRONLY = 0)
        writable := decide (omode &&& Fs.O_WRONLY ≠ 0 ∨ omode &&& Fs.O_RDWR ≠ 0) }
      return some fd

def sysOpen (p : Proc) (path : Option (List Byte)) (omode : Option Nat) : KM (Option Fd) := do
  match path, omode with
  | some path, some omode =>
    let ip ← inFs p (Fs.openInode path omode)
    match ip with
    | none => return none
    | some ip => openFile p ip omode
  | _, _ => return none

/-- `page` is what `kalloc` gives. -/
def pipealloc (p : Proc) (page : Option Nat) : KM (Option (FileSlot × FileSlot)) := do
  let f0 ← filealloc
  match f0 with
  | none => return none
  | some f0 =>
    let f1 ← filealloc
    match f1 with
    | none =>
      fileclose p f0
      return none
    | some f1 =>
      match page with
      | none =>
        fileclose p f0
        fileclose p f1
        return none
      | some page =>
        modify fun k => { k with pipes := update k.pipes page (some ⟨true, true⟩) }
        setType f0 fun file => { file with
          type := .FD_PIPE, readable := true, writable := false, pipe := page }
        setType f1 fun file => { file with
          type := .FD_PIPE, readable := false, writable := true, pipe := page }
        return some (f0, f1)

/-- `arg` says whether the result has a place in the memory of the process. -/
def sysPipe (p : Proc) (arg : Bool) (page : Option Nat) : KM (Option (Fd × Fd)) := do
  if arg = false then
    return none
  else
    let files ← pipealloc p page
    match files with
    | none => return none
    | some (rf, wf) =>
      let fd0 ← fdalloc p rf
      match fd0 with
      | none =>
        fileclose p rf
        fileclose p wf
        return none
      | some fd0 =>
        let fd1 ← fdalloc p wf
        match fd1 with
        | none =>
          setOfile p fd0 none
          fileclose p rf
          fileclose p wf
          return none
        | some fd1 => return some (fd0, fd1)

def sysChdir (p : Proc) (path : Option (List Byte)) : KM (Option Unit) := do
  let k ← get
  let ip ← inFs p (Fs.chdirInode (k.cwd p) path)
  match ip with
  | none => return none
  | some ip =>
    modify fun k => { k with cwd := update k.cwd p ip }
    return some ()

/-! ## Processes -/

/-- The loop of `fork` over the descriptors. -/
def forkFiles (p np : Proc) : List Fd → KM Unit
  | [] => pure ()
  | fd :: rest => do
    let k ← get
    match k.ofile p fd with
    | none => forkFiles p np rest
    | some f =>
      filedup f
      setOfile np fd (some f)
      forkFiles p np rest

/-- `np` is what `allocproc` finds, if there is memory for the child as well. -/
def fork (p : Proc) (np : Option Proc) : KM (Option Proc) := do
  match np with
  | none => return none
  | some np =>
    forkFiles p np (List.finRange NOFILE)
    let k ← get
    let cwd ← inFs p (Fs.idup (k.cwd p))
    modify fun k => { k with
      cwd := update k.cwd np cwd, live := update k.live np true }
    return some np

/-- The loop of `exit` over the descriptors. -/
def exitFiles (p : Proc) : List Fd → KM Unit
  | [] => pure ()
  | fd :: rest => do
    let k ← get
    match k.ofile p fd with
    | none => exitFiles p rest
    | some f =>
      fileclose p f
      setOfile p fd none
      exitFiles p rest

def exit (p : Proc) : KM Unit := do
  panicIf (p = initproc) "init exiting"
  exitFiles p (List.finRange NOFILE)
  let k ← get
  inFs p do
    Fs.beginOp
    Fs.iput (k.cwd p)
    Fs.endOp
  modify fun k => { k with live := update k.live p false }

/-! ## The machine -/

/-- A system call with its arguments, as far as they could be fetched. -/
inductive Call where
  | open (path : Option (List Byte)) (omode : Option Nat)
  | read (fd n : Option Nat) (piped : Option (List Byte))
  | write (fd : Option Nat) (text : Option (List Byte)) (piped : Option Nat)
  | pipe (arg : Bool) (page : Option Nat)
  | dup (fd : Option Nat)
  | close (fd : Option Nat)
  | fork (np : Option Proc)
  | exit
  | link (old new : Option (List Byte))
  | unlink (path : Option (List Byte))
  | mkdir (path : Option (List Byte))
  | mknod (path : Option (List Byte)) (major minor : Option Nat)
  | chdir (path : Option (List Byte))
  | fcopy (fuel : Nat) (src dest : Option (List Byte))

/-- What the process gets. -/
inductive Result where
  | failed
  | value (n : Nat)
  | bytes (text : List Byte)
  | ends (rf wf : Fd)
  deriving DecidableEq, Repr

/-- A result -1 or a value. -/
def Result.of (r : Int) : Result := if r < 0 then .failed else .value r.toNat

def Result.ofOption {α : Type} (value : α → Result) : Option α → Result
  | none => .failed
  | some a => value a

/-- A call that fails unless it gets its path. -/
def withPath (path : Option (List Byte)) (m : List Byte → FsM Int) : FsM Int :=
  match path with
  | some path => m path
  | none => return -1

/-- A call that fails unless it gets both of its paths. -/
def withPaths (a b : Option (List Byte)) (m : List Byte → List Byte → FsM Int) : FsM Int :=
  withPath a fun a => withPath b fun b => m a b

def execute (p : Proc) : Call → KM Result
  | .open path omode => do
    let fd ← sysOpen p path omode
    return .ofOption (fun fd => .value fd) fd
  | .read fd n piped => do
    let text ← sysRead p fd n piped
    return .ofOption .bytes text
  | .write fd text piped => do
    let n ← sysWrite p fd text piped
    return .ofOption .value n
  | .pipe arg page => do
    let fds ← sysPipe p arg page
    return .ofOption (fun fds => .ends fds.1 fds.2) fds
  | .dup fd => do
    let fd ← sysDup p fd
    return .ofOption (fun fd => .value fd) fd
  | .close fd => do
    let done ← sysClose p fd
    return .ofOption (fun _ => .value 0) done
  | .fork np => do
    let child ← fork p np
    return .ofOption (fun np => .value np) child
  | .exit => do
    exit p
    return .value 0
  | .link old new => do
    let r ← inFs p (withPaths old new Fs.sysLink)
    return .of r
  | .unlink path => do
    let r ← inFs p (withPath path Fs.sysUnlink)
    return .of r
  | .mkdir path => do
    let r ← inFs p (Fs.sysMkdir path)
    return .of r
  | .mknod path major minor => do
    let r ← inFs p (Fs.sysMknod path major minor)
    return .of r
  | .chdir path => do
    let done ← sysChdir p path
    return .ofOption (fun _ => .value 0) done
  | .fcopy fuel src dest => do
    let r ← inFs p (withPaths src dest (Fs.fcopy fuel))
    return .of r

/-- A call of a process, and what its console reads find. -/
structure Event where
  proc : Proc
  call : Call
  input : List Input

/-- The places that `allocproc` and `kalloc` find were free. -/
def Call.possible (k : Kernel) : Call → Bool
  | .fork (some np) => !k.live np
  | .pipe _ (some page) => (k.pipes page).isNone
  | _ => true

/-- The kernel as the call finds it. -/
def Kernel.enter (k : Kernel) (e : Event) : Kernel := { k with fs := { k.fs with input := e.input } }

/-- How the call ends; `none` if the process cannot make it. -/
def Kernel.outcome (k : Kernel) (e : Event) : Option (Except Halt (Result × Kernel)) :=
  if k.live e.proc ∧ e.call.possible k then some (execute e.proc e.call (k.enter e)) else none

def next (k : Kernel) (e : Event) : Option Kernel :=
  match k.outcome e with
  | some (.ok (_, k')) => some k'
  | _ => none

end Xv6.Files
