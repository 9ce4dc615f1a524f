/-
# Xv6.Fs.Copy -- the system call fcopy

`sys_fcopy` of sysfile.c and `filecopy` of file.c. The copy loop of `filecopy` need not end (a device
that cannot be read gives -1 for ever), so it has a bound on its rounds; a call returns if it does so
for some bound.
-/
import Xv6.Fs.Path
import Xv6.Vm.Kernel

namespace Xv6.Fs
set_option autoImplicit false

/-! ## Arguments -/

/-- The memory of the process that makes the call, and its stack pointer. -/
structure User where
  space : Vm.Space
  sz : Nat
  esp : Nat

def User.argint (u : User) (n : Nat) : Except Vm.Fault (Option Nat) :=
  Vm.fetchint u.space u.sz (u32 (u.esp + 4 + 4 * n))

/-- The bytes of a string of the given length. -/
def User.text (u : User) (addr len : Nat) : Except Vm.Fault (List Byte) :=
  (List.range len).mapM fun i => Vm.load u.space (addr + i)

/-- `none` is the result -1. -/
def User.argstr (u : User) (n : Nat) : Except Vm.Fault (Option (List Byte)) := do
  match ← u.argint n with
  | none => return none
  | some addr =>
    match ← Vm.fetchstr u.space u.sz addr with
    | none => return none
    | some len =>
      let text ← u.text addr len
      return some text

/-- Reading the memory of the process fails with a trap in the kernel. -/
def fromUser {α : Type} : Except Vm.Fault α → FsM α
  | .ok a => pure a
  | .error _ => panic "trap"

/-! ## Copying -/

abbrev BUF_SIZE : Nat := 50

/-- The result of `readi`, as a `uint`. -/
def bytesRead (read : Option (List Byte)) : Nat :=
  match read with
  | none => 2 ^ 32 - 1
  | some text => text.length

def setSize (i : Slot) (size : Nat) : FsM Unit :=
  modify fun s => s.setInode i { s.icache i with disk := { s.disk i with size := size } }

/-- At most `fuel` rounds of the copy loop. -/
def copyLoop (src dest : Slot) : Nat → Nat → FsM Unit
  | 0, _ => stop .running
  | fuel + 1, offset => do
    let read ← readi src offset BUF_SIZE
    if bytesRead read = 0 then
      return ()
    else
      let s ← get
      setSize dest (u32 ((s.disk dest).size + bytesRead read))
      let _ ← writei dest (read.getD []) offset (bytesRead read)
      iupdate dest
      copyLoop src dest fuel (u32 (offset + bytesRead read))

/-- The transaction of `filecopy`. -/
def copyTransaction (fuel : Nat) (src dest : Slot) : FsM Unit := do
  beginOp
  ilock (some src)
  ilock (some dest)
  setSize dest 0
  copyLoop src dest fuel 0
  endOp

def filecopy (fuel : Nat) (src dest : Slot) : FsM Int := do
  copyTransaction fuel src dest
  iunlockput src
  iunlockput dest
  return 0

/-- The end of `sys_fcopy` when the destination does not exist. -/
def copyToNew (fuel : Nat) (src : Slot) (destPath : List Byte) : FsM Int := do
  let dest ← create destPath T_FILE 0 0
  iunlock dest
  match dest with
  | none =>
    endOp
    return -1
  | some dest => filecopy fuel src dest

/-- The end of `sys_fcopy` when it does. -/
def copyOver (fuel : Nat) (src dest : Slot) : FsM Int := do
  cprintf "[WARNING] destination file exists, it will be overwriten!\n"
  endOp
  filecopy fuel src dest

/-- `sys_fcopy` once it has its paths. -/
def fcopy (fuel : Nat) (srcPath destPath : List Byte) : FsM Int := do
  beginOp
  let src ← namei srcPath
  let dest ← namei destPath
  match src with
  | none =>
    cprintf "source file does not exist!\n"
    return -1
  | some src =>
    if dest = some src then
      cprintf "a file can not be copy at itself!\n"
      endOp
      return -1
    else
      match dest with
      | none => copyToNew fuel src destPath
      | some dest => copyOver fuel src dest

def sysFcopy (fuel : Nat) (u : User) : FsM Int := do
  let src ← fromUser (u.argstr 0)
  match src with
  | none => return -1
  | some src =>
    let dest ← fromUser (u.argstr 1)
    match dest with
    | none => return -1
    | some dest => fcopy fuel src dest

end Xv6.Fs
