/-
# Xv6.Fs.Calls -- the system calls of sysfile.c that work on names

What a call does to the file system once it has its arguments; an argument that could not be fetched
is `none` where the source fetches it inside the transaction. `sys_open` and `sys_chdir` go on in the
tables of files and processes, so here they end where they leave the file system. The label `bad` of
`sys_link` and `sys_unlink` is a definition of its own.
-/
import Xv6.Fs.Copy

namespace Xv6.Fs
set_option autoImplicit false

/-! ## open -/

abbrev O_RDONLY : Nat := 0
abbrev O_WRONLY : Nat := 1
abbrev O_RDWR : Nat := 2
abbrev O_CREATE : Nat := 0x200

/-- `sys_open` up to `filealloc`: the inode, locked and inside the transaction. -/
def openInode (path : List Byte) (omode : Nat) : FsM (Option Slot) := do
  beginOp
  if omode &&& O_CREATE ≠ 0 then
    let ip ← create path T_FILE 0 0
    match ip with
    | none =>
      endOp
      return none
    | some ip => return some ip
  else
    let ip ← namei path
    match ip with
    | none =>
      endOp
      return none
    | some ip =>
      ilock (some ip)
      let s ← get
      if (s.disk ip).type = T_DIR ∧ omode ≠ O_RDONLY then
        iunlockput ip
        endOp
        return none
      else
        return some ip

/-! ## mkdir, mknod, chdir -/

def sysMkdir (path : Option (List Byte)) : FsM Int := do
  beginOp
  match path with
  | none =>
    endOp
    return -1
  | some path =>
    let ip ← create path T_DIR 0 0
    match ip with
    | none =>
      endOp
      return -1
    | some ip =>
      iunlockput ip
      endOp
      return 0

/-- `major` and `minor` become `short`s. -/
def sysMknod (path : Option (List Byte)) (major minor : Option Nat) : FsM Int := do
  beginOp
  match path, major, minor with
  | some path, some major, some minor =>
    let ip ← create path T_DEV (major % 2 ^ 16) (minor % 2 ^ 16)
    match ip with
    | none =>
      endOp
      return -1
    | some ip =>
      iunlockput ip
      endOp
      return 0
  | _, _, _ =>
    endOp
    return -1

/-- `sys_chdir` up to the assignment to `cwd`. -/
def chdirInode (cwd : Slot) (path : Option (List Byte)) : FsM (Option Slot) := do
  beginOp
  match path with
  | none =>
    endOp
    return none
  | some path =>
    let ip ← namei path
    match ip with
    | none =>
      endOp
      return none
    | some ip =>
      ilock (some ip)
      let s ← get
      if (s.disk ip).type ≠ T_DIR then
        iunlockput ip
        endOp
        return none
      else
        iunlock (some ip)
        iput cwd
        endOp
        return some ip

/-! ## link -/

/-- `nlink` is a `short`. -/
def addLink (i : Slot) (n : Nat) : FsM Unit :=
  modify fun s => s.setInode i { s.icache i with
    disk := { s.disk i with nlink := ((s.disk i).nlink + n) % 2 ^ 16 } }

/-- `nlink++` and `nlink--` -/
def incLink (i : Slot) : FsM Unit := addLink i 1

def decLink (i : Slot) : FsM Unit := addLink i (2 ^ 16 - 1)

/-- Take back the link that was counted before the entry was made. -/
def linkBad (ip : Slot) : FsM Int := do
  ilock (some ip)
  decLink ip
  iupdate ip
  iunlockput ip
  endOp
  return -1

/-- The entry for inode `ip`, whose link has been counted. -/
def linkEntry (ip : Slot) (new : List Byte) : FsM Int := do
  let found ← nameiparent new
  match found with
  | none => linkBad ip
  | some (dp, name) =>
    ilock (some dp)
    let s ← get
    if (s.icache dp).dev ≠ (s.icache ip).dev then
      iunlockput dp
      linkBad ip
    else
      let linked ← dirlink dp name (s.icache ip).inum
      if linked < 0 then
        iunlockput dp
        linkBad ip
      else
        iunlockput dp
        iput ip
        endOp
        return 0

def sysLink (old new : List Byte) : FsM Int := do
  beginOp
  let ip ← namei old
  match ip with
  | none =>
    endOp
    return -1
  | some ip =>
    ilock (some ip)
    let s ← get
    if (s.disk ip).type = T_DIR then
      iunlockput ip
      endOp
      return -1
    else
      incLink ip
      iupdate ip
      iunlock (some ip)
      linkEntry ip new

/-! ## unlink -/

/-- The loop of `isdirempty`. -/
def isdiremptyLoop (dp : Slot) : List Nat → FsM Bool
  | [] => return true
  | off :: rest => do
    let (inum, _) ← readDirent dp off "isdirempty: readi"
    if inum ≠ 0 then return false else isdiremptyLoop dp rest

def isdirempty (dp : Slot) : FsM Bool := do
  let s ← get
  isdiremptyLoop dp ((direntOffs (s.disk dp).size).drop 2)

def unlinkBad (dp : Slot) : FsM Int := do
  iunlockput dp
  endOp
  return -1

/-- The link of `..` in a directory that goes. -/
def unlinkDots (dp ip : Slot) : FsM Unit := do
  let s ← get
  if (s.disk ip).type = T_DIR then
    decLink dp
    iupdate dp
  else
    return ()

/-- The end of `sys_unlink`: clear the entry at `off` and count the link out. -/
def unlinkEntry (dp ip : Slot) (off : Nat) : FsM Int := do
  let written ← writei dp (List.replicate sizeofDirent 0) off sizeofDirent
  panicIf (written ≠ some sizeofDirent) "unlink: writei"
  unlinkDots dp ip
  iunlockput dp
  decLink ip
  iupdate ip
  iunlockput ip
  endOp
  return 0

/-- `sys_unlink` with the inode that the name stands for. `nlink` is compared as a `short`. -/
def unlinkFound (dp ip : Slot) (off : Nat) : FsM Int := do
  ilock (some ip)
  let s ← get
  panicIf ((s.disk ip).nlink < 1 ∨ 2 ^ 15 ≤ (s.disk ip).nlink) "unlink: nlink < 1"
  if (s.disk ip).type = T_DIR then
    let empty ← isdirempty ip
    if empty then
      unlinkEntry dp ip off
    else
      iunlockput ip
      unlinkBad dp
  else
    unlinkEntry dp ip off

def sysUnlink (path : List Byte) : FsM Int := do
  beginOp
  let found ← nameiparent path
  match found with
  | none =>
    endOp
    return -1
  | some (dp, name) =>
    ilock (some dp)
    if namecmp name [46] = 0 ∨ namecmp name [46, 46] = 0 then
      unlinkBad dp
    else
      let existing ← dirlookup dp name
      match existing with
      | none => unlinkBad dp
      | some (ip, off) => unlinkFound dp ip off

end Xv6.Fs
