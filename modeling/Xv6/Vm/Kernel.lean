/-
# Xv6.Vm.Kernel -- the system calls that change address spaces

The process table as far as memory is concerned, the shared-memory table, and the calls
`openshmem`, `closeshmem`, `fork`, `sbrk`, `exec`, `exit` and `wait`. Each call is one step. A call
that panics, reads through a null page-table entry, or waits for a lock that was left held has no
next state.

The program `exec` loads is given by what `readi` returns for each offset and length, and its path
lookup by whether there is such a file. The parts of `fork`, `exec`, `exit` and `wait` that concern
open files, scheduling and wakeups are not in this component.
-/
import Xv6.Vm.Memory
import Xv6.Sched.Table
import Xv6.Lib.Transition

namespace Xv6.Vm
open Lib
open Sched (ProcState)
set_option autoImplicit false

abbrev NSHPAGE : Nat := 64

abbrev Slot := Fin NPROC

structure Proc where
  state : ProcState
  pid : Int
  parent : Option Slot
  sz : Nat
  pgdir : Option PgDir
  kstack : Option Nat
  shmemaddr : Nat
  name : List Byte
  /-- `tf->eip` and `tf->esp` -/
  eip : Nat
  esp : Nat

/-- `struct shpage`; `phys` is the page of `physicalAddr`. -/
structure ShPage where
  id : Int
  nAccess : Int
  phys : Nat
  /-- ghost: the id and the page of the last `kalloc` for this slot, if it did not fail -/
  got : Option (Int × Nat)
  deriving DecidableEq, Repr

structure Kernel where
  mem : Mem
  procs : Slot → Proc
  nextpid : Int
  initproc : Slot
  shm : Fin NSHPAGE → ShPage
  /-- `shmemtable.lock` was left held by a call that returned -/
  shmHeld : Bool

namespace Kernel

@[simps mem shm shmHeld]
def setProc (k : Kernel) (i : Slot) (p : Proc) : Kernel :=
  { k with procs := Function.update k.procs i p }

@[simps mem]
def setShm (k : Kernel) (i : Fin NSHPAGE) (s : ShPage) : Kernel :=
  { k with shm := Function.update k.shm i s }

/-- The address space of process `i` after a call worked on it. -/
@[simps mem shm shmHeld]
def setSpace (k : Kernel) (i : Slot) (s : Space) : Kernel :=
  { k.setProc i { k.procs i with pgdir := some s.dir } with mem := s.mem }

variable (k : Kernel) (i : Slot) (j : Fin NSHPAGE)

@[simp] theorem setProc_procs (l : Slot) (p : Proc) :
    (k.setProc i p).procs l = if l = i then p else k.procs l := Function.update_apply ..

@[simp] theorem setShm_shm (r : Fin NSHPAGE) (e : ShPage) :
    (k.setShm j e).shm r = if r = j then e else k.shm r := Function.update_apply ..

@[simp] theorem setShm_procs (e : ShPage) : (k.setShm j e).procs = k.procs := rfl

@[simp] theorem setSpace_procs (l : Slot) (s : Space) :
    (k.setSpace i s).procs l =
      if l = i then { k.procs i with pgdir := some s.dir } else k.procs l := setProc_procs ..

/-- The address space of process `i`; a running process always has one. -/
def space (k : Kernel) (i : Slot) : Except Fault Space :=
  match (k.procs i).pgdir with
  | none => .error .stray
  | some d => .ok ⟨d, k.mem⟩

end Kernel

/-! ## fork, sbrk, exit, wait -/

def firstSlot (test : Slot → Bool) : Option Slot := (List.finRange NPROC).find? test

/-- The pid is used up even if there is no memory for the kernel stack. -/
def allocproc (k : Kernel) : Option Slot × Kernel :=
  match firstSlot fun i => decide ((k.procs i).state = .UNUSED) with
  | none => (none, k)
  | some i =>
    let p := { k.procs i with state := .EMBRYO, pid := k.nextpid }
    let k := { k with nextpid := k.nextpid + 1 }
    match kalloc k.mem with
    | none => (none, k.setProc i { p with state := .UNUSED, kstack := none })
    | some (x, m) => (some i, { k with mem := m }.setProc i { p with kstack := some x })

/-- `sz + n` for a signed `n`, as a `uint`. -/
def addSigned (sz : Nat) (n : Int) : Nat := ((sz + n) % 2 ^ 32).toNat

/-- The new size and space, size 0 on failure. -/
def resize (sz : Nat) (n : Int) (s : Space) : Except Fault (Nat × Space) :=
  if n > 0 then allocuvm sz (addSigned sz n) s
  else if n < 0 then deallocuvm sz (addSigned sz n) s
  else .ok (sz, s)

def growproc (k : Kernel) (i : Slot) (n : Int) : Except Fault (Int × Kernel) := do
  let s ← k.space i
  let (newsz, s) ← resize (k.procs i).sz n s
  let k := k.setSpace i s
  if n ≠ 0 ∧ newsz = 0 then
    return (-1, k)
  else
    return (0, k.setProc i { k.procs i with sz := newsz })

/-- `kfree(p->kstack)` -/
def freeKstack (p : Proc) (m : Mem) : Except Fault Mem :=
  match p.kstack with
  | none => .error (.panic "kfree")
  | some x => kfree x m

/-- `freevm(p->pgdir)` -/
def freePgdir (p : Proc) (m : Mem) : Except Fault Mem :=
  match p.pgdir with
  | none => .error (.panic "freevm: no pgdir")
  | some d => freevm ⟨d, m⟩

def fork (k : Kernel) (i : Slot) : Except Fault (Int × Kernel) := do
  let cur := k.procs i
  let s ← k.space i
  match allocproc k with
  | (none, k) => return (-1, k)
  | (some j, k) =>
    let (made, m) ← copyuvm s.dir cur.sz k.mem
    let k := { k with mem := m }
    match made with
    | none =>
      let m ← freeKstack (k.procs j) k.mem
      return (-1, { k with mem := m }.setProc j
        { k.procs j with kstack := none, pgdir := none, state := .UNUSED })
    | some d =>
      return ((k.procs j).pid, k.setProc j { k.procs j with
        pgdir := some d
        sz := cur.sz
        parent := some i
        eip := cur.eip
        esp := cur.esp
        name := cur.name
        state := .RUNNABLE })

/-- The children of `i` go to init. -/
def abandon (k : Kernel) (i : Slot) : Kernel :=
  { k with procs := fun j =>
      if (k.procs j).parent = some i then { k.procs j with parent := some k.initproc }
      else k.procs j }

def exit (k : Kernel) (i : Slot) : Except Fault Kernel :=
  if i = k.initproc then
    .error (.panic "init exiting")
  else
    let k := abandon k i
    .ok (k.setProc i { k.procs i with state := .ZOMBIE })

/-- The child of `i` that `wait` takes down. -/
def zombieChild (k : Kernel) (i : Slot) : Option Slot :=
  firstSlot fun j => decide ((k.procs j).parent = some i ∧ (k.procs j).state = .ZOMBIE)

/-- The pid of a child that was taken down, -1, or `none` when the call sleeps. -/
def wait (k : Kernel) (i : Slot) (killed : Bool) : Except Fault (Option Int × Kernel) :=
  match zombieChild k i with
  | some j => do
    let child := k.procs j
    let m ← freeKstack child k.mem
    let m ← freePgdir child m
    return (some child.pid, { k with mem := m }.setProc j { child with
      kstack := none
      -- the pointer is left dangling in an unused slot
      pgdir := none
      pid := 0
      parent := none
      name := []
      state := .UNUSED })
  | none =>
    if (firstSlot fun j => decide ((k.procs j).parent = some i)).isNone || killed then
      .ok (some (-1), k)
    else
      .ok (none, k)

/-! ## exec -/

/-- The little-endian number in `n` bytes from offset `off` on. -/
def le (text : List Byte) (off : Nat) : Nat → Nat
  | 0 => 0
  | n + 1 => (text.getD off 0).toNat + 256 * le text (off + 1) n

def ELF_MAGIC : Nat := 0x464C457F
def ELF_PROG_LOAD : Nat := 1

/-- `sizeof(struct elfhdr)` and `sizeof(struct proghdr)` -/
def sizeofElfhdr : Nat := 52
def sizeofProghdr : Nat := 32

/-- The loop over the program headers; no size is the jump to `bad`. -/
def loadSegments (file : File) : Nat → Nat → Nat → Space → Except Fault (Option Nat × Space)
  | 0, _, sz, s => .ok (some sz, s)
  | n + 1, off, sz, s =>
    match file off sizeofProghdr with
    | none => .ok (none, s)
    | some ph =>
      let next := (off + sizeofProghdr) % 2 ^ 32
      let type := le ph 0 4
      let offset := le ph 4 4
      let vaddr := le ph 8 4
      let filesz := le ph 16 4
      let memsz := le ph 20 4
      if ph.length ≠ sizeofProghdr then
        .ok (none, s)
      else if type ≠ ELF_PROG_LOAD then
        loadSegments file n next sz s
      else if memsz < filesz then
        .ok (none, s)
      else if (vaddr + memsz) % 2 ^ 32 < vaddr then
        .ok (none, s)
      else do
        let (sz, s) ← allocuvm sz ((vaddr + memsz) % 2 ^ 32) s
        if sz = 0 then
          return (none, s)
        else if vaddr % PGSIZE ≠ 0 then
          return (none, s)
        else
          let (loaded, m) ← loaduvm s.dir file vaddr offset filesz s.mem
          if loaded then
            loadSegments file n next sz ⟨s.dir, m⟩
          else
            return (none, ⟨s.dir, m⟩)

/-- The arguments go on the stack from `sp` down, `argc` of them already there. The result is the
stack pointer and the addresses of the strings, in order. -/
def pushArgs (d : PgDir) : List (List Byte) → Nat → Nat → List Nat → Mem →
    Except Fault (Option (Nat × List Nat) × Mem)
  | [], _, sp, at_, m => .ok (some (sp, at_), m)
  | arg :: rest, argc, sp, at_, m =>
    if argc ≥ MAXARG then
      .ok (none, m)
    else do
      let sp := (sp + 2 ^ 32 - (arg.length + 1) % 2 ^ 32) % 2 ^ 32 / 4 * 4
      let (copied, m) ← copyout d sp (arg ++ [0]) m
      if copied then
        pushArgs d rest (argc + 1) sp (at_ ++ [sp]) m
      else
        return (none, m)

/-- A word in memory. -/
def le32 (x : Nat) : List Byte :=
  [UInt8.ofNat x, UInt8.ofNat (x / 256), UInt8.ofNat (x / 65536), UInt8.ofNat (x / 16777216)]

/-- The stack of the new image: strings, `argv`, `argc` and a fake return address. -/
def buildStack (d : PgDir) (argv : List (List Byte)) (sz : Nat) (m : Mem) :
    Except Fault (Option Nat × Mem) := do
  let (pushed, m) ← pushArgs d argv 0 sz [] m
  match pushed with
  | none => return (none, m)
  | some (sp, strings) =>
    let argc := strings.length
    let argvAt := (sp + 2 ^ 32 - (argc + 1) * 4) % 2 ^ 32
    let ustack := [0xffffffff, argc, argvAt] ++ strings ++ [0]
    let sp := (sp + 2 ^ 32 - (3 + argc + 1) * 4) % 2 ^ 32
    let (copied, m) ← copyout d sp (ustack.flatMap le32) m
    if copied then return (some sp, m) else return (none, m)

/-- What `exec` builds from a file: the directory, the size and the stack pointer, or the jump to
`bad`. -/
def buildImage (file : File) (elf : List Byte) (argv : List (List Byte)) (s : Space) :
    Except Fault (Option (Nat × Nat) × Space) := do
  let (loaded, s) ← loadSegments file (le elf 44 2) (le elf 28 4) 0 s
  match loaded with
  | none => return (none, s)
  | some sz =>
    let sz := pgroundup sz
    let (sz, s) ← allocuvm sz ((sz + 2 * PGSIZE) % 2 ^ 32) s
    if sz = 0 then
      return (none, s)
    else
      let d ← clearpteu ((sz - 2 * PGSIZE) / PGSIZE) s.dir
      let (stack, m) ← buildStack d argv sz s.mem
      match stack with
      | none => return (none, ⟨d, m⟩)
      | some sp => return (some (sz, sp), ⟨d, m⟩)

/-- The last component of a path, cut to what `name` holds. -/
def baseName (path : List Byte) : List Byte :=
  ((path.reverse.takeWhile (· ≠ 47)).reverse).take 15

def exec (k : Kernel) (i : Slot) (file : Option File) (path : List Byte)
    (argv : List (List Byte)) : Except Fault (Int × Kernel) := do
  match file with
  | none => return (-1, k)
  | some file =>
    match file 0 sizeofElfhdr with
    | none => return (-1, k)
    | some elf =>
      if elf.length ≠ sizeofElfhdr ∨ le elf 0 4 ≠ ELF_MAGIC then
        return (-1, k)
      else
        let (made, m) ← setupkvm k.mem
        match made with
        | none => return (-1, { k with mem := m })
        | some d =>
          let (image, s) ← buildImage file elf argv ⟨d, m⟩
          match image with
          | none =>
            let m ← freevm s
            return (-1, { k with mem := m })
          | some (sz, sp) =>
            let old ← k.space i
            let k := k.setProc i { k.procs i with
              name := baseName path
              pgdir := some s.dir
              sz := sz
              eip := le elf 24 4
              esp := sp }
            let m ← freevm ⟨old.dir, s.mem⟩
            return (0, { k with mem := m })

/-! ## Shared memory -/

def findShm (k : Kernel) (id : Int) : Option (Fin NSHPAGE) :=
  (List.finRange NSHPAGE).find? fun i => decide ((k.shm i).id = id)

/-- The mapping both branches of `openshmem` make: the page of slot `j` at the end of the process.
On failure the call returns without releasing the lock. -/
def mapShm (k : Kernel) (i : Slot) (j : Fin NSHPAGE) : Except Fault (Bool × Kernel) := do
  let s ← k.space i
  let vaddr := pgroundup (k.procs i).sz
  let (mapped, s) ← mappages vaddr PGSIZE ((k.shm j).phys * PGSIZE) userPerm s
  return (mapped, k.setSpace i s)

/-- What a successful `openshmem` leaves in the process. -/
def attach (k : Kernel) (i : Slot) : Kernel :=
  let p := k.procs i
  k.setProc i { p with shmemaddr := pgroundup p.sz, sz := (p.sz + PGSIZE) % 2 ^ 32 }

/-- The address of the segment, or `none` for -1. -/
def openshmem (k : Kernel) (i : Slot) (id : Int) : Except Fault (Option Nat × Kernel) :=
  if k.shmHeld then
    .error .stuck
  else
    let vaddr := pgroundup (k.procs i).sz
    match findShm k id with
    | some j => do
      let k := k.setShm j { k.shm j with nAccess := (k.shm j).nAccess + 1 }
      let (mapped, k) ← mapShm k i j
      if mapped then return (some vaddr, attach k i)
      else return (none, { k with shmHeld := true })
    | none =>
      match findShm k 0 with
      | none => .ok (none, k)
      | some j =>
        match kalloc k.mem with
        | none => .ok (none, k.setShm j { k.shm j with id := id, got := none })
        | some (x, m) => do
          let k := { k with mem := m.fill x 0 }.setShm j { k.shm j with
            id := id
            phys := x
            got := some (id, x) }
          let (mapped, k) ← mapShm k i j
          if mapped then
            let k := k.setShm j { k.shm j with nAccess := (k.shm j).nAccess + 1 }
            return (some vaddr, attach k i)
          else
            return (none, { k with shmHeld := true })

/-- `*pte = 0`. Through a null pointer it is a store to address 0 of the process, which goes to its
first page or faults. -/
def clearEntry (v : Nat) (s : Space) : Except Fault Space :=
  match walkpgdir s.dir v with
  | some _ => .ok (s.store v .zero)
  | none =>
    match walkpgdir s.dir 0 with
    | some pte =>
      if pte.p && pte.w then .ok ⟨s.dir, s.mem.write pte.ppn 0 [0, 0, 0, 0]⟩
      else .error (.panic "trap")
    | none => .error (.panic "trap")

def closeshmem (k : Kernel) (i : Slot) (id : Int) : Except Fault (Int × Kernel) :=
  if k.shmHeld then
    .error .stuck
  else
    match findShm k id with
    | none => .ok (-1, k)
    | some j => do
      let s ← k.space i
      let s ← clearEntry (pgroundup (k.procs i).shmemaddr / PGSIZE) s
      let count := (k.shm j).nAccess - 1
      return (0, (k.setSpace i s).setShm j { k.shm j with
        nAccess := count
        id := if count = 0 then 0 else (k.shm j).id })

/-! ## Reading arguments -/

/-- The kernel reads a byte of the current process. -/
def load (s : Space) (va : Nat) : Except Fault Byte :=
  match walkpgdir s.dir (va / PGSIZE) with
  | some pte => if pte.p then .ok (s.mem.bytes pte.ppn (va % PGSIZE)) else .error (.panic "trap")
  | none => .error (.panic "trap")

/-- `none` is the result -1. -/
def fetchint (s : Space) (sz addr : Nat) : Except Fault (Option Nat) :=
  if addr ≥ sz ∨ (addr + 4) % 2 ^ 32 > sz then
    .ok none
  else do
    let b ← (List.range 4).mapM fun i => load s (addr + i)
    return some (le b 0 4)

/-- The loop of `fetchstr` over at most `n` bytes, `len` of them already seen. -/
def fetchstrLoop (s : Space) (addr : Nat) : Nat → Nat → Except Fault (Option Nat)
  | 0, _ => .ok none
  | n + 1, len => do
    let b ← load s (addr + len)
    if b = 0 then return some len else fetchstrLoop s addr n (len + 1)

def fetchstr (s : Space) (sz addr : Nat) : Except Fault (Option Nat) :=
  if addr ≥ sz then .ok none else fetchstrLoop s addr (sz - addr) 0

/-- The check `argptr` makes of a pointer and a size. -/
def argptrOk (sz addr : Nat) (size : Int) : Bool :=
  !(decide (size < 0) || decide (addr ≥ sz) || decide ((addr + size.toNat) % 2 ^ 32 > sz))

/-! ## The system -/

inductive Event where
  | openshmem (i : Slot) (id : Int)
  | closeshmem (i : Slot) (id : Int)
  | fork (i : Slot)
  | sbrk (i : Slot) (n : Int)
  | exec (i : Slot) (file : Option File) (path : List Byte) (argv : List (List Byte))
  | exit (i : Slot)
  | wait (i : Slot) (killed : Bool)

def Event.caller : Event → Slot
  | .openshmem i _ | .closeshmem i _ | .fork i | .sbrk i _ | .exec i _ _ _ | .exit i | .wait i _ => i

/-- Only a process that exists and has not exited makes calls. -/
def Kernel.CanCall (k : Kernel) (i : Slot) : Prop :=
  (k.procs i).state = .SLEEPING ∨ (k.procs i).state = .RUNNABLE ∨ (k.procs i).state = .RUNNING
deriving Decidable

/-- The state a call leaves, without the value it returns. -/
def perform (k : Kernel) : Event → Except Fault Kernel
  | .openshmem i id => (openshmem k i id).map Prod.snd
  | .closeshmem i id => (closeshmem k i id).map Prod.snd
  | .fork i => (fork k i).map Prod.snd
  | .sbrk i n => (growproc k i n).map Prod.snd
  | .exec i file path argv => (exec k i file path argv).map Prod.snd
  | .exit i => exit k i
  | .wait i killed => (wait k i killed).map Prod.snd

def step (k : Kernel) (e : Event) : Option Kernel :=
  if k.CanCall e.caller then
    match perform k e with
    | .ok k' => some k'
    | .error _ => none
  else
    none

/-- A slot no process has used. -/
def noProc : Proc where
  state := .UNUSED
  pid := 0
  parent := none
  sz := 0
  pgdir := none
  kstack := none
  shmemaddr := 0
  name := []
  eip := 0
  esp := 0

/-- The kernel before `userinit`. -/
def blank (m : Mem) : Kernel where
  mem := m
  procs := fun _ => noProc
  nextpid := 1
  initproc := 0
  shm := fun _ => ⟨0, 0, 0, none⟩
  shmHeld := false

/-- `userinit`, with `initcode` as the first program. -/
def userinit (m : Mem) (initcode : List Byte) : Except Fault Kernel := do
  match allocproc (blank m) with
  | (none, _) => .error .stray
  | (some i, k) =>
    let (made, m) ← setupkvm k.mem
    match made with
    | none => .error (.panic "userinit: out of memory?")
    | some d =>
      let s ← inituvm initcode ⟨d, m⟩
      let k := k.setSpace i s
      return { k with initproc := i }.setProc i { k.procs i with
        sz := PGSIZE
        eip := 0
        esp := PGSIZE
        -- "initcode"
        name := [105, 110, 105, 116, 99, 111, 100, 101]
        state := .RUNNABLE }

/-- The free list before `userinit`. `kinit1` and `kinit2` put the pages between the kernel and
`PHYSTOP` on it, each once; the few that `kvmalloc` and `startothers` took are gone. -/
structure Booted (m : Mem) : Prop where
  nodup : m.free.Nodup
  plenty : 2 ^ 15 ≤ m.free.length
  range : ∀ x ∈ m.free, m.layout.kernEnd ≤ x * PGSIZE ∧ x * PGSIZE < PHYSTOP
  linked : m.layout.Ok
  clean : m.doubled = false

def Start (k : Kernel) : Prop :=
  ∃ m initcode, Booted m ∧ userinit m initcode = .ok k

def system : System Kernel Event where
  start := Start
  next := step

end Xv6.Vm
