/-
# Xv6.Vm.Memory -- kalloc.c and vm.c: pages, page tables, user memory

Physical memory is a list of free pages and the bytes of every page. A page is named by its number
(`PTE_ADDR(pa) >> 12`), and so is a virtual page. A page directory is a value: its own page and, for
every present directory entry, a page table with its own page and its entries; the kernel pages that
hold these tables are accounted for by their numbers.

The directory entries of this code always carry `PTE_P | PTE_W | PTE_U`, so only presence is kept.
Of the twelve flag bits of an entry the three that the code sets are kept.

Addresses and sizes are `uint`: natural numbers, reduced modulo `2 ^ 32` where the code can wrap.
-/
import Xv6.Param

namespace Xv6.Vm
set_option autoImplicit false

abbrev PGSIZE : Nat := 4096
abbrev NPDENTRIES : Nat := 1024
abbrev NPTENTRIES : Nat := 1024

abbrev EXTMEM : Nat := 0x100000
abbrev PHYSTOP : Nat := 0xE000000
abbrev DEVSPACE : Nat := 0xFE000000
abbrev KERNBASE : Nat := 0x80000000
abbrev KERNLINK : Nat := KERNBASE + EXTMEM

/-- The first virtual page of the kernel. -/
abbrev KERNPAGE : Nat := KERNBASE / PGSIZE

abbrev Byte := UInt8

def pgroundup (a : Nat) : Nat := (a + PGSIZE - 1) % 2 ^ 32 / PGSIZE * PGSIZE

/-- The number of pages below address `a`, the last one counted even if `a` cuts it. -/
def pages (a : Nat) : Nat := (a + PGSIZE - 1) / PGSIZE

/-- How a kernel function ends other than by returning. -/
inductive Fault where
  | panic (text : Panic)
  /-- `uva2ka` reads an entry through the null pointer `walkpgdir` gave it -/
  | stray
  /-- a lock is wanted that a failed call never released -/
  | stuck
  deriving DecidableEq, Repr

/-! ## Physical pages -/

/-- Where the linker put the kernel: `V2P(end)` and `V2P(data)`. -/
structure Layout where
  kernEnd : Nat
  data : Nat
  deriving DecidableEq, Repr

/-- The data of the kernel starts at a page, above its text and below its end. -/
structure Layout.Ok (l : Layout) : Prop where
  text : EXTMEM < l.data
  data : l.data < l.kernEnd
  kernEnd : l.kernEnd ≤ PHYSTOP
  aligned : l.data % PGSIZE = 0

structure Mem where
  layout : Layout
  /-- `kmem.freelist`, from its head -/
  free : List Nat
  bytes : Nat → Nat → Byte
  /-- ghost: `kfree` was applied to a page that was already free -/
  doubled : Bool

namespace Mem

def setPage (m : Mem) (x : Nat) (page : Nat → Byte) : Mem :=
  { m with bytes := Function.update m.bytes x page }

/-- `memset(x, b, PGSIZE)` -/
def fill (m : Mem) (x : Nat) (b : Byte) : Mem := m.setPage x fun _ => b

/-- `memmove(x + at, text, length)`, inside one page. -/
def write (m : Mem) (x : Nat) (start : Nat) (text : List Byte) : Mem :=
  m.setPage x fun i =>
    if start ≤ i then (text[i - start]?).getD (m.bytes x i) else m.bytes x i

end Mem

def kalloc (m : Mem) : Option (Nat × Mem) :=
  match m.free with
  | [] => none
  | x :: rest => some (x, { m with free := rest })

/-- The link the free list stores in the page is not kept: nothing reads it but `kalloc`. -/
def kfree (x : Nat) (m : Mem) : Except Fault Mem :=
  if x * PGSIZE < m.layout.kernEnd ∨ PHYSTOP ≤ x * PGSIZE then
    .error (.panic "kfree")
  else
    .ok { m.fill x 1 with
      free := x :: m.free
      doubled := m.doubled || decide (x ∈ m.free) }

/-! ## Page tables -/

structure Pte where
  ppn : Nat
  p : Bool
  w : Bool
  u : Bool
  deriving DecidableEq, Repr

def Pte.zero : Pte := ⟨0, false, false, false⟩

structure Perm where
  w : Bool
  u : Bool
  deriving DecidableEq, Repr

/-- `PTE_W | PTE_U` -/
def userPerm : Perm := ⟨true, true⟩

structure PageTable where
  page : Nat
  pte : Nat → Pte

structure PgDir where
  page : Nat
  tab : Nat → Option PageTable

/-- `PDX` and `PTX` of an address in virtual page `v`. -/
def pdx (v : Nat) : Nat := v / NPTENTRIES % NPDENTRIES

def ptx (v : Nat) : Nat := v % NPTENTRIES

/-- `walkpgdir(pgdir, va, 0)`: the entry the result points to; `none` is the null pointer. -/
def walkpgdir (d : PgDir) (v : Nat) : Option Pte := (d.tab (pdx v)).map fun t => t.pte (ptx v)

/-- A store through the pointer `walkpgdir` returned. -/
def PgDir.store (d : PgDir) (v : Nat) (pte : Pte) : PgDir :=
  match d.tab (pdx v) with
  | none => d
  | some t =>
    let t := { t with pte := Function.update t.pte (ptx v) pte }
    { d with tab := Function.update d.tab (pdx v) (some t) }

/-- A new directory entry for an empty page table in page `x`. -/
def PgDir.addTable (d : PgDir) (i x : Nat) : PgDir :=
  { d with tab := Function.update d.tab i (some ⟨x, fun _ => .zero⟩) }

/-- A page directory at work, with the memory it is built from. -/
structure Space where
  dir : PgDir
  mem : Mem

def Space.store (s : Space) (v : Nat) (pte : Pte) : Space := { s with dir := s.dir.store v pte }

/-- `walkpgdir(pgdir, va, 1)` -/
def walkpgdirAlloc (v : Nat) (s : Space) : Option Space :=
  match s.dir.tab (pdx v) with
  | some _ => some s
  | none =>
    match kalloc s.mem with
    | none => none
    | some (x, m) => some ⟨s.dir.addTable (pdx v) x, m.fill x 0⟩

/-- `n` rounds of `mappages`, from virtual page `v` and physical page `x` on. The result tells
0 from -1; what was mapped before a failure stays. -/
def mapLoop (perm : Perm) : Nat → Nat → Nat → Space → Except Fault (Bool × Space)
  | 0, _, _, s => .ok (true, s)
  | n + 1, v, x, s =>
    match walkpgdirAlloc v s with
    | none => .ok (false, s)
    | some s =>
      if (walkpgdir s.dir v).any (·.p) then
        .error (.panic "remap")
      else
        mapLoop perm n (v + 1) ((x + 1) % 2 ^ 20) (s.store v ⟨x, true, perm.w, perm.u⟩)

def mappages (va size pa : Nat) (perm : Perm) (s : Space) : Except Fault (Bool × Space) :=
  let first := va / PGSIZE
  let last := (va + size + 2 ^ 32 - 1) % 2 ^ 32 / PGSIZE
  mapLoop perm ((last + 2 ^ 20 - first) % 2 ^ 20 + 1) first (pa / PGSIZE) s

/-! ## Taking memory away -/

/-- The loop of `deallocuvm`. A missing page table is skipped in one step. Every round moves on by
at least a page, so the pages below `oldsz` bound the rounds. -/
def deallocLoop (oldsz : Nat) : Nat → Nat → Space → Except Fault Space
  | 0, _, s => .ok s
  | n + 1, v, s =>
    if v * PGSIZE < oldsz then
      match walkpgdir s.dir v with
      | none => deallocLoop oldsz n ((pdx v + 1) * NPTENTRIES) s
      | some pte =>
        if pte.p then
          if pte.ppn = 0 then
            .error (.panic "kfree")
          else do
            let m ← kfree pte.ppn s.mem
            deallocLoop oldsz n (v + 1) (Space.store ⟨s.dir, m⟩ v .zero)
        else
          deallocLoop oldsz n (v + 1) s
    else
      .ok s

def deallocuvm (oldsz newsz : Nat) (s : Space) : Except Fault (Nat × Space) :=
  if newsz ≥ oldsz then
    .ok (oldsz, s)
  else do
    let s ← deallocLoop oldsz (pages oldsz) (pgroundup newsz / PGSIZE) s
    return (newsz, s)

/-- The page tables of a directory, freed in order. -/
def freeTables (d : PgDir) : List Nat → Mem → Except Fault Mem
  | [], m => .ok m
  | i :: rest, m =>
    match d.tab i with
    | none => freeTables d rest m
    | some t => do
      let m ← kfree t.page m
      freeTables d rest m

def freevm (s : Space) : Except Fault Mem := do
  let (_, s) ← deallocuvm KERNBASE 0 s
  let m ← freeTables s.dir (List.range NPDENTRIES) s.mem
  kfree s.dir.page m

/-! ## Building page tables -/

/-- The loop of `allocuvm` over `n` pages from `v` on. The result is the new size, 0 on failure. -/
def allocLoop (oldsz newsz : Nat) : Nat → Nat → Space → Except Fault (Nat × Space)
  | 0, _, s => .ok (newsz, s)
  | n + 1, v, s =>
    match kalloc s.mem with
    | none => do
      let (_, s) ← deallocuvm newsz oldsz s
      return (0, s)
    | some (x, m) => do
      let (mapped, s) ← mappages (v * PGSIZE) PGSIZE (x * PGSIZE) userPerm ⟨s.dir, m.fill x 0⟩
      if mapped then
        allocLoop oldsz newsz n (v + 1) s
      else
        let (_, s) ← deallocuvm newsz oldsz s
        let m ← kfree x s.mem
        return (0, ⟨s.dir, m⟩)

def allocuvm (oldsz newsz : Nat) (s : Space) : Except Fault (Nat × Space) :=
  if newsz ≥ KERNBASE then
    .ok (0, s)
  else if newsz < oldsz then
    .ok (oldsz, s)
  else
    let v := pgroundup oldsz / PGSIZE
    allocLoop oldsz newsz (pages newsz - v) v s

/-- One row of `kmap`. -/
structure KMap where
  virt : Nat
  physStart : Nat
  physEnd : Nat
  perm : Perm

def kmap (l : Layout) : List KMap :=
  [⟨KERNBASE, 0, EXTMEM, ⟨true, false⟩⟩, ⟨KERNLINK, EXTMEM, l.data, ⟨false, false⟩⟩,
    ⟨KERNBASE + l.data, l.data, PHYSTOP, ⟨true, false⟩⟩, ⟨DEVSPACE, DEVSPACE, 0, ⟨true, false⟩⟩]

def mapKernel : List KMap → Space → Except Fault (Bool × Space)
  | [], s => .ok (true, s)
  | k :: rest, s => do
    let size := (k.physEnd + 2 ^ 32 - k.physStart) % 2 ^ 32
    let (mapped, s) ← mappages k.virt size k.physStart k.perm s
    if mapped then mapKernel rest s else return (false, s)

/-- A directory with the kernel's mappings; `none` is the null pointer. -/
def setupkvm (m : Mem) : Except Fault (Option PgDir × Mem) :=
  match kalloc m with
  | none => .ok (none, m)
  | some (x, m) =>
    if KERNBASE + PHYSTOP > DEVSPACE then
      .error (.panic "PHYSTOP too high")
    else do
      let (mapped, s) ← mapKernel (kmap m.layout) ⟨⟨x, fun _ => none⟩, m.fill x 0⟩
      if mapped then
        return (some s.dir, s.mem)
      else
        return (none, ← freevm s)

/-- `inituvm` for the first process; its `kalloc` is not checked. -/
def inituvm (init : List Byte) (s : Space) : Except Fault Space :=
  if init.length ≥ PGSIZE then
    .error (.panic "inituvm: more than a page")
  else
    match kalloc s.mem with
    | none => .error .stray
    | some (x, m) => do
      let (_, s) ← mappages 0 PGSIZE (x * PGSIZE) userPerm ⟨s.dir, m.fill x 0⟩
      return ⟨s.dir, s.mem.write x 0 init⟩

/-- The loop of `copyuvm` over `n` pages from `v` on; `false` is the jump to `bad`. -/
def copyLoop (src : PgDir) : Nat → Nat → Space → Except Fault (Bool × Space)
  | 0, _, s => .ok (true, s)
  | n + 1, v, s =>
    match walkpgdir src v with
    | none => .error (.panic "copyuvm: pte should exist")
    | some pte =>
      if pte.p then
        match kalloc s.mem with
        | none => .ok (false, s)
        | some (x, m) => do
          let (mapped, s) ← mappages (v * PGSIZE) PGSIZE (x * PGSIZE) ⟨pte.w, pte.u⟩
            ⟨s.dir, m.setPage x (m.bytes pte.ppn)⟩
          if mapped then
            copyLoop src n (v + 1) s
          else
            let m ← kfree x s.mem
            return (false, ⟨s.dir, m⟩)
      else
        .error (.panic "copyuvm: page not present")

def copyuvm (src : PgDir) (sz : Nat) (m : Mem) : Except Fault (Option PgDir × Mem) := do
  let (made, m) ← setupkvm m
  match made with
  | none => return (none, m)
  | some d =>
    let (copied, s) ← copyLoop src (pages sz) 0 ⟨d, m⟩
    if copied then
      return (some s.dir, s.mem)
    else
      return (none, ← freevm s)

def clearpteu (v : Nat) (d : PgDir) : Except Fault PgDir :=
  match walkpgdir d v with
  | none => .error (.panic "clearpteu")
  | some pte => .ok (d.store v { pte with u := false })

/-! ## User memory from the kernel -/

/-- The physical page behind user page `v`; `none` is the null pointer. -/
def uva2ka (d : PgDir) (v : Nat) : Except Fault (Option Nat) :=
  match walkpgdir d v with
  | none => .error .stray
  | some pte => if pte.p && pte.u then .ok (some pte.ppn) else .ok none

/-- The loop of `copyout`; each round copies at least a byte, so the length bounds the rounds. -/
def copyoutLoop (d : PgDir) : Nat → Nat → List Byte → Mem → Except Fault (Bool × Mem)
  | 0, _, _, m => .ok (true, m)
  | n + 1, va, buf, m =>
    if buf = [] then
      .ok (true, m)
    else do
      let start := va % PGSIZE
      match ← uva2ka d (va / PGSIZE) with
      | none => return (false, m)
      | some x =>
        let count := min (PGSIZE - start) buf.length
        copyoutLoop d n ((va - start + PGSIZE) % 2 ^ 32) (buf.drop count)
          (m.write x start (buf.take count))

def copyout (d : PgDir) (va : Nat) (buf : List Byte) (m : Mem) : Except Fault (Bool × Mem) :=
  copyoutLoop d buf.length va buf m

/-- What `readi(ip, dst, off, n)` stores, or `none` when it returns -1. -/
abbrev File := Nat → Nat → Option (List Byte)

/-- The loop of `loaduvm` over `n` pages, `i` bytes in; `false` is the result -1. -/
def loadLoop (d : PgDir) (file : File) (addr offset sz : Nat) :
    Nat → Nat → Mem → Except Fault (Bool × Mem)
  | 0, _, m => .ok (true, m)
  | n + 1, i, m =>
    match walkpgdir d ((addr + i) % 2 ^ 32 / PGSIZE) with
    | none => .error (.panic "loaduvm: address should exist")
    | some pte =>
      let count := min (sz - i) PGSIZE
      match file ((offset + i) % 2 ^ 32) count with
      | none => .ok (false, m)
      | some text =>
        let m := m.write pte.ppn 0 text
        if text.length = count then
          loadLoop d file addr offset sz n (i + PGSIZE) m
        else
          .ok (false, m)

def loaduvm (d : PgDir) (file : File) (addr offset sz : Nat) (m : Mem) :
    Except Fault (Bool × Mem) :=
  if addr % PGSIZE ≠ 0 then
    .error (.panic "loaduvm: addr must be page aligned")
  else
    loadLoop d file addr offset sz (pages sz) 0 m

end Xv6.Vm
