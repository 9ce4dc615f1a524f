/-
# Xv6.Spinlock -- spinlock.c: interrupt nesting and the self-acquire panic

`pushcli` and `popcli` nest on a per-CPU counter, and a spinlock records the CPU that took it.
`acquire` panics when its own CPU already holds the lock. Otherwise its `xchg` loop ends as soon
as the holder has let go, so what `acquire` returns is the lock taken by this CPU; the wait itself
changes nothing on this CPU. The interleaved view, where a waiting CPU is visible, is `attempt`.
-/
import Xv6.Param

namespace Xv6
set_option autoImplicit false

abbrev CpuId := Fin NCPU

/-- The interrupt state of one CPU: `FL_IF` of its flags, and `struct cpu`'s two counters. -/
structure Cpu where
  interrupts : Bool
  ncli : Int
  intena : Bool
  deriving DecidableEq, Repr

def pushcli (c : Cpu) : Cpu where
  interrupts := false
  ncli := c.ncli + 1
  intena := if c.ncli = 0 then c.interrupts else c.intena

def popcli (c : Cpu) : Except Panic Cpu :=
  if c.interrupts then
    .error "popcli - interruptible"
  else if c.ncli - 1 < 0 then
    .error "popcli"
  else
    .ok { c with
      ncli := c.ncli - 1
      interrupts := decide (c.ncli - 1 = 0) && c.intena }

structure Spinlock where
  locked : Bool
  cpu : Option CpuId
  deriving DecidableEq, Repr

def initlock : Spinlock := ⟨false, none⟩

def takenBy (me : CpuId) : Spinlock := ⟨true, some me⟩

/-- The test inside `holding`, without its `pushcli`/`popcli` pair. -/
def Spinlock.heldBy (lk : Spinlock) (me : CpuId) : Bool :=
  lk.locked && decide (lk.cpu = some me)

def holding (me : CpuId) (lk : Spinlock) (c : Cpu) : Except Panic (Bool × Cpu) := do
  let c ← popcli (pushcli c)
  return (lk.heldBy me, c)

def acquire (me : CpuId) (lk : Spinlock) (c : Cpu) : Except Panic (Spinlock × Cpu) := do
  let (held, c) ← holding me lk (pushcli c)
  if held then .error "acquire"
  return (takenBy me, c)

def release (me : CpuId) (lk : Spinlock) (c : Cpu) : Except Panic (Spinlock × Cpu) := do
  let (held, c) ← holding me lk c
  if !held then .error "release"
  let c ← popcli c
  return (initlock, c)

/-- What one pass through the body of `acquire` does while other CPUs run. -/
inductive Attempt where
  | panics
  | spins
  | takes
  deriving DecidableEq, Repr

def attempt (me : CpuId) (lk : Spinlock) : Attempt :=
  if lk.heldBy me then .panics else if lk.locked then .spins else .takes

@[simp] theorem heldBy_takenBy (me : CpuId) : (takenBy me).heldBy me = true := by
  simp [takenBy, Spinlock.heldBy]

@[simp] theorem heldBy_initlock (me : CpuId) : initlock.heldBy me = false := rfl

variable {me : CpuId} {lk : Spinlock} {c : Cpu}

theorem heldBy_iff : lk.heldBy me = true ↔ lk = takenBy me := by
  obtain ⟨locked, cpu⟩ := lk
  simp [Spinlock.heldBy, takenBy]

theorem takenBy_injective {you : CpuId} (same : takenBy me = takenBy you) : me = you := by
  simpa [takenBy] using same

/-! ## Inside a handler

An interrupt handler and a critical section run with interrupts off, where `pushcli` followed by
`popcli` gives the CPU back, up to the saved flag at nesting depth zero. -/

/-- Interrupts are off and the counter has not underflowed. -/
structure Cpu.Masked (c : Cpu) : Prop where
  off : c.interrupts = false
  depth : 0 ≤ c.ncli

section

variable (masked : c.Masked)
include masked

theorem Cpu.Masked.pushcli : (pushcli c).Masked :=
  ⟨rfl, by have := masked.depth; simp only [Xv6.pushcli]; omega⟩

theorem popcli_pushcli :
    popcli (pushcli c) = .ok { c with intena := if c.ncli = 0 then false else c.intena } := by
  obtain ⟨off, depth⟩ := masked
  by_cases zero : c.ncli = 0
  · simp [popcli, Xv6.pushcli, off, zero]
  · simp [popcli, Xv6.pushcli, off, zero, depth]

theorem popcli_pushcli_nested (nested : c.ncli ≠ 0) : popcli (pushcli c) = .ok c := by
  rw [popcli_pushcli masked, if_neg nested]

theorem pushcli_nested : (pushcli c).ncli ≠ 0 := by
  have := masked.depth
  simp only [pushcli]
  omega

theorem acquire_free (free : lk.heldBy me = false) :
    acquire me lk c = .ok (takenBy me, pushcli c) := by
  simp [acquire, holding, popcli_pushcli_nested masked.pushcli (pushcli_nested masked), free,
    bind, Except.bind, pure, Except.pure]

theorem acquire_held (held : lk.heldBy me = true) : acquire me lk c = .error "acquire" := by
  simp [acquire, holding, popcli_pushcli_nested masked.pushcli (pushcli_nested masked), held,
    bind, Except.bind, pure, Except.pure]

/-- Releasing right after taking: the CPU is back where `pushcli` found it. -/
theorem release_pushcli (held : lk.heldBy me = true) :
    release me lk (pushcli c) =
      .ok (initlock, { c with intena := if c.ncli = 0 then false else c.intena }) := by
  simp [release, holding, popcli_pushcli_nested masked.pushcli (pushcli_nested masked),
    popcli_pushcli masked, held, bind, Except.bind, pure, Except.pure]

end

end Xv6
