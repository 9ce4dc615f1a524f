/-
# Xv6.Vm.Calls -- what fork, sbrk, exec, exit and wait keep

The books of the whole kernel, and what holds of every slot of the process table between two calls.
`fork` gives its child fresh pages only. `sbrk` with a smaller size, a successful `exec` and the `wait`
that finds a zombie take mappings down, and `deallocuvm` frees every page it unmaps; so they keep the
books only if those mappings are private: the only ones of their page, and the page not recorded in
the shared-memory table. None of the five calls changes who maps a recorded page.
-/
import Xv6.Vm.Construction

namespace Xv6.Vm
open Lib Kernel
open Sched (ProcState)
set_option autoImplicit false

/-! ## The kernel's books -/

namespace Kernel

/-- The physical page behind user page `v` of process `i`. -/
def page (k : Kernel) (i : Slot) (v : Nat) : Option Nat :=
  if v < KERNPAGE then (k.procs i).pgdir.bind fun d => pageAt d v else none

/-- The books between two calls: no directory is under construction and the hand is empty. -/
def env (k : Kernel) (sharing : User → Fin NSHPAGE → Prop) : Env where
  layout := k.mem.layout
  free := k.mem.free
  doubled := k.mem.doubled
  hand := none
  kstack i := (k.procs i).kstack
  dirs w := w.bind fun i => (k.procs i).pgdir
  record r := (k.shm r).phys
  sharing := sharing

/-- The page of `(i, v)` has no other mapping and is not recorded in the shared-memory table. -/
def Private (k : Kernel) (i : Slot) (v : Nat) : Prop :=
  ∀ x, k.page i v = some x →
    (∀ j u, k.page j u = some x → j = i ∧ u = v) ∧ ∀ r, (k.shm r).phys ≠ x

end Kernel

section Books

variable {k k' : Kernel} {S : User → Fin NSHPAGE → Prop} {A : User → Prop} {i j : Slot} {s : Space}
  {v x : Nat} {m : Mem}

theorem env_user (i : Slot) (v : Nat) : (k.env S).user (some i, v) = k.page i v := rfl

theorem env_user_none (v : Nat) : (k.env S).user (none, v) = none := by
  simp [Env.user, env]

theorem alone_of_private (alone : k.Private i v) : (k.env S).books.Alone (some i, v) := by
  intro x uses
  obtain ⟨only, notNamed⟩ := alone x uses
  refine ⟨?_, notNamed⟩
  rintro ⟨w, u⟩ uses'
  cases w with
  | none => exact absurd ((env_user_none u).symm.trans uses') (by simp)
  | some j =>
    obtain ⟨rfl, rfl⟩ := only j u uses'
    rfl

section Update

variable (others : ∀ l, l ≠ i → k'.procs l = k.procs l)
  (stack : (k'.procs i).kstack = (k.procs i).kstack)
  (record : ∀ r, (k'.shm r).phys = (k.shm r).phys)
include others stack record

/-- A kernel that differs in the memory and in the directory of one process. -/
theorem env_eq_update {dir : Option PgDir} (mem : k'.mem = m) (here : (k'.procs i).pgdir = dir) :
    k'.env S = { k.env S with
      layout := m.layout
      free := m.free
      doubled := m.doubled
      dirs := Function.update (k.env S).dirs (some i) dir } := by
  simp only [env, Env.mk.injEq, mem, true_and, and_true]
  refine ⟨funext fun l => ?_, funext fun w => ?_, funext record⟩
  · by_cases same : l = i
    · rw [same, stack]
    · rw [others l same]
  · cases w with
    | none => simp
    | some l =>
      by_cases same : l = i
      · simp [same, here]
      · simp [same, others l same]

/-- A process has another address space. -/
theorem env_eq_place (mem : k'.mem = s.mem) (here : (k'.procs i).pgdir = some s.dir) :
    k'.env S = (k.env S).place (some i) s :=
  env_eq_update others stack record mem here

/-- A process has no address space. -/
theorem env_eq_remove (mem : k'.mem = m) (here : (k'.procs i).pgdir = none) :
    k'.env S = (k.env S).remove (some i) m :=
  env_eq_update others stack record mem here

end Update

theorem env_remove_self (noDir : (k.procs i).pgdir = none) :
    (k.env S).remove (some i) k.mem = k.env S :=
  (env_eq_remove (fun _ _ => rfl) rfl (fun _ => rfl) rfl noDir).symm

/-- Only the memory has changed. -/
theorem env_eq_clear (m : Mem) : ({ k with mem := m } : Kernel).env S = (k.env S).remove none m := by
  simp only [env, Env.remove, Env.mk.injEq, true_and, and_true]
  funext w
  cases w with
  | none => simp
  | some l => simp

/-- Nothing the books speak of has changed. -/
theorem env_eq (mem : k'.mem = k.mem) (kstack : ∀ l, (k'.procs l).kstack = (k.procs l).kstack)
    (dirs : ∀ l, (k'.procs l).pgdir = (k.procs l).pgdir)
    (record : ∀ r, (k'.shm r).phys = (k.shm r).phys) : k'.env S = k.env S := by
  simp only [env, Env.mk.injEq, mem, true_and, and_true]
  refine ⟨funext kstack, ?_, funext record⟩
  funext w
  cases w with
  | none => rfl
  | some l => exact dirs l

theorem env_user_congr (dirs : ∀ l, (k'.procs l).pgdir = (k.procs l).pgdir) :
    (k'.env S).user = (k.env S).user := by
  funext place
  obtain ⟨w, u⟩ := place
  cases w with
  | none => rw [env_user_none, env_user_none]
  | some l => simp only [env_user, page, dirs]

/-- A process gets a kernel stack. -/
theorem Kept.takeKstack (kept : Kept (k.env S) A) (vacant : (k.procs j).kstack = none)
    (taken : kalloc k.mem = some (x, k'.mem))
    (kstack : ∀ l, (k'.procs l).kstack = if l = j then some x else (k.procs l).kstack)
    (dirs : ∀ l, (k'.procs l).pgdir = (k.procs l).pgdir)
    (record : ∀ r, (k'.shm r).phys = (k.shm r).phys) : Kept (k'.env S) A := by
  obtain ⟨list, fields⟩ := kalloc_eq_some taken
  have users : (k'.env S).user = (k.env S).user := env_user_congr dirs
  have owners : (k'.env S).own = Function.update (k.env S).own (.kstack j) (some x) := by
    funext o
    cases o with
    | hand => rfl
    | kstack l =>
      by_cases same : l = j
      · simp [Env.own, env, kstack, same]
      · simp [Env.own, env, kstack, same]
    | dir w | table w t => cases w <;> simp [Env.own, env, dirs]
  have books : (k'.env S).books =
      { (k.env S).books with
        free := k'.mem.free
        own := Function.update (k.env S).books.own (.kstack j) (some x) } := by
    ext1
    · rfl
    · exact owners
    · exact users
    · exact funext record
  refine ⟨⟨?_, ?_, ?_, ?_⟩, ?_⟩
  · rw [books]
    exact kept.sound.books.take list vacant
  · change k'.mem.doubled = false
    rw [fields]
    exact kept.sound.clean
  · change k'.mem.layout.Ok
    rw [fields]
    exact kept.sound.linked
  · rw [users]
    intro u r
    rw [show (k'.env S).record r = (k.env S).record r from record r]
    exact kept.sound.shared u r
  · rw [books]
    exact kept.alone

/-- A process gives its kernel stack back. -/
theorem Kept.giveKstack (kept : Kept (k.env S) A) (owned : (k.procs j).kstack = some x)
    (freed : kfree x k.mem = .ok k'.mem)
    (kstack : ∀ l, (k'.procs l).kstack = if l = j then none else (k.procs l).kstack)
    (dirs : ∀ l, (k'.procs l).pgdir = (k.procs l).pgdir)
    (record : ∀ r, (k'.shm r).phys = (k.shm r).phys) : Kept (k'.env S) A := by
  have isOwned : (k.env S).own (.kstack j) = some x := owned
  refine kept.give isOwned freed rfl rfl rfl ?_ ?_ ?_
  · simp only [env, Env.mk.injEq, true_and, and_true]
    exact funext record
  · intro o y owns
    cases o with
    | hand => exact ⟨by simp, owns⟩
    | kstack l =>
      by_cases same : l = j
      · simp [Env.own, env, kstack, same] at owns
      · refine ⟨by simpa using same, ?_⟩
        simpa [Env.own, env, kstack, same] using owns
    | dir w | table w t =>
      refine ⟨by simp, ?_⟩
      cases w with
      | none => exact owns
      | some l => simpa [Env.own, env, dirs] using owns
  · exact env_user_congr dirs

end Books

/-! ## What every call keeps -/

/-- What holds of every slot of the process table. -/
structure Proc.Ok (p : Proc) : Prop where
  sized : ∀ d, p.pgdir = some d → Sized p.sz d
  unused : p.state = .UNUSED → p.pgdir = none ∧ p.kstack = none
  used : p.state ≠ .UNUSED → p.pgdir ≠ none
  shmem : ∃ v, v < KERNPAGE ∧ p.shmemaddr = v * PGSIZE

/-- The invariant between two calls; `S` says who maps which recorded page. -/
structure Inv (S : User → Fin NSHPAGE → Prop) (k : Kernel) : Prop where
  sound : (k.env S).Sound
  procs : ∀ i, (k.procs i).Ok

/-- The invariant, whoever maps the recorded pages. -/
def Kernel.Sane (k : Kernel) : Prop := ∃ S, Inv S k

/-- The process has all the pages below its size. -/
def Proc.Full (p : Proc) : Prop := ∀ d, p.pgdir = some d → Vm.Full p.sz d

def Kernel.Full (k : Kernel) : Prop := ∀ i, (k.procs i).Full

/-- A call that leaves shared memory alone: the table, and who maps its pages. -/
structure Quiet (S : User → Fin NSHPAGE → Prop) (k k' : Kernel) : Prop where
  inv : Inv S k'
  shm : k'.shm = k.shm
  held : k'.shmHeld = k.shmHeld
  zombie : ∀ i, (k'.procs i).state = .ZOMBIE → (k.procs i).state = .ZOMBIE

section Calls

variable {k k' : Kernel} {S : User → Fin NSHPAGE → Prop} {i j : Slot}
  {e : Event} {d' : PgDir} {n : Int}

theorem step_eq_some (stepped : step k e = some k') :
    k.CanCall e.caller ∧ perform k e = .ok k' := by
  unfold step at stepped
  split at stepped
  · rename_i can
    split at stepped
    · rename_i ran
      cases stepped
      exact ⟨can, ran⟩
    · cases stepped
  · cases stepped

theorem step_of_perform (can : k.CanCall e.caller) (ran : perform k e = .ok k') :
    step k e = some k' := by
  rw [step, if_pos can, ran]

theorem Kernel.CanCall.ne_unused (can : k.CanCall i) : (k.procs i).state ≠ .UNUSED := by
  intro isUnused
  simp [Kernel.CanCall, isUnused] at can

/-- Who makes a call has a page directory. -/
theorem Inv.dir (inv : Inv S k) (can : k.CanCall i) : ∃ d, (k.procs i).pgdir = some d :=
  Option.ne_none_iff_exists'.mp ((inv.procs i).used can.ne_unused)

/-- The books with nobody's mappings singled out. -/
theorem Inv.kept (inv : Inv S k) : Kept (k.env S) fun _ => False :=
  ⟨inv.sound, fun _ none_ => none_.elim⟩

theorem firstSlot_spec {test : Slot → Bool} (found : firstSlot test = some i) : test i = true :=
  List.find?_some found

variable {s : Space} {m : Mem} {d : PgDir} {lo sz : Nat} {r : Int} {A : User → Prop}

theorem space_eq_ok (ran : k.space i = .ok s) : (k.procs i).pgdir = some s.dir ∧ s.mem = k.mem := by
  unfold space at ran
  split at ran
  · cases ran
  · rename_i d found
    cases ran
    exact ⟨found, rfl⟩

/-- Two kernels with the same address spaces. -/
structure SameSpaces (k k' : Kernel) : Prop where
  mem : k'.mem = k.mem
  shm : k'.shm = k.shm
  kstack : ∀ l, (k'.procs l).kstack = (k.procs l).kstack
  pgdir : ∀ l, (k'.procs l).pgdir = (k.procs l).pgdir
  sz : ∀ l, (k'.procs l).sz = (k.procs l).sz
  unused : ∀ l, (k'.procs l).state = .UNUSED ↔ (k.procs l).state = .UNUSED
  shmem : ∀ l, (k'.procs l).shmemaddr = (k.procs l).shmemaddr

theorem SameSpaces.inv (same : SameSpaces k k') (inv : Inv S k) : Inv S k' := by
  refine ⟨?_, fun l => ⟨?_, ?_, ?_, ?_⟩⟩
  · rw [env_eq same.mem same.kstack same.pgdir fun r => by rw [same.shm]]
    exact inv.sound
  · intro d found
    rw [same.sz]
    exact (inv.procs l).sized d (same.pgdir l ▸ found)
  · intro isUnused
    rw [same.pgdir, same.kstack]
    exact (inv.procs l).unused ((same.unused l).mp isUnused)
  · intro isUsed
    rw [same.pgdir]
    exact (inv.procs l).used fun isUnused => isUsed ((same.unused l).mpr isUnused)
  · rw [same.shmem]
    exact (inv.procs l).shmem

theorem SameSpaces.full (same : SameSpaces k k') (full : k.Full) : k'.Full := by
  intro l d found
  rw [same.sz]
  exact full l d (same.pgdir l ▸ found)

/-- One slot has changed, and the books are sound. -/
theorem Inv.update {S' : User → Fin NSHPAGE → Prop} (inv : Inv S k) (sound : (k'.env S').Sound)
    (others : ∀ l, l ≠ j → k'.procs l = k.procs l) (here : (k'.procs j).Ok) : Inv S' k' := by
  refine ⟨sound, fun l => ?_⟩
  by_cases same : l = j
  · rw [same]
    exact here
  · rw [others l same]
    exact inv.procs l

theorem Kernel.Full.update (full : k.Full) (others : ∀ l, l ≠ j → k'.procs l = k.procs l)
    (here : (k'.procs j).Full) : k'.Full := by
  intro l
  by_cases same : l = j
  · rw [same]
    exact here
  · rw [others l same]
    exact full l

/-- A call that works on one slot and leaves shared memory alone. -/
theorem Inv.quiet (inv : Inv S k) (sound : (k'.env S).Sound)
    (others : ∀ l, l ≠ j → k'.procs l = k.procs l) (shm : k'.shm = k.shm)
    (held : k'.shmHeld = k.shmHeld) (here : (k'.procs j).Ok)
    (zombie : (k'.procs j).state = .ZOMBIE → (k.procs j).state = .ZOMBIE) : Quiet S k k' := by
  refine ⟨inv.update sound others here, shm, held, fun l isZombie => ?_⟩
  by_cases same : l = j
  · rw [same] at isZombie ⊢
    exact zombie isZombie
  · rwa [others l same] at isZombie

/-- Slot `j` was unused and has a kernel stack in page `x` now. -/
structure Embryo (S : User → Fin NSHPAGE → Prop) (k : Kernel) (j : Slot) (x : Nat) (k₁ : Kernel) :
    Prop where
  kept : Kept (k₁.env S) fun _ => False
  others : ∀ l, l ≠ j → k₁.procs l = k.procs l
  stack : (k₁.procs j).kstack = some x
  noDir : (k₁.procs j).pgdir = none
  shmem : (k₁.procs j).shmemaddr = (k.procs j).shmemaddr
  shm : k₁.shm = k.shm
  held : k₁.shmHeld = k.shmHeld

theorem Inv.embryo {x : Nat} (inv : Inv S k) (isUnused : (k.procs j).state = .UNUSED)
    (taken : kalloc k.mem = some (x, m)) :
    Embryo S k j x (({ k with nextpid := k.nextpid + 1, mem := m } : Kernel).setProc j
      { k.procs j with state := .EMBRYO, pid := k.nextpid, kstack := some x }) := by
  obtain ⟨noDir, noStack⟩ := (inv.procs j).unused isUnused
  refine ⟨inv.kept.takeKstack (j := j) (x := x) noStack taken ?_ ?_ fun _ => rfl, ?_, by simp,
    by simp [noDir], by simp, rfl, rfl⟩
  · intro l
    by_cases same : l = j <;> simp [same]
  · intro l
    by_cases same : l = j <;> simp [same]
  · intro l other
    simp [other]

/-- What `allocproc` does: nothing, or it uses up a pid, or it gives an unused slot a kernel
stack. -/
theorem allocproc_cases (inv : Inv S k) {made : Option Slot} (ran : allocproc k = (made, k')) :
    (made = none ∧ SameSpaces k k' ∧ k'.shmHeld = k.shmHeld ∧
        ∀ l, (k'.procs l).state = (k.procs l).state) ∨
      ∃ j x, made = some j ∧ Embryo S k j x k' := by
  unfold allocproc at ran
  split at ran
  · cases ran
    exact .inl ⟨rfl, ⟨rfl, rfl, fun _ => rfl, fun _ => rfl, fun _ => rfl, fun _ => .rfl,
      fun _ => rfl⟩, rfl,
      fun _ => rfl⟩
  · rename_i j found
    have isUnused : (k.procs j).state = .UNUSED := by
      simpa using firstSlot_spec found
    obtain ⟨-, noStack⟩ := (inv.procs j).unused isUnused
    dsimp only at ran
    split at ran
    · left
      cases ran
      refine ⟨rfl, ⟨rfl, rfl, ?_, ?_, ?_, ?_, ?_⟩, rfl, ?_⟩ <;>
        intro l <;> by_cases same : l = j <;> simp [same, isUnused, noStack]
    · rename_i x m taken
      cases ran
      exact .inr ⟨j, x, rfl, inv.embryo isUnused taken⟩

section Embryo

variable {k₁ : Kernel} {x : Nat} {m m' : Mem}

theorem Embryo.bare (embryo : Embryo S k j x k₁) :
    Kept ((k₁.env S).remove (some j) k₁.mem) fun _ => False := by
  rw [env_remove_self embryo.noDir]
  exact embryo.kept

/-- `fork` without memory for the copy gives the slot back. -/
theorem Embryo.abandon (embryo : Embryo S k j x k₁) (inv : Inv S k)
    (kept : Kept ((k₁.env S).remove (some j) m) fun _ => False) (freed : kfree x m = .ok m') :
    let k' := ({ k₁ with mem := m' } : Kernel).setProc j
      { k₁.procs j with kstack := none, pgdir := none, state := .UNUSED }
    Quiet S k k' ∧ (k.Full → k'.Full) := by
  have books : ({ k₁ with mem := m } : Kernel).env S = (k₁.env S).remove (some j) m :=
    env_eq_remove (fun _ _ => rfl) rfl (fun _ => rfl) rfl embryo.noDir
  rw [← books] at kept
  have others : ∀ l, l ≠ j → (({ k₁ with mem := m' } : Kernel).setProc j
      { k₁.procs j with kstack := none, pgdir := none, state := .UNUSED }).procs l = k.procs l := by
    intro l other
    simp [other, embryo.others l other]
  refine ⟨inv.quiet (j := j) ?_ others embryo.shm embryo.held ?_ ?_,
    fun full => full.update (j := j) others ?_⟩
  · refine (kept.giveKstack (j := j) embryo.stack freed ?_ ?_ ?_).sound
    · intro l
      by_cases same : l = j <;> simp [same]
    · intro l
      by_cases same : l = j <;> simp [same, embryo.noDir]
    · intro r
      rfl
  · refine ⟨by simp, by simp, by simp, ?_⟩
    simpa [embryo.shmem] using (inv.procs j).shmem
  · simp
  · intro d found
    simp at found

/-- The slot gets an address space of size `p.sz`. -/
theorem Embryo.grow {base : Nat → Option Nat} {p : Proc} (embryo : Embryo S k j x k₁)
    (inv : Inv S k) (good : Good (k₁.env S) (some j) lo (fun _ => False) base ⟨d, m⟩)
    (image : Image p.sz d) (state : p.state = .RUNNABLE) (stack : p.kstack = some x)
    (dir : p.pgdir = some d) (shmem : p.shmemaddr = (k₁.procs j).shmemaddr) :
    let k' := ({ k₁ with mem := m } : Kernel).setProc j p
    Quiet S k k' ∧ (k.Full → k'.Full) := by
  have others : ∀ l, l ≠ j →
      (({ k₁ with mem := m } : Kernel).setProc j p).procs l = k.procs l := by
    intro l other
    simp [other, embryo.others l other]
  refine ⟨inv.quiet (j := j) ?_ others embryo.shm embryo.held ?_ ?_,
    fun full => full.update (j := j) others ?_⟩
  · rw [env_eq_place (k := k₁) (i := j) (s := ⟨d, m⟩)]
    · exact good.sound
    · intro l other
      simp [other]
    · simp [stack, embryo.stack]
    · intro r
      rfl
    · rfl
    · simp [dir]
  · refine ⟨?_, by simp [state], by simp [dir], ?_⟩
    · simpa [dir] using image.sized
    · simpa [shmem, embryo.shmem] using (inv.procs j).shmem
  · simp [state]
  · simpa [Proc.Full, dir] using image.full

end Embryo

theorem fork_quiet (inv : Inv S k) (ran : fork k i = .ok (r, k')) :
    Quiet S k k' ∧ (k.Full → k'.Full) := by
  obtain ⟨s, space, ran⟩ := bind_eq_ok ran
  obtain ⟨hasDir, -⟩ := space_eq_ok space
  have bound : (k.procs i).sz ≤ KERNBASE := ((inv.procs i).sized _ hasDir).bound
  split at ran
  · rename_i k₁ alloc
    cases pure_eq_ok ran
    rcases allocproc_cases inv alloc with ⟨-, same, held, state⟩ | ⟨j, x, made, -⟩
    · exact ⟨⟨same.inv inv, same.shm, held, fun l isZombie => (state l).symm.trans isZombie⟩,
        same.full⟩
    · cases made
  · rename_i j k₁ alloc
    rcases allocproc_cases inv alloc with ⟨made, -⟩ | ⟨_, x, made, embryo⟩
    · cases made
    cases made
    obtain ⟨⟨made, m₁⟩, copied, ran⟩ := bind_eq_ok ran
    cases copyuvm_made rfl (fun _ none_ => none_.elim) bound embryo.bare copied with
    | none kept =>
      obtain ⟨m₂, freed, ran⟩ := bind_eq_ok ran
      rw [freeKstack, embryo.stack] at freed
      cases pure_eq_ok ran
      exact embryo.abandon inv kept freed
    | some d good image =>
      cases pure_eq_ok ran
      exact embryo.grow inv good image rfl embryo.stack rfl rfl

/-- Above its size a process maps nothing. -/
theorem Inv.private_above (inv : Inv S k) (hasDir : (k.procs i).pgdir = some d) {v : Nat}
    (above : pages (k.procs i).sz ≤ v) : k.Private i v := by
  intro x mapped
  simp only [page, hasDir, Option.bind_some] at mapped
  split at mapped
  · rw [((inv.procs i).sized d hasDir).above v above ‹_›] at mapped
    cases mapped
  · cases mapped

/-- The address space of a process, ready to be worked on from page `lo` on. -/
theorem Kept.good (kept : Kept (k.env S) A) (hasDir : (k.procs i).pgdir = some d)
    (fresh : ∀ v, lo ≤ v → (k.env S).books.Alone (some i, v)) :
    Good (k.env S) (some i) lo A (pageAt d) ⟨d, k.mem⟩ := by
  have same : k.env S = (k.env S).place (some i) ⟨d, k.mem⟩ :=
    env_eq_place (fun _ _ => rfl) rfl (fun _ => rfl) rfl hasDir
  refine ⟨?_, ?_, ?_, fun _ _ _ => rfl⟩
  · rw [← same]
    exact kept.sound
  · rw [← same]
    exact fresh
  · rw [← same]
    exact kept.alone

theorem Inv.good (inv : Inv S k) (hasDir : (k.procs i).pgdir = some d)
    (alone : ∀ v, lo ≤ v → k.Private i v) :
    Good (k.env S) (some i) lo (fun _ => False) (pageAt d) ⟨d, k.mem⟩ :=
  inv.kept.good hasDir fun v above => alone_of_private (alone v above)

/-- `sbrk` takes mappings down only when it makes the process smaller. -/
def Unshares (k : Kernel) (i : Slot) (n : Int) : Prop :=
  n < 0 → addSigned (k.procs i).sz n < (k.procs i).sz →
    ∀ v, pages (addSigned (k.procs i).sz n) ≤ v → k.Private i v

/-- What `resize` leaves: a size of 0 stands for failure, and the process keeps its old size. -/
structure Resized (sz r : Nat) (E : Env) (i : Slot) (s : Space) : Prop where
  sound : (E.place (some i) s).Sound
  sized : Sized (if r = 0 then sz else r) s.dir

theorem Sized.congr (sized : Sized sz d)
    (same : ∀ u, u < VPAGES → pages sz ≤ u → pageAt d' u = pageAt d u ∨
      u < KERNPAGE ∧ pageAt d' u = none) : Sized sz d' := by
  have small : KERNPAGE < VPAGES := by decide
  have inHalf := pages_le_kernpage sized.bound
  refine ⟨sized.bound, ?_, ?_⟩
  · intro v above inV
    rcases same v (by omega) above with eq | ⟨-, gone⟩
    · rw [eq]
      exact sized.above v above inV
    · exact gone
  · rcases same KERNPAGE small inHalf with eq | ⟨inside, -⟩
    · rw [eq]
      exact sized.kernel
    · omega

theorem Full.congr (full : Full sz d) (same : ∀ u, u < pages sz → pageAt d' u = pageAt d u) :
    Full sz d' := by
  intro v below
  rw [same v below]
  exact full v below

theorem resize_good {r : Nat} (inv : Inv S k) (hasDir : (k.procs i).pgdir = some d)
    (unshares : Unshares k i n) (ran : resize (k.procs i).sz n ⟨d, k.mem⟩ = .ok (r, s)) :
    Resized (k.procs i).sz r (k.env S) i s ∧
      (Full (k.procs i).sz d → ¬(n < 0 ∧ addSigned (k.procs i).sz n = 0) →
        Full (if r = 0 then (k.procs i).sz else r) s.dir) := by
  have sized := (inv.procs i).sized d hasDir
  have bound := sized.bound
  have small : KERNPAGE < VPAGES := by decide
  have inHalf := pages_le_kernpage bound
  have asIs : Resized (k.procs i).sz (k.procs i).sz (k.env S) i ⟨d, k.mem⟩ :=
    ⟨(inv.good hasDir fun v above => inv.private_above hasDir above).sound, by rwa [ite_self]⟩
  unfold resize at ran
  split at ran
  · have good := allocuvm_good rfl (fun _ none_ => none_.elim) le_rfl
      (inv.good hasDir fun v above => inv.private_above hasDir above) ran
    by_cases zero : r = 0
    · subst zero
      refine ⟨⟨good.sound, ?_⟩, fun full _ => ?_⟩
      · refine sized.congr fun u inU above => ?_
        rw [pageAt_eq_map, pageAt_eq_map]
        rcases allocuvm_failed ran inU with eq | ⟨-, inside, gone⟩
        · exact .inl (congrArg _ eq)
        · exact .inr ⟨inside, congrArg _ gone⟩
      · refine full.congr fun u below => ?_
        exact good.same u (by omega) (.inl below)
    · obtain ⟨low, size, grown⟩ := allocuvm_grown bound ran zero
      rw [if_neg zero]
      exact ⟨⟨good.sound, by rw [if_neg zero]; exact grown.sized (by omega) (by omega) sized⟩,
        fun full _ => grown.full bound full⟩
  split at ran
  · rename_i shrinks
    by_cases less : addSigned (k.procs i).sz n < (k.procs i).sz
    · have good := deallocuvm_good sized.bound (by rw [pgroundup_div (by omega)])
        (inv.good hasDir (unshares shrinks less)) ran
      obtain ⟨rfl, dropped⟩ := deallocuvm_dropped sized.bound less ran
      have pages' := fun u inU => dropped.pageAt (u := u) inU
      have fewer := pages_mono less.le
      refine ⟨⟨good.sound, ?_⟩, fun full nonzero => ?_⟩
      · split
        · refine sized.congr fun u inU above => ?_
          rw [pages' u inU, if_neg (by omega)]
          exact .inl rfl
        · refine ⟨by omega, ?_, ?_⟩
          · intro v above inV
            rw [pages' v (by omega)]
            split
            · rfl
            · exact sized.above v (by omega) inV
          · rw [pages' KERNPAGE small, if_neg (by omega)]
            exact sized.kernel
      · rw [if_neg fun zero => nonzero ⟨shrinks, zero⟩]
        intro v below
        rw [pages' v (by omega), if_neg (by omega)]
        exact full v (by omega)
    · rw [deallocuvm, if_pos (by omega)] at ran
      cases ran
      exact ⟨asIs, fun full _ => by rwa [ite_self]⟩
  · cases ran
    exact ⟨asIs, fun full _ => by rwa [ite_self]⟩

theorem resize_zero {r : Nat} {s' : Space} (ran : resize sz 0 s = .ok (r, s')) : r = sz := by
  cases ran
  rfl

theorem growproc_quiet (inv : Inv S k) (unshares : Unshares k i n)
    (ran : growproc k i n = .ok (r, k')) :
    Quiet S k k' ∧ (¬(n < 0 ∧ addSigned (k.procs i).sz n = 0) → k.Full → k'.Full) := by
  obtain ⟨s, space, ran⟩ := bind_eq_ok ran
  obtain ⟨hasDir, mem⟩ := space_eq_ok space
  obtain ⟨⟨newsz, s'⟩, resized, ran⟩ := bind_eq_ok ran
  have shape : s = ⟨s.dir, k.mem⟩ := by rw [← mem]
  rw [shape] at resized
  obtain ⟨⟨sound, sized⟩, full'⟩ := resize_good inv hasDir unshares resized
  have final : ∃ p : Proc, p = { k.procs i with
        pgdir := some s'.dir, sz := if newsz = 0 then (k.procs i).sz else newsz } ∧
      k' = { k.setProc i p with mem := s'.mem } := by
    dsimp only at ran
    split at ran
    · rename_i failed
      cases pure_eq_ok ran
      exact ⟨_, rfl, by rw [if_pos failed.2]; rfl⟩
    · rename_i ok
      cases pure_eq_ok ran
      refine ⟨_, rfl, ?_⟩
      have size : newsz = if newsz = 0 then (k.procs i).sz else newsz := by
        by_cases zero : newsz = 0
        · have noChange : n = 0 := by
            by_contra other
            exact ok ⟨other, zero⟩
          subst noChange
          rw [resize_zero resized, ite_self]
        · rw [if_neg zero]
      rw [← size]
      simp [setSpace, setProc]
  obtain ⟨p, rfl, rfl⟩ := final
  have others : ∀ l, l ≠ i → ({ k.setProc i { k.procs i with
      pgdir := some s'.dir
      sz := if newsz = 0 then (k.procs i).sz else newsz } with mem := s'.mem } : Kernel).procs l =
      k.procs l := by
    intro l other
    exact (setProc_procs ..).trans (if_neg other)
  refine ⟨inv.quiet ?_ others rfl rfl ?_ ?_, fun nonzero full => full.update others ?_⟩
  · rw [env_eq_place (k := k) (i := i) (s := s')]
    · exact sound
    · exact others
    · simp [setProc]
    · intro r
      rfl
    · rfl
    · simp [setProc]
  · have ok := inv.procs i
    refine ⟨?_, ?_, ?_, ?_⟩
    · simpa [setProc] using sized
    · intro isUnused
      have before : (k.procs i).state = .UNUSED := by simpa [setProc] using isUnused
      exact absurd (hasDir.symm.trans (ok.unused before).1) (by simp)
    · simp [setProc]
    · simpa [setProc] using ok.shmem
  · intro isZombie
    simpa [setProc] using isZombie
  · have all := full' (full i s.dir hasDir) nonzero
    simpa [Proc.Full, setProc] using all

theorem exit_same (isUsed : (k.procs i).state ≠ .UNUSED) (ran : exit k i = .ok k') :
    SameSpaces k k' ∧ k'.shmHeld = k.shmHeld ∧
      ∀ l, (k'.procs l).state = if l = i then .ZOMBIE else (k.procs l).state := by
  unfold exit at ran
  split at ran
  · cases ran
  · cases ran
    have fields : ∀ l, ((abandon k i).procs l).kstack = (k.procs l).kstack ∧
        ((abandon k i).procs l).pgdir = (k.procs l).pgdir ∧
        ((abandon k i).procs l).sz = (k.procs l).sz ∧
        ((abandon k i).procs l).state = (k.procs l).state ∧
        ((abandon k i).procs l).shmemaddr = (k.procs l).shmemaddr := by
      intro l
      unfold abandon
      dsimp only
      split <;> simp
    refine ⟨⟨rfl, rfl, ?_, ?_, ?_, ?_, ?_⟩, rfl, ?_⟩ <;> intro l <;> by_cases same : l = i
    all_goals simp [same, fields, isUsed]

theorem wait_quiet {killed : Bool} {r : Option Int} (inv : Inv S k)
    (alone : ∀ j, zombieChild k i = some j → ∀ v, k.Private j v)
    (ran : wait k i killed = .ok (r, k')) : Quiet S k k' ∧ (k.Full → k'.Full) := by
  unfold wait at ran
  split at ran
  · rename_i j found
    obtain ⟨m₁, freed, ran⟩ := bind_eq_ok ran
    obtain ⟨m₂, torn, ran⟩ := bind_eq_ok ran
    cases pure_eq_ok ran
    unfold freeKstack at freed
    split at freed
    · cases freed
    rename_i x hasStack
    unfold freePgdir at torn
    split at torn
    · cases torn
    rename_i d hasDir
    -- first the stack goes, then the directory with all its pages
    let k₁ : Kernel := { k.setProc j { k.procs j with kstack := none } with mem := m₁ }
    have single : Kept (k.env S) fun u => u.1 = some j := by
      refine ⟨inv.sound, ?_⟩
      rintro ⟨w, v⟩ rfl
      exact alone_of_private (alone j found v)
    have stackless : Kept (k₁.env S) fun u => u.1 = some j := by
      refine single.giveKstack (j := j) hasStack freed ?_ ?_ fun _ => rfl
      · intro l
        by_cases same : l = j <;> simp [k₁, setProc, same]
      · intro l
        by_cases same : l = j <;> simp [k₁, setProc, same]
    have dir₁ : (k₁.procs j).pgdir = some d := by
      simp [k₁, setProc, hasDir]
    have gone := freevm_kept (stackless.good dir₁ fun v _ => stackless.alone (some j, v) rfl) torn
    refine ⟨inv.quiet (j := j) ?_ ?_ rfl rfl ?_ ?_, fun full => full.update (j := j) ?_ ?_⟩
    · rw [env_eq_remove (k := k₁) (i := j) (m := m₂)]
      · exact gone.sound
      · intro l other
        simp [k₁, setProc, other]
      · simp [k₁, setProc]
      · intro r
        rfl
      · rfl
      · simp
    · intro l other
      simp [other]
    · refine ⟨by simp, by simp, by simp, ?_⟩
      simpa using (inv.procs j).shmem
    · simp
    · intro l other
      simp [other]
    · intro d found
      simp at found
  · split at ran <;> cases ran <;>
      exact ⟨⟨inv, rfl, rfl, fun _ isZombie => isZombie⟩, fun full => full⟩

theorem Quiet.refl (inv : Inv S k) : Quiet S k k := ⟨inv, rfl, rfl, fun _ isZombie => isZombie⟩

/-- A call after which only the free list may be in another order. -/
theorem Inv.quiet_mem (inv : Inv S k) (kept : Kept ((k.env S).remove none m) A) :
    Quiet S k { k with mem := m } := by
  have same : ({ k with mem := m } : Kernel).env S = (k.env S).remove none m :=
    env_eq_clear m
  refine ⟨⟨?_, inv.procs⟩, rfl, rfl, fun _ isZombie => isZombie⟩
  rw [same]
  exact kept.sound

/-- The new image takes the place of the old one. -/
theorem swap_image {base : Nat → Option Nat} {old : PgDir} (inv : Inv S k)
    (hasDir : (k.procs i).pgdir = some old) (good : Good (k.env S) none 0 A base s)
    (alone : ∀ v, A (some i, v)) (freed : freevm ⟨old, s.mem⟩ = .ok m) (mem : k'.mem = m)
    (kstack : ∀ l, (k'.procs l).kstack = (k.procs l).kstack)
    (here : (k'.procs i).pgdir = some s.dir)
    (others : ∀ l, l ≠ i → (k'.procs l).pgdir = (k.procs l).pgdir) (shm : k'.shm = k.shm) :
    (k'.env S).Sound := by
  let F := (k.env S).place none s
  have same : F.place (some i) ⟨old, s.mem⟩ = F := by
    simp only [F, Env.place, Env.mk.injEq, true_and, and_true]
    funext w
    cases w with
    | none => simp
    | some l =>
      by_cases eq : l = i
      · simp [eq, env, hasDir]
      · simp [eq, env]
  have goodOld : Good F (some i) 0 (fun _ => False) (pageAt old) ⟨old, s.mem⟩ := by
    refine ⟨?_, ?_, fun _ none_ => none_.elim, fun _ _ _ => rfl⟩
    · rw [same]
      exact good.sound
    · rw [same]
      intro v _
      exact good.kept _ (alone v)
  have gone := (freevm_kept goodOld freed).sound
  have unsharedNone : ∀ v r, ¬S (none, v) r := by
    intro v r sharing
    have maps := (inv.sound.shared (none, v) r).mpr sharing
    rw [env_user_none] at maps
    cases maps
  have unsharedHere : ∀ v r, ¬S (some i, v) r := by
    intro v r sharing
    have maps := (gone.shared (some i, v) r).mpr sharing
    rw [Env.user_remove, if_pos rfl] at maps
    cases maps
  have renamed := gone.rename (Equiv.swap none (some i)) (by
    intro w v r moved
    rcases Equiv.swap_apply_ne_self_iff.mp moved with ⟨-, rfl | rfl⟩
    · exact unsharedNone v r
    · exact unsharedHere v r)
  have final : k'.env S = { F.remove (some i) m with
      dirs := (F.remove (some i) m).dirs ∘ Equiv.swap none (some i) } := by
    simp only [F, env, Env.place, Env.remove, Env.mk.injEq, mem, shm, true_and, and_true]
    refine ⟨funext kstack, ?_⟩
    funext w
    cases w with
    | none => simp
    | some l =>
      by_cases eq : l = i
      · simp [eq, here]
      · have stays : Equiv.swap none (some i) (some l) = some l :=
          Equiv.swap_apply_of_ne_of_ne (by simp) (by simp [eq])
        simp [stays, eq, others l eq]
  rw [final]
  exact renamed

theorem exec_quiet {file : Option File} {path : List Byte} {argv : List (List Byte)} (inv : Inv S k)
    (alone : (∃ k', exec k i file path argv = .ok (0, k')) → ∀ v, k.Private i v)
    (ran : exec k i file path argv = .ok (r, k')) : Quiet S k k' ∧ (k.Full → k'.Full) := by
  have whole := ran
  unfold exec at ran
  split at ran
  · cases pure_eq_ok ran
    exact ⟨.refl inv, fun full => full⟩
  split at ran
  · cases pure_eq_ok ran
    exact ⟨.refl inv, fun full => full⟩
  split at ran
  · cases pure_eq_ok ran
    exact ⟨.refl inv, fun full => full⟩
  -- the caller's mappings stay alone while the new image is built, if they are
  let A : User → Prop := fun u => u.1 = some i ∧ ∀ v, k.Private i v
  have others : ∀ u, A u → u.1 ≠ none := by
    rintro u ⟨eq, -⟩ none_
    exact absurd (eq.symm.trans none_) (by simp)
  have start : Kept ((k.env S).remove none k.mem) A := by
    have same : k.env S = (k.env S).remove none k.mem :=
      env_eq_clear k.mem
    rw [← same]
    refine ⟨inv.sound, ?_⟩
    rintro ⟨w, v⟩ ⟨rfl, private_⟩
    exact alone_of_private (private_ v)
  obtain ⟨⟨made, m₁⟩, setup, ran⟩ := bind_eq_ok ran
  cases setupkvm_made start setup with
  | none kept =>
    cases pure_eq_ok ran
    exact ⟨inv.quiet_mem kept, fun full => full⟩
  | some d good only =>
    obtain ⟨⟨image, s⟩, built, ran⟩ := bind_eq_ok ran
    obtain ⟨goodS, imageS⟩ := buildImage_good rfl others good only.image built
    cases image with
    | none =>
      obtain ⟨m₂, freed, ran⟩ := bind_eq_ok ran
      cases pure_eq_ok ran
      exact ⟨inv.quiet_mem (freevm_kept goodS freed), fun full => full⟩
    | some result =>
      obtain ⟨sz, sp⟩ := result
      obtain ⟨old, space, ran⟩ := bind_eq_ok ran
      obtain ⟨m₂, freed, ran⟩ := bind_eq_ok ran
      obtain ⟨hasDir, -⟩ := space_eq_ok space
      cases pure_eq_ok ran
      have private_ := alone ⟨_, whole⟩
      obtain ⟨sized, full'⟩ := imageS sz sp rfl
      refine ⟨inv.quiet (j := i) ?_ ?_ rfl rfl ?_ ?_, fun full => full.update (j := i) ?_ ?_⟩
      · refine swap_image inv hasDir goodS (fun v => ⟨rfl, private_⟩) freed rfl ?_ ?_ ?_ rfl
        · intro l
          by_cases same : l = i <;> simp [setProc, same]
        · simp [setProc]
        · intro l other
          simp [setProc, other]
      · intro l other
        simp [setProc, other]
      · refine ⟨?_, ?_, ?_, ?_⟩
        · simpa [setProc] using sized
        · intro isUnused
          have before : (k.procs i).state = .UNUSED := by
            simpa [setProc] using isUnused
          exact absurd (hasDir.symm.trans ((inv.procs i).unused before).1) (by simp)
        · simp [setProc]
        · simpa [setProc] using (inv.procs i).shmem
      · intro isZombie
        simpa [setProc] using isZombie
      · intro l other
        simp [setProc, other]
      · simpa [Proc.Full, setProc] using full'

end Calls

end Xv6.Vm
