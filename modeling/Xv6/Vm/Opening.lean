/-
# Xv6.Vm.Opening -- how openshmem ends, and where its page lies

What `openshmem` does is settled before it starts: by the slot it finds or may claim, by the pages it
has to take (one for a new segment, one for a page table that is missing), and by the entry at the end
of the process. `openshmem_of_claim` says so for any kernel, without an invariant.

* `openshmem_atomic_iff`: a call that returns -1 leaves everything as it was exactly if it cannot run
  out of memory. Running out is noticed after the slot, the count and the page have been written, and
  on two of the three paths with the lock still held.
* `shared_page_inside_iff`: the page lies inside the process exactly if every open that gets as far as
  mapping is made with an aligned size below `KERNBASE`: the page starts at the rounded size, and the
  size grows from where it was.
-/
import Xv6.Vm.Segments

namespace Xv6.Vm
open Lib
set_option autoImplicit false

/-! ## The three ways a mapping ends -/

/-- The page at the end of process `i`, where `openshmem` maps. -/
def Kernel.endPage (k : Kernel) (i : Slot) : Nat := pgroundup (k.procs i).sz / PGSIZE

section Outcome

variable {k k₁ k' : Kernel} {i : Slot} {id : Int} {j : Fin NSHPAGE} {d : PgDir} {e : ShPage}

theorem pgroundup_endPage (k : Kernel) (i : Slot) :
    pgroundup (k.procs i).sz = k.endPage i * PGSIZE := by
  unfold Kernel.endPage pgroundup
  rw [Nat.mul_div_cancel _ (by decide)]

theorem endPage_lt (k : Kernel) (i : Slot) : k.endPage i < VPAGES := by
  simp only [Kernel.endPage, pgroundup, PGSIZE, VPAGES]
  omega

theorem mapShm_eq (hasDir : (k.procs i).pgdir = some d) (j : Fin NSHPAGE) :
    mapShm k i j = match walkpgdirAlloc (k.endPage i) ⟨d, k.mem⟩ with
      | none => .ok (false, k)
      | some t =>
        if (pageAt d (k.endPage i)).isSome then .error (.panic "remap")
        else .ok (true, k.setSpace i (t.store (k.endPage i) ⟨(k.shm j).phys, true, true, true⟩)) := by
  rw [mapShm, space_ok hasDir, ok_bind, pgroundup_endPage]
  dsimp only
  rw [mappages_one (endPage_lt k i), mapLoop]
  cases walked : walkpgdirAlloc (k.endPage i) ⟨d, k.mem⟩ with
  | none =>
    exact congrArg (fun k' => Except.ok (false, k')) (setSpace_self hasDir)
  | some t =>
    dsimp only
    rw [walk_any_p, walkpgdirAlloc_pageAt walked]
    split
    · rfl
    · rfl

/-- The kernel once the page of slot `j` is mapped in space `s` of process `i`. -/
def Kernel.opened (k : Kernel) (i : Slot) (s : Space) (j : Fin NSHPAGE) (e : ShPage) : Kernel :=
  attach ((k.setSpace i s).setShm j e) i

/-- With a slot in hand, what is left of the call is the mapping. -/
theorem Claim.openshmem (claim : Claim k id j k₁ e) (held : k.shmHeld = false) :
    ∃ finish : Kernel → Kernel, (∀ s, finish (k₁.setSpace i s) = (k₁.setSpace i s).setShm j e) ∧
      Vm.openshmem k i id = mapShm k₁ i j >>= fun r =>
        if r.1 then pure (some (pgroundup (k.procs i).sz), attach (finish r.2) i)
        else pure (none, { r.2 with shmHeld := true }) := by
  have free : ¬k.shmHeld = true := by simp [held]
  cases claim with
  | found hit =>
    refine ⟨fun k => k, fun s => ?_, ?_⟩
    · simp [Kernel.setShm, Kernel.setSpace, Kernel.setProc]
    · rw [Vm.openshmem, if_neg free, hit]
  | created miss slot taken =>
    refine ⟨fun k => k.setShm j { k.shm j with nAccess := (k.shm j).nAccess + 1 }, fun s => ?_, ?_⟩
    · simp [Kernel.setShm, Kernel.setSpace, Kernel.setProc]
    · rw [Vm.openshmem, if_neg free, miss]
      rw [slot]
      rw [taken]

/-- The call fails for want of a page table, panics, or maps. -/
theorem openshmem_of_claim (held : k.shmHeld = false) (hasDir : (k.procs i).pgdir = some d)
    (claim : Claim k id j k₁ e) :
    openshmem k i id = match walkpgdirAlloc (k.endPage i) ⟨d, k₁.mem⟩ with
      | none => .ok (none, { k₁ with shmHeld := true })
      | some t =>
        if (pageAt d (k.endPage i)).isSome then .error (.panic "remap")
        else .ok (some (k.endPage i * PGSIZE), k₁.opened i
          (t.store (k.endPage i) ⟨(k₁.shm j).phys, true, true, true⟩) j e) := by
  obtain ⟨finish, finished, called⟩ := claim.openshmem (i := i) held
  have place : k₁.endPage i = k.endPage i := by
    rw [Kernel.endPage, claim.procs]
    rfl
  rw [called, mapShm_eq (claim.procs ▸ hasDir), place, pgroundup_endPage]
  cases walkpgdirAlloc (k.endPage i) ⟨d, k₁.mem⟩ with
  | none => rfl
  | some t =>
    dsimp only
    by_cases mapped : (pageAt d (k.endPage i)).isSome
    · rw [if_pos mapped, if_pos mapped]
      rfl
    · rw [if_neg mapped, if_neg mapped, ok_bind, if_pos rfl, finished]
      rfl

/-- There is nothing to map: the table is full, or there is no page for a new segment. Otherwise a
slot is in hand. -/
theorem claim_cases (k : Kernel) (id : Int) :
    (findShm k id = none ∧ findShm k 0 = none) ∨
      (∃ j, findShm k id = none ∧ findShm k 0 = some j ∧ k.mem.free = []) ∨
      ∃ j k₁ e, Claim k id j k₁ e := by
  cases hit : findShm k id with
  | some j => exact .inr (.inr ⟨j, _, _, .found hit⟩)
  | none =>
    cases slot : findShm k 0 with
    | none => exact .inl ⟨rfl, rfl⟩
    | some j =>
      cases list : k.mem.free with
      | nil => exact .inr (.inl ⟨j, rfl, rfl, rfl⟩)
      | cons x rest => exact .inr (.inr ⟨j, _, _, .created hit slot (kalloc_cons list)⟩)

/-- A call that returned found the lock free. -/
theorem openshmem_held {r : Option Nat} (ran : openshmem k i id = .ok (r, k')) :
    k.shmHeld = false := by
  by_contra stuck
  rw [openshmem, if_pos (by simpa using stuck)] at ran
  cases ran

theorem openshmem_full (held : k.shmHeld = false) (miss : findShm k id = none)
    (noSlot : findShm k 0 = none) : openshmem k i id = .ok (none, k) := by
  rw [openshmem, if_neg (by simp [held]), miss]
  rw [noSlot]

theorem openshmem_noPage (held : k.shmHeld = false) (miss : findShm k id = none)
    (slot : findShm k 0 = some j) (empty : k.mem.free = []) :
    openshmem k i id = .ok (none, k.setShm j { k.shm j with id := id, got := none }) := by
  have out : kalloc k.mem = none := by simp [kalloc, empty]
  rw [openshmem, if_neg (by simp [held]), miss]
  rw [slot]
  rw [out]

/-! ## Atomicity -/

/-- The segment is in the table, or a slot for it is. -/
def Kernel.HasSlot (k : Kernel) (id : Int) : Prop := findShm k id ≠ none ∨ findShm k 0 ≠ none

/-- The pages a call takes: one for a segment that is not there yet, one for a page table that is
missing at the end of the process. -/
def Kernel.wants (k : Kernel) (i : Slot) (id : Int) (d : PgDir) : Nat :=
  (if findShm k id = none then 1 else 0) + if d.tab (pdx (k.endPage i)) = none then 1 else 0

theorem Kernel.wants_le (k : Kernel) (i : Slot) (id : Int) (d : PgDir) : k.wants i id d ≤ 2 := by
  unfold Kernel.wants
  split <;> split <;> omega

/-- The page table at the end of the process is there or can be made exactly if there are as many
free pages as the call takes. -/
theorem Claim.walk_iff (claim : Claim k id j k₁ e) :
    walkpgdirAlloc (k.endPage i) ⟨d, k₁.mem⟩ = none ↔ k.mem.free.length < k.wants i id d := by
  rw [walkpgdirAlloc_eq_none, Kernel.wants]
  cases claim with
  | found hit =>
    rw [if_neg (by simp [hit])]
    by_cases absent : d.tab (pdx (k.endPage i)) = none
    · simp [absent]
    · simp [absent]
  | created miss slot taken =>
    rw [if_pos miss, (kalloc_eq_some taken).1]
    by_cases absent : d.tab (pdx (k.endPage i)) = none
    · simp [absent, Mem.fill, Mem.setPage]
    · simp [absent]

theorem Claim.hasSlot (claim : Claim k id j k₁ e) : k.HasSlot id := by
  cases claim with
  | found hit => exact .inl (by simp [hit])
  | created miss slot taken => exact .inr (by simp [slot])

end Outcome

/-- What a failed call may not change: the table, the mappings of the process, its size and
`shmemaddr`. No page is gone but into a page table, and the lock is free. -/
structure Untouched (k : Kernel) (i : Slot) (k' : Kernel) : Prop where
  shm : ∀ r, (k'.shm r).id = (k.shm r).id ∧ (k'.shm r).nAccess = (k.shm r).nAccess ∧
    (k'.shm r).phys = (k.shm r).phys
  page : ∀ v, k'.page i v = k.page i v
  size : (k'.procs i).sz = (k.procs i).sz
  shmemaddr : (k'.procs i).shmemaddr = (k.procs i).shmemaddr
  free : ∀ x ∈ k.mem.free, x ∈ k'.mem.free ∨ ∃ d t tab, (k'.procs i).pgdir = some d ∧
    d.tab t = some tab ∧ tab.page = x
  lock : k'.shmHeld = false

/-- **Failure is atomic** exactly if the call finds no slot at all or has the pages it takes. -/
theorem openshmem_atomic_iff {k : Kernel} {i : Slot} {d : PgDir} (id : Int)
    (held : k.shmHeld = false) (hasDir : (k.procs i).pgdir = some d) :
    (∀ k', openshmem k i id = .ok (none, k') → Untouched k i k') ↔
      (k.HasSlot id → k.wants i id d ≤ k.mem.free.length) := by
  rcases claim_cases k id with ⟨miss, noSlot⟩ | ⟨j, miss, slot, empty⟩ | ⟨j, k₁, e, claim⟩
  · -- the table is full
    refine iff_of_true ?_ ?_
    · intro k' failed
      rw [openshmem_full held miss noSlot] at failed
      cases failed
      exact ⟨fun _ => ⟨rfl, rfl, rfl⟩, fun _ => rfl, rfl, rfl, fun _ inside => .inl inside, held⟩
    · rintro (hit | vacant)
      · exact absurd miss hit
      · exact absurd noSlot vacant
  · -- the slot keeps the id of a segment that was not made
    refine iff_of_false ?_ ?_
    · intro atomic
      have same := ((atomic _ (openshmem_noPage held miss slot empty)).shm j).1
      rw [Kernel.setShm_shm, if_pos rfl] at same
      exact findShm_eq_none.mp miss j same.symm
    · intro affords
      have few := affords (.inr (by simp [slot]))
      rw [Kernel.wants, if_pos miss, empty] at few
      simp at few
  · have called := openshmem_of_claim held hasDir claim
    cases walked : walkpgdirAlloc (k.endPage i) ⟨d, k₁.mem⟩ with
    | none =>
      -- the lock stays held
      rw [walked] at called
      have short := claim.walk_iff.mp walked
      refine iff_of_false ?_ fun affords => absurd (affords claim.hasSlot) (by omega)
      intro atomic
      exact absurd (atomic _ called).lock (by simp)
    | some t =>
      have enough : ¬k.mem.free.length < k.wants i id d := by
        rw [← claim.walk_iff, walked]
        simp
      refine iff_of_true ?_ fun _ => by omega
      intro k' failed
      rw [called, walked] at failed
      dsimp only at failed
      split at failed <;> cases failed

/-- A kernel without a free page: process 0 ends at a page-table boundary, and segment 5 is in the
table. -/
def exhausted : Kernel :=
  { blank ⟨⟨0x200000, 0x108000⟩, [], fun _ _ => 0, false⟩ with
    procs := fun _ => { noProc with state := .RUNNING, sz := 0x400000, pgdir := some ⟨1024, fun _ => none⟩ }
    shm := fun r => if r = 0 then ⟨5, 1, 2000, some (5, 2000)⟩ else ⟨0, 0, 0, none⟩ }

/-- All slots are taken. -/
def crowded : Kernel := { exhausted with shm := fun r => ⟨r + 1, 1, 2000 + r, none⟩ }

/-- The call finds no slot for segment 100, and fails without a trace. -/
theorem openshmem_atomic_crowded :
    ∃ k', openshmem crowded 0 100 = .ok (none, k') ∧ Untouched crowded 0 k' := by
  have absent : ∀ id : Int, id = 0 ∨ id = 100 → findShm crowded id = none := by
    intro id other
    refine findShm_eq_none.mpr fun r same => ?_
    have slots := r.isLt
    have taken : (r : Int) + 1 = id := same
    simp only [NSHPAGE] at slots
    omega
  have failed := openshmem_full (i := 0) (k := crowded) rfl (absent 100 (.inr rfl)) (absent 0 (.inl rfl))
  refine ⟨_, failed, (openshmem_atomic_iff 100 rfl rfl).mpr ?_ _ failed⟩
  rintro (hit | vacant)
  · exact absurd (absent 100 (.inr rfl)) hit
  · exact absurd (absent 0 (.inl rfl)) vacant

/-- Opening segment 5 once more fails: its count is off by one and the lock is held. Opening segment 6
fails: slot 1 is left as segment 6, with page 0. -/
theorem exhausted_not_untouched :
    (∃ k', openshmem exhausted 0 5 = .ok (none, k') ∧ k'.shmHeld = true ∧ (k'.shm 0).nAccess = 2) ∧
      ∃ k', openshmem exhausted 0 6 = .ok (none, k') ∧ (k'.shm 1).id = 6 ∧ (k'.shm 1).phys = 0 ∧
        ¬Untouched exhausted 0 k' := by
  have hit : findShm exhausted 5 = some 0 := findShm_zero rfl
  have miss : findShm exhausted 6 = none := by
    refine findShm_eq_none.mpr fun r => ?_
    by_cases isZero : r = 0 <;> simp [exhausted, isZero]
  have slot : findShm exhausted 0 = some 1 := findShm_one (by decide) rfl
  constructor
  · refine ⟨_, openshmem_of_claim rfl rfl (.found hit), rfl, ?_⟩
    simp [exhausted]
  · refine ⟨_, openshmem_noPage rfl miss slot rfl, by simp, by simp [exhausted], fun untouched => ?_⟩
    have same := (untouched.shm 1).1
    exact absurd same (by decide)

/-! ## The page lies inside the process -/

/-- A successful open returns the address of a page between the old and the new size, which
`argptr` accepts as a whole; no open panics. -/
def Inside (k : Kernel) : Event → Prop
  | .openshmem i id => openshmem k i id ≠ .error (.panic "remap") ∧
      ∀ va k', openshmem k i id = .ok (some va, k') → va % PGSIZE = 0 ∧ (k.procs i).sz ≤ va ∧
        va + PGSIZE ≤ (k'.procs i).sz ∧ (k'.procs i).sz ≤ KERNBASE ∧
        argptrOk (k'.procs i).sz va PGSIZE = true
  | .closeshmem _ _ | .fork _ | .sbrk _ _ | .exec _ _ _ _ | .exit _ | .wait _ _ => True

/-- An open that gets as far as mapping is made with an aligned size below `KERNBASE`. -/
def Level (k : Kernel) : Event → Prop
  | .openshmem i id => ∀ d, k.shmHeld = false → (k.procs i).pgdir = some d → k.HasSlot id →
      k.wants i id d ≤ k.mem.free.length → (k.procs i).sz % PGSIZE = 0 ∧ (k.procs i).sz < KERNBASE
  | .closeshmem _ _ | .fork _ | .sbrk _ _ | .exec _ _ _ _ | .exit _ | .wait _ _ => True

/-- Every process maps nothing between its size and the kernel. -/
def Kernel.Sized (k : Kernel) : Prop :=
  ∀ i d, (k.procs i).pgdir = some d → Vm.Sized (k.procs i).sz d

section Inside

variable {k k' k₁ : Kernel} {i : Slot} {id : Int} {d : PgDir} {j : Fin NSHPAGE} {e : ShPage}

theorem endPage_eq (sized : Sized (k.procs i).sz d) : k.endPage i = pages (k.procs i).sz :=
  pgroundup_div sized.bound

/-- The process after a successful open. -/
theorem opened_procs (i : Slot) (s : Space) (j : Fin NSHPAGE) (e : ShPage) :
    (k.opened i s j e).procs = Function.update k.procs i { k.procs i with
      pgdir := some s.dir
      shmemaddr := pgroundup (k.procs i).sz
      sz := ((k.procs i).sz + PGSIZE) % 2 ^ 32 } := by
  simp [Kernel.opened, attach, Kernel.setProc, Kernel.setSpace, Kernel.setShm]

/-- `argptr` accepts what ends below the size. -/
theorem argptrOk_of_le {sz addr n : Nat} (positive : 0 < n) (last : addr + n ≤ sz)
    (bound : sz ≤ KERNBASE) : argptrOk sz addr n = true := by
  have wraps : (addr + n) % 2 ^ 32 = addr + n := by
    simp only [KERNBASE] at bound
    omega
  rw [argptrOk, Int.toNat_natCast, wraps]
  simp only [Bool.not_eq_true', Bool.or_eq_false_iff, decide_eq_false_iff_not]
  omega

/-- The page of a successful open, against the size. -/
theorem inside_iff_aligned {sz : Nat} (room : pages sz < KERNPAGE) :
    (pages sz * PGSIZE % PGSIZE = 0 ∧ sz ≤ pages sz * PGSIZE ∧
        pages sz * PGSIZE + PGSIZE ≤ (sz + PGSIZE) % 2 ^ 32 ∧ (sz + PGSIZE) % 2 ^ 32 ≤ KERNBASE ∧
        argptrOk ((sz + PGSIZE) % 2 ^ 32) (pages sz * PGSIZE) PGSIZE = true) ↔
      sz % PGSIZE = 0 ∧ sz < KERNBASE := by
  have size : (sz + PGSIZE) % 2 ^ 32 = sz + PGSIZE := by
    simp only [pages, KERNPAGE, KERNBASE, PGSIZE] at room ⊢
    omega
  rw [size]
  constructor
  · rintro ⟨-, -, last, -⟩
    simp only [pages, KERNPAGE, KERNBASE, PGSIZE] at *
    omega
  · rintro ⟨aligned, -⟩
    have last : pages sz * PGSIZE + PGSIZE ≤ sz + PGSIZE := by
      simp only [pages, PGSIZE] at *
      omega
    have bound : sz + PGSIZE ≤ KERNBASE := by
      simp only [pages, KERNPAGE, KERNBASE, PGSIZE] at *
      omega
    refine ⟨Nat.mul_mod_left _ _, ?_, last, bound, argptrOk_of_le (by decide) last bound⟩
    simp only [pages, PGSIZE] at *
    omega

/-- A process without a directory maps nothing. -/
theorem openshmem_noDir (noDir : (k.procs i).pgdir = none) (claim : Claim k id j k₁ e)
    (held : k.shmHeld = false) : openshmem k i id = .error .stray := by
  obtain ⟨finish, -, called⟩ := claim.openshmem (i := i) held
  have stray : mapShm k₁ i j = .error .stray := by
    rw [mapShm, Kernel.space, claim.procs, noDir]
    rfl
  rw [called, stray]
  rfl

theorem inside_iff_level (sized : k.Sized) (i : Slot) (id : Int) :
    Inside k (.openshmem i id) ↔ Level k (.openshmem i id) := by
  by_cases held : k.shmHeld = false
  swap
  · -- nothing happens while the lock is held
    have stuck : openshmem k i id = .error .stuck := by
      rw [openshmem, if_pos (by simpa using held)]
    exact iff_of_true ⟨by simp [stuck], by simp [stuck]⟩ fun d free => absurd free held
  rcases claim_cases k id with ⟨miss, noSlot⟩ | ⟨j, miss, slot, empty⟩ | ⟨j, k₁, e, claim⟩
  · have called := openshmem_full (i := i) held miss noSlot
    refine iff_of_true ⟨by simp [called], by simp [called]⟩ fun d _ _ slot => ?_
    simp [Kernel.HasSlot, miss, noSlot] at slot
  · have called := openshmem_noPage (i := i) held miss slot empty
    refine iff_of_true ⟨by simp [called], by simp [called]⟩ fun d _ _ _ enough => ?_
    rw [Kernel.wants, if_pos miss, empty] at enough
    simp at enough
  cases hasDir : (k.procs i).pgdir with
  | none =>
    have called := openshmem_noDir hasDir claim held
    refine iff_of_true ⟨by simp [called], by simp [called]⟩ fun d _ found => ?_
    simp [hasDir] at found
  | some d =>
    have called := openshmem_of_claim held hasDir claim
    have walks := claim.walk_iff (i := i) (d := d)
    have sizedI := sized i d hasDir
    cases walked : walkpgdirAlloc (k.endPage i) ⟨d, k₁.mem⟩ with
    | none =>
      have short := walks.mp walked
      rw [walked] at called
      refine iff_of_true ⟨by simp [called], by simp [called]⟩ fun d' _ found _ enough => ?_
      obtain rfl : d = d' := Option.some.inj (hasDir.symm.trans found)
      omega
    | some t =>
      have enough : k.wants i id d ≤ k.mem.free.length := by
        rw [← Nat.not_lt, ← walks, walked]
        simp
      have level : Level k (.openshmem i id) ↔
          (k.procs i).sz % PGSIZE = 0 ∧ (k.procs i).sz < KERNBASE := by
        refine ⟨fun level => level d held hasDir claim.hasSlot enough, fun fine d' _ _ _ _ => fine⟩
      have place := endPage_eq sizedI
      rw [walked, place] at called
      rw [level]
      cases here : pageAt d (pages (k.procs i).sz) with
      | some x =>
        -- the kernel's first page is in the way
        have top : pages (k.procs i).sz = KERNPAGE := by
          refine le_antisymm (pages_le_kernpage sizedI.bound) (Nat.not_lt.mp fun below => ?_)
          rw [sizedI.above _ le_rfl below] at here
          cases here
        rw [here] at called
        refine iff_of_false (fun inside => inside.1 called) ?_
        simp only [pages, KERNPAGE, KERNBASE, PGSIZE] at top ⊢
        omega
      | none =>
        obtain ⟨room, -⟩ := sizedI.extend here (place ▸ walked) .zero
        rw [here] at called
        have size : ((k₁.opened i (t.store (pages (k.procs i).sz)
            ⟨(k₁.shm j).phys, true, true, true⟩) j e).procs i).sz =
            ((k.procs i).sz + PGSIZE) % 2 ^ 32 := by
          rw [opened_procs, claim.procs, Function.update_self]
        rw [← inside_iff_aligned room]
        constructor
        · intro inside
          have page := inside.2 _ _ called
          rwa [size] at page
        · intro fine
          refine ⟨by simp [called], fun va k' ran => ?_⟩
          rw [called] at ran
          cases ran
          rwa [size]

/-- Opening keeps the gap between the size and the kernel. -/
theorem Kernel.Sized.openshmem {r : Option Nat} (sized : k.Sized)
    (ran : openshmem k i id = .ok (r, k')) : k'.Sized := by
  have held := openshmem_held ran
  rcases claim_cases k id with ⟨miss, noSlot⟩ | ⟨j, miss, slot, empty⟩ | ⟨j, k₁, e, claim⟩
  · rw [openshmem_full held miss noSlot] at ran
    cases ran
    exact sized
  · rw [openshmem_noPage held miss slot empty] at ran
    cases ran
    exact sized
  cases hasDir : (k.procs i).pgdir with
  | none =>
    rw [openshmem_noDir hasDir claim held] at ran
    cases ran
  | some d =>
    have sizedI := sized i d hasDir
    rw [openshmem_of_claim held hasDir claim, endPage_eq sizedI] at ran
    cases walked : walkpgdirAlloc (pages (k.procs i).sz) ⟨d, k₁.mem⟩ with
    | none =>
      rw [walked] at ran
      cases ran
      intro l d' found
      rw [claim.procs] at found ⊢
      exact sized l d' found
    | some t =>
      rw [walked] at ran
      cases here : pageAt d (pages (k.procs i).sz) with
      | some x =>
        rw [here] at ran
        cases ran
      | none =>
        rw [here] at ran
        cases ran
        obtain ⟨room, larger⟩ := sizedI.extend here walked ⟨(k₁.shm j).phys, true, true, true⟩
        have size : ((k.procs i).sz + PGSIZE) % 2 ^ 32 = (k.procs i).sz + PGSIZE := by
          simp only [pages, KERNPAGE, KERNBASE, PGSIZE] at room ⊢
          omega
        intro l d' found
        rw [opened_procs, claim.procs] at found ⊢
        by_cases same : l = i
        · subst same
          rw [Function.update_self] at found ⊢
          cases found
          rwa [size]
        · rw [Function.update_of_ne same] at found ⊢
          exact sized l d' found

end Inside

/-- **The shared page lies inside the process**, at every call of every sequence of opens, exactly if
every open that gets as far as mapping is made with an aligned size below `KERNBASE`. -/
theorem shared_page_inside_iff {k : Kernel} {events : List Event} (sized : k.Sized)
    (opens : ∀ e ∈ events, ∃ i id, e = .openshmem i id) :
    system.Admits Inside k events ↔ system.Admits Level k events := by
  refine System.admits_congr sized ?_ ?_
  · intro k e sized inside
    obtain ⟨i, id, rfl⟩ := opens e inside
    exact inside_iff_level sized i id
  · intro k e k' sized inside stepped
    obtain ⟨i, id, rfl⟩ := opens e inside
    obtain ⟨-, ran⟩ := step_eq_some stepped
    obtain ⟨⟨r, k₁⟩, called, rfl⟩ := map_eq_ok ran
    exact sized.openshmem called

/-- The first process opens a segment: its size is one aligned page. -/
theorem shared_page_inside_firstOpen : ∃ k, Start k ∧ system.Admits Inside k [.openshmem 0 5] := by
  obtain ⟨k, start, first⟩ := exists_first
  refine ⟨k, start, (shared_page_inside_iff (fun i d found => (first.inv.procs i).sized d found)
    (by simp)).mpr ⟨?_, fun _ _ => trivial⟩⟩
  intro d _ _ _ _
  rw [first.first.2.1]
  decide

/-- The first process gives back one byte and opens a segment: the last byte of the page it gets
lies above its size. -/
theorem shared_page_outside : ∃ k k₁, Start k ∧ step k (.sbrk 0 (-1)) = some k₁ ∧
    ¬Inside k₁ (.openshmem 0 5) := by
  obtain ⟨k, start, first⟩ := exists_first
  obtain ⟨state, size, -⟩ := first.first
  have can := first.solo.can
  obtain ⟨d, hasDir⟩ := first.inv.dir can
  let k₁ := (k.setSpace 0 ⟨d, k.mem⟩).setProc 0
    { (k.setSpace 0 ⟨d, k.mem⟩).procs 0 with sz := 4095 }
  have grown : growproc k 0 (-1) = .ok (0, k₁) := by
    have resized : resize (k.procs 0).sz (-1) ⟨d, k.mem⟩ = .ok (4095, ⟨d, k.mem⟩) := by
      rw [size]
      rfl
    rw [growproc_eq hasDir, resized, ok_bind]
    rfl
  have sized : k₁.Sized := by
    intro l d' found
    by_cases same : l = 0
    · subst same
      obtain rfl : d = d' := by simpa [k₁] using found
      obtain ⟨-, above, kernel⟩ := (first.inv.procs 0).sized d hasDir
      rw [size] at above
      simp only [k₁, Kernel.setProc_procs, if_pos]
      exact ⟨by decide, above, kernel⟩
    · simp only [k₁, Kernel.setProc_procs, Kernel.setSpace_procs, if_neg same] at found ⊢
      exact (first.inv.procs l).sized d' found
  refine ⟨k, k₁, start, step_of_perform can ?_, fun inside => ?_⟩
  · rw [perform, grown]
    rfl
  · have level := (inside_iff_level sized 0 5).mp inside d first.held (by simp [k₁]) ?_ ?_
    · simp [k₁] at level
    · refine .inr ?_
      have slot : findShm k₁ 0 = some 0 := findShm_zero (by simp [k₁, first.shm])
      simp [slot]
    · have plenty := first.plenty
      have few := k₁.wants_le 0 5 d
      have free : k₁.mem.free = k.mem.free := rfl
      rw [free]
      omega

end Xv6.Vm
