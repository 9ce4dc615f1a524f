/-
# Xv6.Vm.Boot -- the first process

With enough free pages `userinit` succeeds: a page table can be missing at most once, so the pages
left over are counted by the tables still missing. The kernel it leaves has one process of one page
and an empty shared-memory table, and satisfies the invariant.
-/
import Xv6.Vm.Shmem

namespace Xv6.Vm
open Lib List
set_option autoImplicit false

/-! ## Enough memory -/

/-- How many page tables a directory does not have yet. -/
def missing (d : PgDir) : Nat := ((Finset.range NPDENTRIES).filter fun i => (d.tab i).isNone).card

/-- Pages for all the missing tables, and `c` more. -/
def Ample (c : Nat) (s : Space) : Prop := missing s.dir + c ≤ s.mem.free.length

variable {n : Nat} {k : Kernel} {id : Int} {init : List Byte} {m : Mem} {j : Fin NSHPAGE}

section Memory

variable {c v x : Nat} {s s' : Space} {m : Mem} {d : PgDir} {done : Bool}

theorem missing_addTable {i : Nat} (inI : i < NPDENTRIES) (absent : d.tab i = none) (x : Nat) :
    missing (d.addTable i x) + 1 = missing d := by
  have inside : i ∈ (Finset.range NPDENTRIES).filter fun i => (d.tab i).isNone := by
    simp [absent, inI]
  have fewer : ((Finset.range NPDENTRIES).filter fun l => ((d.addTable i x).tab l).isNone) =
      ((Finset.range NPDENTRIES).filter fun l => (d.tab l).isNone).erase i := by
    ext l
    by_cases same : l = i
    · simp [PgDir.addTable, same]
    · simp [PgDir.addTable, same]
  rw [missing, fewer, Finset.card_erase_add_one inside, missing]

theorem missing_store (d : PgDir) (v : Nat) (pte : Pte) : missing (d.store v pte) = missing d := by
  have same : ∀ i, ((d.store v pte).tab i).isNone = (d.tab i).isNone := by
    intro i
    rw [← Option.not_isSome, ← Option.not_isSome, store_tab_isSome]
  simp only [missing, same]

theorem walkpgdirAlloc_ample (ample : Ample c s) (v : Nat) :
    ∃ t, walkpgdirAlloc v s = some t ∧ Ample c t := by
  unfold walkpgdirAlloc
  cases found : s.dir.tab (pdx v) with
  | some t => exact ⟨s, rfl, ample⟩
  | none =>
    have fewer := missing_addTable (pdx_lt v) found
    unfold Ample at ample
    cases list : s.mem.free with
    | nil =>
      have := fewer 0
      simp only [list, length_nil] at ample
      omega
    | cons x rest =>
      rw [kalloc_cons list]
      refine ⟨_, rfl, ?_⟩
      have := fewer x
      simp only [list, length_cons] at ample
      change missing (s.dir.addTable (pdx v) x) + c ≤ rest.length
      omega

theorem Ample.store (ample : Ample c s) (v : Nat) (pte : Pte) : Ample c (s.store v pte) := by
  unfold Ample
  rw [Space.store, missing_store]
  exact ample

/-- With ample memory a mapping that returns is complete. -/
theorem mapLoop_ample {perm : Perm} (ample : Ample c s)
    (ran : mapLoop perm n v x s = .ok (done, s')) : done = true ∧ Ample c s' := by
  induction n generalizing v x s with
  | zero =>
    cases ran
    exact ⟨rfl, ample⟩
  | succ n ih =>
    obtain ⟨t, walked, ampleT⟩ := walkpgdirAlloc_ample ample v
    rcases mapLoop_succ ran with ⟨full, -⟩ | ⟨t', walked', -, rest⟩
    · rw [walked] at full
      cases full
    · cases walked.symm.trans walked'
      exact ih (ampleT.store v _) rest

theorem mapKernel_ample {list : List KMap} (ample : Ample c s)
    (ran : mapKernel list s = .ok (done, s')) : done = true ∧ Ample c s' := by
  induction list generalizing s with
  | nil =>
    cases ran
    exact ⟨rfl, ample⟩
  | cons k rest ih =>
    obtain ⟨⟨mapped, t⟩, row, ran⟩ := bind_eq_ok ran
    obtain ⟨rfl, ampleT⟩ := mapLoop_ample ample row
    exact ih ampleT ran

theorem setupkvm_ample (linked : m.layout.Ok) (plenty : NPDENTRIES + 1 + c ≤ m.free.length) :
    ∃ d m', setupkvm m = .ok (some d, m') ∧ Ample c ⟨d, m'⟩ := by
  cases list : m.free with
  | nil =>
    simp [list] at plenty
  | cons x rest =>
    let m₁ : Mem := { m with free := rest }
    have taken : kalloc m = some (x, m₁) := kalloc_cons list
    have start : Ample c ⟨⟨x, fun _ => none⟩, m₁.fill x 0⟩ := by
      have all : missing ⟨x, fun _ => none⟩ = NPDENTRIES := by
        simp [missing]
      unfold Ample
      rw [all]
      simp only [list, length_cons] at plenty
      change NPDENTRIES + c ≤ rest.length
      omega
    obtain ⟨done, s, ran⟩ := mapKernel_returns (kmap_upper linked) (kmap_low linked)
      (kmap_ordered linked) (s := ⟨⟨x, fun _ => none⟩, m₁.fill x 0⟩) fun _ _ _ _ _ => rfl
    obtain ⟨rfl, ample⟩ := mapKernel_ample start ran
    refine ⟨s.dir, s.mem, ?_, ample⟩
    simp only [setupkvm, taken, if_neg (show ¬KERNBASE + PHYSTOP > DEVSPACE by decide)]
    rw [ran]
    rfl

theorem TakenFrom.map {t : Space} {pte : Pte} (taken : TakenFrom m s.mem)
    (walked : walkpgdirAlloc v s = some t) : TakenFrom m (t.store v pte).mem :=
  taken.trans (walkpgdirAlloc_takenFrom walked).1

theorem setupkvm_takenFrom {m' : Mem} (linked : m.layout.Ok) (ran : setupkvm m = .ok (some d, m')) :
    TakenFrom m m' := by
  unfold setupkvm at ran
  split at ran
  · cases ran
  · rename_i x m₁ taken
    have before := kalloc_takenFrom taken
    obtain ⟨⟨mapped, s⟩, rows, ran⟩ := bind_eq_ok ran
    have after : TakenFrom m s.mem :=
      mapKernel_keeps (P := fun s => TakenFrom m s.mem) (kmap_upper (before.layout ▸ linked))
        (fun _ _ _ _ _ _ _ taken walked _ => taken.map walked) ⟨before.layout, before.free⟩ rows
    cases mapped with
    | false =>
      obtain ⟨m₂, freed, ran⟩ := bind_eq_ok ran
      cases pure_eq_ok ran
    | true =>
      cases pure_eq_ok ran
      exact after

theorem inituvm_takenFrom (ran : inituvm init s = .ok s') : TakenFrom s.mem s'.mem := by
  unfold inituvm at ran
  split at ran
  · cases ran
  split at ran
  · cases ran
  · rename_i y m taken
    have before := kalloc_takenFrom taken
    obtain ⟨⟨mapped, t⟩, mapping, ran⟩ := bind_eq_ok ran
    cases pure_eq_ok ran
    have after : TakenFrom s.mem t.mem :=
      mapLoop_keeps (P := fun t => TakenFrom s.mem t.mem)
        (fun _ _ _ _ _ _ taken walked _ => taken.map walked) le_rfl le_rfl
        ⟨before.layout, before.free⟩ mapping
    exact ⟨after.layout, after.free⟩

end Memory

/-! ## userinit -/

/-- The kernel after `userinit`: process 0 has one page, nobody else exists, the shared-memory table
is empty. -/
structure First (k : Kernel) : Prop where
  inv : Inv (fun _ _ => False) k
  full : k.Full
  plenty : 2 ^ 14 ≤ k.mem.free.length
  range : ∀ x ∈ k.mem.free, k.mem.layout.kernEnd ≤ x * PGSIZE ∧ x * PGSIZE < PHYSTOP
  init : k.initproc = 0
  first : (k.procs 0).state = .RUNNABLE ∧ (k.procs 0).sz = PGSIZE ∧ (k.procs 0).shmemaddr = 0
  others : ∀ i, i ≠ 0 → (k.procs i).state = .UNUSED
  shm : ∀ r, k.shm r = ⟨0, 0, 0, none⟩
  held : k.shmHeld = false

theorem Booted.blank_inv (booted : Booted m) : Inv (fun _ _ => False) (blank m) := by
  have noUser : ∀ u, ((blank m).env fun _ _ => False).user u = none := by
    rintro ⟨w, v⟩
    cases w <;> simp [Env.user, Kernel.env, blank, noProc]
  have noOwner : ∀ o, ((blank m).env fun _ _ => False).own o = none := by
    intro o
    cases o with
    | hand => rfl
    | kstack i => rfl
    | dir w => cases w <;> rfl
    | table w i => cases w <;> rfl
  have zero : 0 ∉ m.free := by
    intro inside
    have range := (booted.range 0 inside).1
    have data := booted.linked.data
    omega
  refine ⟨⟨⟨booted.nodup, ?_, ?_, ?_, ?_, fun _ => zero, ?_⟩, booted.clean, booted.linked, ?_⟩, ?_⟩
  · intro o o' x owns
    exact absurd ((noOwner o).symm.trans owns) (by simp)
  · intro o x owns
    exact absurd ((noOwner o).symm.trans owns) (by simp)
  · intro u x uses
    exact absurd ((noUser u).symm.trans uses) (by simp)
  · intro u o x uses
    exact absurd ((noUser u).symm.trans uses) (by simp)
  · intro r o owns
    exact absurd ((noOwner o).symm.trans owns) (by simp)
  · intro u r
    rw [noUser]
    exact iff_of_false (by simp) id
  · intro i
    exact ⟨fun d found => absurd found (by simp [blank, noProc]), fun _ => ⟨rfl, rfl⟩, fun used => absurd rfl used, 0, by decide, rfl⟩

/-- `inituvm` on a directory without user pages. -/
theorem inituvm_ample {E : Env} {w : Who} {base : Nat → Option Nat} {c : Nat} {s : Space}
    (small : init.length < PGSIZE) (empty : E.hand = none)
    (good : Good E w 0 (fun _ => False) base s) (only : KernelOnly s.dir) (ample : Ample (c + 1) s)
    :
    ∃ s', inituvm init s = .ok s' ∧ Good E w 0 (fun _ => False) base s' ∧ Image PGSIZE s'.dir ∧
      c ≤ s'.mem.free.length := by
  have half : KERNPAGE < VPAGES := by decide
  have kernel : 0 < KERNPAGE := by decide
  cases list : s.mem.free with
  | nil =>
    unfold Ample at ample
    simp [list] at ample
  | cons y rest =>
    have taken := kalloc_cons list
    have held : Good (E.withHand (some y)) w 0 (fun _ => False) base
        ⟨s.dir, Mem.fill { s.mem with free := rest } y 0⟩ :=
      (good.kalloc empty taken).bytes rfl rfl rfl rfl
    have left : Ample c ⟨s.dir, Mem.fill { s.mem with free := rest } y 0⟩ := by
      unfold Ample at ample ⊢
      simp only [list, length_cons] at ample
      change missing s.dir + c ≤ rest.length
      omega
    obtain ⟨t, walked, ampleT⟩ := walkpgdirAlloc_ample left 0
    have mapped := mapOne_ok (s := ⟨s.dir, Mem.fill { s.mem with free := rest } y 0⟩) y userPerm
      (only.empty 0 kernel) walked
    have ampleT := ampleT.store 0 ⟨y, true, userPerm.w, userPerm.u⟩
    rw [← mappages_one (by omega)] at mapped
    generalize t.store 0 _ = t at mapped ampleT
    rcases mapOne_good le_rfl kernel (fun _ none_ => none_.elim) held mapped with
      ⟨-, goodT, pages'⟩ | ⟨false_, -⟩
    · refine ⟨⟨t.dir, t.mem.write y 0 init⟩, ?_, ?_, ⟨⟨by decide, ?_, ?_⟩, ?_⟩, ?_⟩
      · rw [inituvm, if_neg (by omega), taken]
        dsimp only
        rw [Nat.zero_mul] at mapped
        rw [mapped]
        rfl
      · rw [Env.withHand_self none empty] at goodT
        exact goodT.sameBooks (.write ..)
      · intro v above inV
        have later : v ≠ 0 := by
          rintro rfl
          exact absurd above (by decide)
        rw [pages' v (by omega), if_neg later]
        exact only.empty v inV
      · rw [pages' KERNPAGE half, if_neg (by decide)]
        exact only.kernel
      · intro v below
        have isFirst : v = 0 := by
          simp only [pages, PGSIZE] at below
          omega
        rw [pages' v (by omega), if_pos isFirst]
        simp
      · exact (Nat.le_add_left _ _).trans ampleT
    · cases false_

/-- The kernel once `allocproc` has made process 0, with page `x` for its stack. -/
def embryo (m : Mem) (x : Nat) (rest : List Nat) : Kernel :=
  ({ blank m with nextpid := 2, mem := { m with free := rest } } : Kernel).setProc 0
    { noProc with state := .EMBRYO, pid := 1, kstack := some x }

/-- The first process in address space `d`; its name is "initcode". -/
def initProc (x : Nat) (d : PgDir) : Proc :=
  { noProc with
    state := .RUNNABLE
    pid := 1
    kstack := some x
    pgdir := some d
    sz := PGSIZE
    esp := PGSIZE
    name := [105, 110, 105, 116, 99, 111, 100, 101] }

/-- The kernel that `userinit` leaves. -/
def initKernel (m : Mem) (x : Nat) (rest : List Nat) (s : Space) : Kernel :=
  ({ embryo m x rest with mem := s.mem } : Kernel).setProc 0 (initProc x s.dir)

section Userinit

variable {m : Mem} {x : Nat} {rest : List Nat} {s : Space}

theorem allocproc_blank (list : m.free = x :: rest) :
    allocproc (blank m) = (some 0, embryo m x rest) := by
  have free : firstSlot (fun i => decide (((blank m).procs i).state = .UNUSED)) = some 0 := by
    rfl
  simp only [allocproc, free]
  rw [show kalloc ({ blank m with nextpid := _ } : Kernel).mem = _ from kalloc_cons list]
  rfl

theorem Booted.embryo (booted : Booted m) (list : m.free = x :: rest) :
    Embryo (fun _ _ => False) (blank m) 0 x (embryo m x rest) :=
  booted.blank_inv.embryo rfl (kalloc_cons list)

/-- Once the address space is built, everything is as the first process needs it. -/
theorem initKernel_first {base : Nat → Option Nat} (booted : Booted m) (list : m.free = x :: rest)
    (good : Good ((embryo m x rest).env fun _ _ => False) (some 0) 0 (fun _ => False) base s)
    (image : Image PGSIZE s.dir) (left : 2 ^ 14 ≤ s.mem.free.length) (below : TakenFrom m s.mem) :
    First (initKernel m x rest s) := by
  obtain ⟨quiet, full⟩ := (booted.embryo list).grow (p := initProc x s.dir) booted.blank_inv good image
    rfl rfl rfl rfl
  refine ⟨quiet.inv, full fun _ => by simp [Proc.Full, blank, noProc], left, ?_, rfl, ?_, ?_, fun _ => rfl, rfl⟩
  · intro y inside
    change s.mem.layout.kernEnd ≤ _ ∧ _
    rw [below.layout]
    exact booted.range y (below.free.subset inside)
  · simp [initKernel, initProc, noProc]
  · intro l other
    simp [initKernel, embryo, other, blank]
    rfl

end Userinit

theorem userinit_spec (initcode : List Byte) (booted : Booted m) (small : initcode.length < PGSIZE) :
    ∃ k, userinit m initcode = .ok k ∧ First k := by
  have plenty := booted.plenty
  cases list : m.free with
  | nil => simp [list] at plenty
  | cons x rest =>
    simp only [list, length_cons] at plenty
    obtain ⟨d, m₂, setup, ample⟩ :=
      setupkvm_ample (m := (embryo m x rest).mem) (c := 2 ^ 14 + 1) booted.linked (by
        change NPDENTRIES + 1 + (2 ^ 14 + 1) ≤ rest.length
        simp only [NPDENTRIES]
        omega)
    cases setupkvm_made (booted.embryo list).bare setup with
    | some d good only =>
      obtain ⟨s, ran, goodS, image, left⟩ := inituvm_ample small rfl good only ample
      have below : TakenFrom m s.mem := (kalloc_takenFrom (kalloc_cons list)).trans
        ((setupkvm_takenFrom (m := (embryo m x rest).mem) booted.linked setup).trans (inituvm_takenFrom ran))
      refine ⟨initKernel m x rest s, ?_, initKernel_first booted list goodS image left below⟩
      simp only [userinit, allocproc_blank list]
      rw [setup]
      change (inituvm initcode ⟨d, m₂⟩ >>= _) = _
      rw [ran]
      simp [initKernel, embryo, initProc, Kernel.setSpace, Kernel.setProc, noProc, blank, bind,
        Except.bind, pure, Except.pure]

theorem Start.first (start : Start k) : First k := by
  obtain ⟨m, initcode, booted, ran⟩ := start
  by_cases small : initcode.length < PGSIZE
  · obtain ⟨k', ran', first⟩ := userinit_spec initcode booted small
    rw [ran] at ran'
    cases ran'
    exact first
  · -- `inituvm` refuses a larger program
    unfold userinit at ran
    split at ran
    · cases ran
    · obtain ⟨⟨made, m'⟩, -, ran⟩ := bind_eq_ok ran
      cases made with
      | none => cases ran
      | some d =>
        obtain ⟨s, init, -⟩ := bind_eq_ok ran
        rw [inituvm, if_pos (by omega)] at init
        cases init

/-- Eight megabytes and more above the kernel are free. -/
def bootMem : Mem where
  layout := ⟨0x200000, 0x108000⟩
  free := range' 1024 (2 ^ 15)
  bytes := fun _ _ => 0
  doubled := false

theorem bootMem_booted : Booted bootMem := by
  refine ⟨nodup_range', ?_, ?_, ⟨by decide, by decide, by decide, by decide⟩, rfl⟩
  · simp [bootMem]
  · intro x inside
    obtain ⟨above, below⟩ := mem_range'_1.mp inside
    simp only [bootMem, PGSIZE, PHYSTOP]
    omega

theorem exists_start : ∃ k, Start k := by
  obtain ⟨k, ran, -⟩ := userinit_spec [] bootMem_booted (by decide)
  exact ⟨k, bootMem, [], bootMem_booted, ran⟩

theorem exists_first : ∃ k, Start k ∧ First k := by
  obtain ⟨k, start⟩ := exists_start
  exact ⟨k, start, start.first⟩

/-! ## One process and the segments it opens -/

/-- Process 0 is alone, has `n` pages, and there is memory left. -/
structure Solo (n : Nat) (k : Kernel) : Prop where
  sane : k.Sane
  can : k.CanCall 0
  size : (k.procs 0).sz = n * PGSIZE
  held : k.shmHeld = false
  plenty : 128 ≤ k.mem.free.length + 2 * n
  range : ∀ x ∈ k.mem.free, k.mem.layout.kernEnd ≤ x * PGSIZE ∧ x * PGSIZE < PHYSTOP

theorem First.solo (first : First k) : Solo 1 k := by
  obtain ⟨state, size, -⟩ := first.first
  have plenty := first.plenty
  refine ⟨⟨_, first.inv⟩, ?_, by rw [size, Nat.one_mul], first.held, by omega, first.range⟩
  simp [Kernel.CanCall, state]

theorem pages_mul (n : Nat) : pages (n * PGSIZE) = n := by
  simp only [pages, PGSIZE]
  omega

/-- Opening a segment goes through, and process 0 has one page more. -/
theorem Solo.openshmem (solo : Solo n k) (id : Int) (few : n < 32)
    (slot : findShm k id ≠ none ∨ findShm k 0 ≠ none) :
    ∃ j k₁ e k', step k (.openshmem 0 id) = some k' ∧ Solo (n + 1) k' ∧ Claim k id j k₁ e ∧
      (∀ r, k'.shm r = if r = j then e else k.shm r) ∧ k'.lastOpened 0 = n ∧
      TakenFrom k.mem k'.mem ∧ ∀ l u, k'.page l u = if l = 0 ∧ u = n then some (k₁.shm j).phys else k.page l u := by
  obtain ⟨S, inv⟩ := solo.sane
  have plenty := solo.plenty
  obtain ⟨d, hasDir⟩ := inv.dir solo.can
  have first : pages (k.procs 0).sz = n := by
    rw [solo.size, pages_mul]
  have room : 32 ≤ KERNPAGE := by decide
  obtain ⟨k', ran⟩ := openshmem_ok inv id hasDir (by omega) solo.held (by omega) slot
  have stepped : step k (.openshmem 0 id) = some k' := by
    refine step_of_perform solo.can ?_
    rw [perform, ran]
    rfl
  obtain ⟨-, opened⟩ := openshmem_cases inv ran
  cases opened with
  | mapped j k₁ e S₁ claim attached shm held =>
    have same : k₁.procs = k.procs := by
      cases claim <;> rfl
    have size : (k₁.procs 0).sz = n * PGSIZE := by
      rw [same, solo.size]
    have mem : TakenFrom k.mem k₁.mem ∧ k.mem.free.length ≤ k₁.mem.free.length + 1 := by
      cases claim with
      | found hit => exact ⟨⟨rfl, suffix_refl _⟩, by simp⟩
      | created miss slot taken =>
        obtain ⟨layout, free⟩ := kalloc_takenFrom taken
        refine ⟨⟨layout, free⟩, ?_⟩
        rw [(kalloc_eq_some taken).1, length_cons]
        exact le_rfl
    have both := mem.1.trans attached.mem.1
    have left := attached.mem.2
    have page : ∀ l u, k₁.page l u = k.page l u := by
      intro l u
      simp only [Kernel.page, same]
    refine ⟨j, k₁, e, k', stepped, ⟨⟨_, attached.inv⟩, ?_, ?_, held.trans solo.held, by omega, ?_⟩,
      claim, shm, ?_, both, ?_⟩
    · have state := attached.state
      rw [same] at state
      unfold Kernel.CanCall
      rw [state]
      exact solo.can
    · rw [attached.size, size, Nat.succ_mul]
    · intro x inside
      rw [both.layout]
      exact solo.range x (both.free.subset inside)
    · rw [attached.last, size, pages_mul]
    · intro l u
      have entry := attached.page l u
      rwa [size, pages_mul, page] at entry

/-! ### Slots of the table -/

theorem findShm_spec (found : findShm k id = some j) : (k.shm j).id = id := by
  simpa using find?_some found

theorem findShm_eq_none : findShm k id = none ↔ ∀ r, (k.shm r).id ≠ id := by
  simp [findShm, find?_eq_none]

theorem findShm_zero (first : (k.shm 0).id = id) : findShm k id = some 0 := by
  have slots : finRange NSHPAGE = 0 :: (finRange NSHPAGE).tail := by rfl
  rw [findShm, slots, find?_cons_of_pos (by simp [first])]

/-- The first process can open any id: all slots are free, and so are enough pages. -/
theorem First.opens (first : First k) (id : Int) :
    ∃ k', openshmem k 0 id = .ok (some (pgroundup (k.procs 0).sz), k') := by
  obtain ⟨d, hasDir⟩ :=
    first.inv.dir first.solo.can
  have slot : findShm k 0 = some 0 := findShm_zero (by rw [first.shm])
  have plenty := first.plenty
  exact openshmem_ok first.inv id hasDir (by rw [first.first.2.1]; decide) first.held (by omega)
    (.inr (by simp [slot]))

theorem findShm_one (other : (k.shm 0).id ≠ id) (second : (k.shm 1).id = id) :
    findShm k id = some 1 := by
  have slots : finRange NSHPAGE = 0 :: 1 :: (finRange NSHPAGE).tail.tail := by rfl
  rw [findShm, slots, find?_cons_of_neg (by simp [other]),
    find?_cons_of_pos (by simp [second])]

/-- The first open of a segment: slot 0 gets the first free page. -/
theorem First.openshmem (first : First k) (id : Int) (nonzero : id ≠ 0) :
    ∃ x k', step k (.openshmem 0 id) = some k' ∧ Solo 2 k' ∧ x ∈ k.mem.free ∧
      TakenFrom k.mem k'.mem ∧ (k'.shm 0 = ⟨id, 1, x, some (id, x)⟩) ∧
      (∀ r, r ≠ 0 → k'.shm r = ⟨0, 0, 0, none⟩) ∧ k'.lastOpened 0 = 1 ∧
      ∀ l u, k'.page l u = if l = 0 ∧ u = 1 then some x else k.page l u := by
  have empty : ∀ r, (k.shm r).id = 0 := fun r => by rw [first.shm r]
  have slot : findShm k 0 = some 0 := findShm_zero (empty 0)
  obtain ⟨j, k₁, e, k', stepped, solo, claim, shm, last, mem, page⟩ :=
    first.solo.openshmem id (by decide) (.inr (by simp [slot]))
  cases claim with
  | found hit => exact absurd (findShm_spec hit) (by rw [empty]; exact nonzero.symm)
  | created miss slot' taken =>
    rename_i x m
    obtain rfl : 0 = j := Option.some.inj (slot.symm.trans slot')
    refine ⟨x, k', stepped, solo, ?_, mem, ?_, ?_, last, ?_⟩
    · rw [(kalloc_eq_some taken).1]
      simp
    · rw [shm, if_pos rfl, first.shm]
      rfl
    · intro r other
      rw [shm, if_neg other, first.shm]
    · simpa using page

/-- Closing a segment goes through when the entry to clear is in use. -/
theorem Solo.closeshmem (solo : Solo n k) (hit : findShm k id = some j)
    (mapped : k.page 0 (k.lastOpened 0) ≠ none) :
    ∃ k', step k (.closeshmem 0 id) = some k' ∧ Closed k 0 id j k' := by
  obtain ⟨S, inv⟩ := solo.sane
  obtain ⟨d, hasDir⟩ := inv.dir solo.can
  have there : (d.tab (pdx (k.lastOpened 0))).isSome := by
    rw [← walkpgdir_isSome]
    cases walked : walkpgdir d (k.lastOpened 0) with
    | none => exact absurd (by simp [Kernel.page, hasDir, pageAt, walked]) mapped
    | some pte => rfl
  obtain ⟨k', ran⟩ := closeshmem_ok inv hasDir solo.held hit there
  obtain ⟨-, ⟨miss, -⟩ | ⟨j', -, closed⟩⟩ := closeshmem_cases inv ran
  · simp [hit] at miss
  · obtain rfl : j = j' := Option.some.inj (hit.symm.trans closed.hit)
    refine ⟨k', step_of_perform solo.can ?_, closed⟩
    rw [perform, ran]
    rfl

end Xv6.Vm
