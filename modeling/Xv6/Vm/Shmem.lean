/-
# Xv6.Vm.Shmem -- what openshmem and closeshmem do

`openshmem` finds or claims a slot of the shared-memory table and then maps the page of that slot at
the end of the calling process; `closeshmem` clears one entry of the caller's page table, wherever
the caller opened last. The lemmas say for both calls what happened to the table and to every
mapping, whatever the call returned. The books stay sound in all cases: a recorded page is neither
free nor owned, so it may get more mappings, and clearing an entry frees nothing.
-/
import Xv6.Vm.Calls

namespace Xv6.Vm
open Lib Function
set_option autoImplicit false

section Mapping

variable {E : Env} {w : Who} {lo : Nat} {A : User → Prop} {base : Nat → Option Nat}
  {s : Space} {v : Nat}

/-- A recorded page gets one more mapping. -/
theorem Good.share (good : Good E w lo A base s) (inV : v < KERNPAGE)
    (there : (s.dir.tab (pdx v)).isSome) (r : Fin NSHPAGE) (perm : Perm) :
    (Env.place { E with sharing := fun u r' =>
        if u = (w, v) then E.record r' = E.record r else E.sharing u r' } w
      (s.store v ⟨E.record r, true, perm.w, perm.u⟩)).Sound := by
  have users : (E.place w (s.store v ⟨E.record r, true, perm.w, perm.u⟩)).user = _ :=
    Env.user_store inV there
  refine ⟨?_, good.sound.clean, good.sound.linked, ?_⟩
  · have books : (E.place w (s.store v ⟨E.record r, true, perm.w, perm.u⟩)).books =
        { (E.place w s).books with
          user := update (E.place w s).books.user (w, v) (some (E.record r)) } := by
      ext1
      · rfl
      · exact Env.own_store
      · exact users
      · rfl
    exact books ▸ good.sound.books.share r (w, v)
  · intro u r'
    change (E.place w _).user u = some (E.record r') ↔ if _ then _ else _
    rw [users]
    by_cases same : u = (w, v)
    · simp [same, eq_comm]
    · rw [update_of_ne same, if_neg same]
      exact good.sound.shared u r'

/-- A mapping is cleared; its page is not freed. -/
theorem Good.clear (good : Good E w lo A base s) (inV : v < KERNPAGE)
    (there : (s.dir.tab (pdx v)).isSome) :
    (Env.place { E with sharing := fun u r => u ≠ (w, v) ∧ E.sharing u r } w
      (s.store v .zero)).Sound := by
  have users : (E.place w (s.store v .zero)).user = _ := Env.user_store inV there
  refine ⟨?_, good.sound.clean, good.sound.linked, ?_⟩
  · have books : (E.place w (s.store v .zero)).books =
        { (E.place w s).books with
          user := update (E.place w s).books.user (w, v) none } := by
      ext1
      · rfl
      · exact Env.own_store
      · exact users
      · rfl
    exact books ▸ good.sound.books.unmap (w, v)
  · intro u r
    change (E.place w _).user u = some (E.record r) ↔ u ≠ (w, v) ∧ E.sharing u r
    rw [users]
    by_cases same : u = (w, v)
    · simp [same, Pte.zero]
    · rw [update_of_ne same]
      exact (good.sound.shared u r).trans (and_iff_right same).symm

end Mapping

/-! ## openshmem -/

/-- Who maps which recorded page once process `i` has mapped the page of slot `j` at `v`. -/
def joined (S : User → Fin NSHPAGE → Prop) (k : Kernel) (i : Slot) (v : Nat) (j : Fin NSHPAGE) :
    User → Fin NSHPAGE → Prop := fun u r =>
  if u = (some i, v) then (k.shm r).phys = (k.shm j).phys else S u r

/-- The page whose mapping `closeshmem` clears: where process `i` opened last. -/
def Kernel.lastOpened (k : Kernel) (i : Slot) : Nat := (k.procs i).shmemaddr / PGSIZE

/-- The page of slot `j` is mapped at the end of process `i`, and the process is a page larger. -/
structure Attached (S : User → Fin NSHPAGE → Prop) (k : Kernel) (i : Slot) (j : Fin NSHPAGE)
    (k' : Kernel) : Prop where
  room : pages (k.procs i).sz < KERNPAGE
  fresh : k.page i (pages (k.procs i).sz) = none
  inv : Inv (joined S k i (pages (k.procs i).sz) j) k'
  page : ∀ l u, k'.page l u =
    if l = i ∧ u = pages (k.procs i).sz then some (k.shm j).phys else k.page l u
  others : ∀ l, l ≠ i → k'.procs l = k.procs l
  state : (k'.procs i).state = (k.procs i).state
  size : (k'.procs i).sz = (k.procs i).sz + PGSIZE
  last : k'.lastOpened i = pages (k.procs i).sz
  mem : TakenFrom k.mem k'.mem ∧ k.mem.free.length ≤ k'.mem.free.length + 1
  full : k.Full → k'.Full

variable {d : PgDir} {v : Nat} {id : Int}

section Open

variable {k k' k₂ : Kernel} {S : User → Fin NSHPAGE → Prop} {i : Slot} {j : Fin NSHPAGE}

theorem setSpace_self (hasDir : (k.procs i).pgdir = some d) : k.setSpace i ⟨d, k.mem⟩ = k := by
  unfold Kernel.setSpace Kernel.setProc
  have same : update k.procs i { k.procs i with pgdir := some d } = k.procs := by
    rw [← hasDir]
    exact update_eq_self i k.procs
  simp only [same]

variable {m : Mem} {k₁ : Kernel}

/-- The page at the end of a process is mapped: there was room for it below the kernel, and now the
process may be a page larger. -/
theorem Sized.extend {sz : Nat} {t : Space} (sized : Sized sz d)
    (absent : pageAt d (pages sz) = none) (walked : walkpgdirAlloc (pages sz) ⟨d, m⟩ = some t)
    (pte : Pte) : pages sz < KERNPAGE ∧ Sized (sz + PGSIZE) (t.store (pages sz) pte).dir := by
  have small : KERNPAGE < VPAGES := by decide
  have room : pages sz < KERNPAGE := by
    -- at the very top the kernel's own mapping is in the way
    refine lt_of_le_of_ne (pages_le_kernpage sized.bound) fun top => ?_
    exact sized.kernel (top ▸ absent)
  have next : pages (sz + PGSIZE) = pages sz + 1 := by
    simp only [pages, PGSIZE]
    omega
  have entry : ∀ u, u < VPAGES → u ≠ pages sz →
      pageAt (t.store (pages sz) pte).dir u = pageAt d u := by
    intro u inU other
    change pageAt (t.dir.store _ _) u = _
    rw [pageAt_store inU (by omega) (walkpgdirAlloc_isSome walked), if_neg other,
      walkpgdirAlloc_pageAt walked]
  refine ⟨room, ?_, ?_, ?_⟩
  · simp only [pages, KERNPAGE, KERNBASE, PGSIZE] at room ⊢
    omega
  · intro u above inU
    rw [entry u (by omega) (by omega)]
    exact sized.above u (by omega) inU
  · rw [entry KERNPAGE small (by omega)]
    exact sized.kernel

/-- `mapShm` fails and changes nothing, or maps one page. -/
theorem mapShm_cases {mapped : Bool} (inv : Inv S k) (ran : mapShm k i j = .ok (mapped, k')) :
    (mapped = false ∧ k' = k ∧ k.mem.free = []) ∨ ∃ d t, mapped = true ∧ (k.procs i).pgdir = some d ∧
      pages (k.procs i).sz < KERNPAGE ∧ pageAt d (pages (k.procs i).sz) = none ∧
      walkpgdirAlloc (pages (k.procs i).sz) ⟨d, k.mem⟩ = some t ∧
      k' = k.setSpace i (t.store (pages (k.procs i).sz) ⟨(k.shm j).phys, true, true, true⟩) := by
  obtain ⟨s, space, ran⟩ := bind_eq_ok ran
  obtain ⟨⟨done, s'⟩, mapping, ran⟩ := bind_eq_ok ran
  cases pure_eq_ok ran
  obtain ⟨hasDir, mem⟩ := space_eq_ok space
  have shape : s = ⟨s.dir, k.mem⟩ := by rw [← mem]
  have sized := (inv.procs i).sized s.dir hasDir
  have inHalf := pages_le_kernpage sized.bound
  have small : KERNPAGE < VPAGES := by decide
  rw [pgroundup_eq sized.bound, mappages_one (by omega)] at mapping
  rcases mapOne_eq_ok mapping with ⟨rfl, rfl, full⟩ | ⟨rfl, t, walked, absent, rfl⟩
  · left
    refine ⟨rfl, ?_, ?_⟩
    · rw [shape]
      exact setSpace_self hasDir
    · by_contra free
      obtain ⟨t, walked⟩ := walkpgdirAlloc_of_free (mem ▸ free) (pages (k.procs i).sz)
      rw [full] at walked
      cases walked
  · right
    exact ⟨s.dir, t, rfl, hasDir, (sized.extend absent (shape ▸ walked) .zero).1, absent,
      shape ▸ walked, rfl⟩

/-- One entry of the directory of process `i` changes, and no other directory. -/
theorem page_of_entry {d' : PgDir} {c : Option Nat} (inV : v < KERNPAGE)
    (hasDir : (k.procs i).pgdir = some d) (here : (k'.procs i).pgdir = some d')
    (others : ∀ l, l ≠ i → (k'.procs l).pgdir = (k.procs l).pgdir)
    (entry : ∀ u, u < VPAGES → pageAt d' u = if u = v then c else pageAt d u) (l : Slot) (u : Nat) :
    k'.page l u = if l = i ∧ u = v then c else k.page l u := by
  have small : KERNPAGE < VPAGES := by decide
  by_cases same : l = i
  · subst same
    by_cases inU : u < KERNPAGE
    · simp [Kernel.page, here, hasDir, inU, entry u (by omega)]
    · have other : u ≠ v := by omega
      simp [Kernel.page, inU, other]
  · simp [Kernel.page, others l same, same]

theorem attached (inv : Inv S k) (ran : mapShm k i j = .ok (true, k₂)) (mem : k'.mem = k₂.mem)
    (procs : k'.procs = (attach k₂ i).procs) (phys : ∀ r, (k'.shm r).phys = (k₂.shm r).phys) :
    Attached S k i j k' := by
  rcases mapShm_cases inv ran with ⟨false_, -⟩ | ⟨d, t, -, hasDir, room, absent, walked, rfl⟩
  · cases false_
  have sized := (inv.procs i).sized d hasDir
  have bound := sized.bound
  have small : KERNPAGE < VPAGES := by decide
  have there := walkpgdirAlloc_isSome walked
  have sizedNow := (sized.extend absent walked ⟨(k.shm j).phys, true, true, true⟩).2
  generalize pages' : pages (k.procs i).sz = v at *
  let s' := t.store v ⟨(k.shm j).phys, true, true, true⟩
  have entry : ∀ u, u < VPAGES →
      pageAt s'.dir u = if u = v then some (k.shm j).phys else pageAt d u :=
    fun u inU => pageAt_map walked inU (by omega) rfl
  have others : ∀ l, l ≠ i → k'.procs l = k.procs l := by
    intro l other
    simp [procs, attach, other]
  have here : k'.procs i = { k.procs i with
      pgdir := some s'.dir
      shmemaddr := v * PGSIZE
      sz := (k.procs i).sz + PGSIZE } := by
    have size : (k.procs i).sz + PGSIZE < 2 ^ 32 := by
      simp only [KERNBASE, PGSIZE] at *
      omega
    simpa [procs, attach, pgroundup_eq bound, pages', s'] using size
  have next : pages ((k.procs i).sz + PGSIZE) = v + 1 := by
    simp only [← pages', pages, PGSIZE]
    omega
  have page := page_of_entry (k := k) (i := i) room hasDir (by rw [here])
    (fun l other => by rw [others l other]) entry
  refine ⟨pages' ▸ room, ?_, ?_, by simpa only [pages'] using page, others, ?_, ?_, ?_, ?_, ?_⟩
  · simp [Kernel.page, pages', hasDir, absent]
  · refine inv.update (j := i) ?_ others ?_
    · have good : Good (k.env S) (some i) v (fun _ => False) (pageAt d) ⟨d, k.mem⟩ :=
        inv.good hasDir fun u above => inv.private_above hasDir (pages' ▸ above)
      have shared := (good.walkpgdirAlloc walked).share room there j ⟨true, true⟩
      rw [pages', env_eq_place (k := k) (i := i) (s := s')]
      · exact shared
      · exact others
      · rw [here]
      · exact phys
      · exact mem
      · rw [here]
    · rw [here]
      have ok := inv.procs i
      refine ⟨?_, ?_, by simp, ⟨v, room, rfl⟩⟩
      · simpa using sizedNow
      · intro isUnused
        exact absurd (hasDir.symm.trans (ok.unused isUnused).1) (by simp)
  · rw [here]
  · rw [here]
  · rw [Kernel.lastOpened, here, pages']
    exact Nat.mul_div_cancel v (by decide)
  · rw [mem]
    exact walkpgdirAlloc_takenFrom walked
  · intro full
    refine full.update others ?_
    rw [here]
    intro d' found
    cases found
    intro u below
    have old := full i d hasDir u
    simp only [next] at below
    rw [entry u (by omega)]
    split
    · simp
    · exact old (by omega)

theorem mapShm_shm {mapped : Bool} (ran : mapShm k i j = .ok (mapped, k')) :
    k'.shm = k.shm ∧ k'.shmHeld = k.shmHeld := by
  obtain ⟨s, -, ran⟩ := bind_eq_ok ran
  obtain ⟨⟨done, s'⟩, -, ran⟩ := bind_eq_ok ran
  cases pure_eq_ok ran
  exact ⟨rfl, rfl⟩

/-- Slot `j` stands for `id`: it did before, or it was free and got a new page. The last argument
is what the slot holds once the page is mapped. -/
inductive Claim (k : Kernel) (id : Int) (j : Fin NSHPAGE) : Kernel → ShPage → Prop where
  | found (hit : findShm k id = some j) :
      Claim k id j (k.setShm j { k.shm j with nAccess := (k.shm j).nAccess + 1 })
        { k.shm j with nAccess := (k.shm j).nAccess + 1 }
  | created {x : Nat} {m : Mem} (miss : findShm k id = none) (slot : findShm k 0 = some j)
      (taken : kalloc k.mem = some (x, m)) :
      Claim k id j (({ k with mem := m.fill x 0 } : Kernel).setShm j
          { k.shm j with id := id, phys := x, got := some (id, x) })
        ⟨id, (k.shm j).nAccess + 1, x, some (id, x)⟩

/-- How `openshmem` ends. -/
inductive Opened (k : Kernel) (i : Slot) (id : Int) (k' : Kernel) : Option Nat → Prop where
  | full (miss : findShm k id = none) (noSlot : findShm k 0 = none) (same : k' = k) :
      Opened k i id k' none
  | noPage (j : Fin NSHPAGE) (miss : findShm k id = none) (slot : findShm k 0 = some j)
      (empty : k.mem.free = []) (shape : k' = k.setShm j { k.shm j with id := id, got := none }) :
      Opened k i id k' none
  | noTable (j : Fin NSHPAGE) (k₁ : Kernel) (e : ShPage) (claim : Claim k id j k₁ e)
      (empty : k₁.mem.free = []) (shape : k' = { k₁ with shmHeld := true }) : Opened k i id k' none
  | mapped (j : Fin NSHPAGE) (k₁ : Kernel) (e : ShPage) (S : User → Fin NSHPAGE → Prop)
      (claim : Claim k id j k₁ e) (attached : Attached S k₁ i j k')
      (shm : ∀ r, k'.shm r = if r = j then e else k.shm r) (held : k'.shmHeld = k.shmHeld) :
      Opened k i id k' (some (pgroundup (k.procs i).sz))

variable {e : ShPage}

/-- A page from the free list is recorded. -/
theorem Inv.enter {x : Nat} (inv : Inv S k) (taken : kalloc k.mem = some (x, m)) (phys : e.phys = x)
    :
    Inv (fun u r => r ≠ j ∧ S u r) (({ k with mem := m.fill x 0 } : Kernel).setShm j e) := by
  obtain ⟨list, fields⟩ := kalloc_eq_some taken
  have sound := inv.sound.books
  have held := sound.take (o := Owner.hand) list rfl
  have notUsed : ∀ u, (k.env S).user u ≠ some x :=
    fun u uses => sound.user_not_free uses (by rw [show (k.env S).books.free = _ from list]; simp)
  refine ⟨⟨?_, ?_, ?_, ?_⟩, inv.procs⟩
  · have books : ((({ k with mem := m.fill x 0 } : Kernel).setShm j e).env
        fun u r => r ≠ j ∧ S u r).books =
        { (k.env S).books with
          free := m.free
          own := Function.update (Function.update (k.env S).books.own .hand (some x)) .hand none
          record := Function.update (k.env S).books.record j x } := by
      ext1
      · rfl
      · rw [update_idem]
        exact (update_eq_self Owner.hand (k.env S).books.own).symm
      · rfl
      · funext r
        change ((Function.update k.shm j e) r).phys =
          Function.update (fun r => (k.shm r).phys) j x r
        by_cases same : r = j
        · simp [same, phys]
        · simp [same]
    rw [books]
    exact held.enter (o := Owner.hand) (by simp) j
  · rw [fields]
    exact inv.sound.clean
  · rw [fields]
    exact inv.sound.linked
  · intro u r
    change (k.env S).user u = some ((Function.update k.shm j e) r).phys ↔ r ≠ j ∧ S u r
    by_cases same : r = j
    · simp [same, phys, notUsed u]
    · rw [update_of_ne same]
      exact (inv.sound.shared u r).trans (and_iff_right same).symm

/-- A slot changes, but not its page. -/
theorem Inv.retag (inv : Inv S k) (phys : e.phys = (k.shm j).phys) : Inv S (k.setShm j e) := by
  have same : (k.setShm j e).env S = k.env S := by
    refine env_eq rfl (fun _ => rfl) (fun _ => rfl) fun r => ?_
    by_cases same : r = j <;> simp [same, phys]
  refine ⟨?_, inv.procs⟩
  rw [same]
  exact inv.sound

theorem Claim.inv (claim : Claim k id j k₁ e) (inv : Inv S k) : ∃ S₁, Inv S₁ k₁ := by
  cases claim with
  | found hit => exact ⟨S, inv.retag rfl⟩
  | created miss slot taken => exact ⟨_, inv.enter taken rfl⟩

/-- A claimed slot whose page cannot be mapped. -/
theorem Claim.unmapped (claim : Claim k id j k₁ e) (inv : Inv S k₁)
    (ran : mapShm k₁ i j = .ok (false, k₂)) : Opened k i id { k₂ with shmHeld := true } none := by
  rcases mapShm_cases inv ran with ⟨-, rfl, empty⟩ | ⟨_, _, true_, -⟩
  · exact .noTable j _ _ claim empty rfl
  · cases true_

theorem openshmem_cases {r : Option Nat} (inv : Inv S k) (ran : openshmem k i id = .ok (r, k')) :
    k.shmHeld = false ∧ Opened k i id k' r := by
  unfold openshmem at ran
  split at ran
  · cases ran
  rename_i free
  refine ⟨by simpa using free, ?_⟩
  split at ran
  · rename_i j hit
    obtain ⟨⟨mapped, k₂⟩, mapping, ran⟩ := bind_eq_ok ran
    have claim := Claim.found (k := k) hit
    obtain ⟨S₁, inv₁⟩ := claim.inv inv
    cases mapped with
    | false =>
      cases pure_eq_ok ran
      exact claim.unmapped inv₁ mapping
    | true =>
      cases pure_eq_ok ran
      refine .mapped j _ _ S₁ claim (attached inv₁ mapping rfl rfl fun _ => rfl) ?_ ?_
      · intro r
        rw [show (attach k₂ i).shm = k₂.shm from rfl, (mapShm_shm mapping).1]
        exact Kernel.setShm_shm ..
      · exact (mapShm_shm mapping).2
  · rename_i miss
    split at ran
    · rename_i noSlot
      cases ran
      exact .full miss noSlot rfl
    · rename_i j slot
      split at ran
      · rename_i empty
        cases ran
        refine .noPage j miss slot ?_ rfl
        unfold kalloc at empty
        split at empty
        · assumption
        · cases empty
      · rename_i x m taken
        obtain ⟨⟨mapped, k₂⟩, mapping, ran⟩ := bind_eq_ok ran
        have claim := Claim.created miss slot taken
        obtain ⟨S₁, inv₁⟩ := claim.inv inv
        cases mapped with
        | false =>
          cases pure_eq_ok ran
          exact claim.unmapped inv₁ mapping
        | true =>
          cases pure_eq_ok ran
          obtain ⟨shm, held⟩ := mapShm_shm mapping
          refine .mapped j _ _ S₁ claim (attached inv₁ mapping rfl rfl ?_) ?_ held
          · intro r
            by_cases same : r = j <;> simp [attach, same]
          · intro r
            by_cases same : r = j <;> simp [attach, same, shm]

theorem space_ok (hasDir : (k.procs i).pgdir = some d) : k.space i = .ok ⟨d, k.mem⟩ := by
  simp [Kernel.space, hasDir]

theorem mapShm_ok (inv : Inv S k) (hasDir : (k.procs i).pgdir = some d)
    (room : pages (k.procs i).sz < KERNPAGE) (free : k.mem.free ≠ []) (j : Fin NSHPAGE) :
    ∃ k', mapShm k i j = .ok (true, k') := by
  have sized := (inv.procs i).sized d hasDir
  have small : KERNPAGE < VPAGES := by decide
  obtain ⟨t, walked⟩ := walkpgdirAlloc_of_free (s := ⟨d, k.mem⟩) free (pages (k.procs i).sz)
  have mapped := mapOne_ok (k.shm j).phys userPerm (sized.above _ le_rfl room) walked
  refine ⟨k.setSpace i (t.store (pages (k.procs i).sz) ⟨(k.shm j).phys, true, true, true⟩), ?_⟩
  rw [mapShm, space_ok hasDir, ok_bind, pgroundup_eq sized.bound]
  dsimp only
  rw [mappages_one (by omega), mapped, ok_bind]
  rfl

/-- With two free pages and a slot to use, `openshmem` succeeds. -/
theorem openshmem_ok (inv : Inv S k) (id : Int) (hasDir : (k.procs i).pgdir = some d)
    (room : pages (k.procs i).sz < KERNPAGE) (held : k.shmHeld = false)
    (free : 2 ≤ k.mem.free.length) (slot : findShm k id ≠ none ∨ findShm k 0 ≠ none) :
    ∃ k', openshmem k i id = .ok (some (pgroundup (k.procs i).sz), k') := by
  have someFree : k.mem.free ≠ [] := by
    intro empty
    simp [empty] at free
  rw [openshmem, if_neg (by simp [held])]
  cases hit : findShm k id with
  | some j =>
    obtain ⟨S₁, inv₁⟩ := (Claim.found hit).inv inv
    obtain ⟨k₂, mapped⟩ := mapShm_ok inv₁ hasDir room someFree j
    dsimp only at mapped ⊢
    rw [mapped, ok_bind]
    exact ⟨_, rfl⟩
  | none =>
    cases vacant : findShm k 0 with
    | none => exact absurd slot (by simp [hit, vacant])
    | some j =>
      obtain ⟨x, rest, list⟩ := List.exists_cons_of_ne_nil someFree
      have taken := kalloc_cons list
      obtain ⟨S₁, inv₁⟩ := (Claim.created hit vacant taken).inv inv
      have stillFree : rest ≠ [] := by
        rintro rfl
        simp [list] at free
      obtain ⟨k₂, mapped⟩ := mapShm_ok inv₁ hasDir room stillFree j
      rw [taken]
      dsimp only
      rw [mapped, ok_bind]
      exact ⟨_, rfl⟩

end Open

/-! ## closeshmem -/

/-- What `closeshmem` does when some slot `j` stands for `id`. -/
structure Closed (k : Kernel) (i : Slot) (id : Int) (j : Fin NSHPAGE) (k' : Kernel) : Prop where
  hit : findShm k id = some j
  inv : ∃ S, Inv S k'
  page : ∀ l u, k'.page l u = if l = i ∧ u = k.lastOpened i then none else k.page l u
  shm : ∀ r, k'.shm r = if r = j then { k.shm j with
      nAccess := (k.shm j).nAccess - 1
      id := if (k.shm j).nAccess - 1 = 0 then 0 else (k.shm j).id } else k.shm r
  held : k'.shmHeld = k.shmHeld
  state : ∀ l, (k'.procs l).state = (k.procs l).state
  size : ∀ l, (k'.procs l).sz = (k.procs l).sz
  full : pages (k.procs i).sz ≤ k.lastOpened i → k.Full → k'.Full

section Close

variable {k k' : Kernel} {S : User → Fin NSHPAGE → Prop} {i : Slot} {j : Fin NSHPAGE} {s' : Space}
  {s : Space}

/-- `clearEntry` clears the mapping of `v`, and nothing else the books speak of. -/
theorem clearEntry_cases (ran : clearEntry v s = .ok s') :
    ((s.dir.tab (pdx v)).isSome ∧ s' = s.store v .zero) ∨
      (pageAt s.dir v = none ∧ s'.dir = s.dir ∧ SameBooks s.mem s'.mem) := by
  unfold clearEntry at ran
  split at ran
  · rename_i pte walked
    cases ran
    left
    rw [← walkpgdir_isSome, walked]
    exact ⟨rfl, rfl⟩
  · rename_i absent
    right
    have unmapped : pageAt s.dir v = none := by
      simp [pageAt, absent]
    split at ran
    · split at ran
      · cases ran
        exact ⟨unmapped, rfl, .write ..⟩
      · cases ran
    · cases ran

theorem clearEntry_pageAt (cleared : clearEntry v s = .ok s') (inV : v < VPAGES) (u : Nat)
    (inU : u < VPAGES) : pageAt s'.dir u = if u = v then none else pageAt s.dir u := by
  rcases clearEntry_cases cleared with ⟨there, rfl⟩ | ⟨unmapped, dir, -⟩
  · exact pageAt_store inU inV there
  · rw [dir]
    split
    · rename_i same
      rw [same, unmapped]
    · rfl

/-- The books after an entry of process `i` is cleared. -/
theorem Inv.clearEntry (inv : Inv S k) (hasDir : (k.procs i).pgdir = some d) (inV : v < KERNPAGE)
    (cleared : Vm.clearEntry v ⟨d, k.mem⟩ = .ok s') :
    ∃ S', ((k.env S').place (some i) s').Sound := by
  have good : Good (k.env S) (some i) (pages (k.procs i).sz) (fun _ => False) (pageAt d)
      ⟨d, k.mem⟩ :=
    inv.good hasDir fun u above => inv.private_above hasDir above
  rcases clearEntry_cases cleared with ⟨there, rfl⟩ | ⟨-, dir, books⟩
  · exact ⟨_, good.clear inV there⟩
  · have same : Good (k.env S) (some i) (pages (k.procs i).sz) _ _ s' :=
      good.bytes dir books.layout books.free books.doubled
    exact ⟨S, same.sound⟩

/-- `shmemaddr` is the address of a user page. -/
theorem Inv.lastOpened (inv : Inv S k) (i : Slot) : k.lastOpened i < KERNPAGE ∧
    pgroundup (k.procs i).shmemaddr / PGSIZE = k.lastOpened i := by
  obtain ⟨v, inV, isV⟩ := (inv.procs i).shmem
  have last : k.lastOpened i = v := by
    rw [Kernel.lastOpened, isV]
    exact Nat.mul_div_cancel v (by decide)
  rw [last, isV]
  refine ⟨inV, ?_⟩
  simp only [pgroundup, PGSIZE, KERNPAGE, KERNBASE] at *
  omega

theorem closeshmem_cases {r : Int} (inv : Inv S k) (ran : closeshmem k i id = .ok (r, k')) :
    k.shmHeld = false ∧
      ((findShm k id = none ∧ r = -1 ∧ k' = k) ∨ ∃ j, r = 0 ∧ Closed k i id j k') := by
  unfold closeshmem at ran
  split at ran
  · cases ran
  rename_i free
  refine ⟨by simpa using free, ?_⟩
  split at ran
  · rename_i miss
    cases ran
    exact .inl ⟨miss, rfl, rfl⟩
  rename_i j hit
  obtain ⟨s, space, ran⟩ := bind_eq_ok ran
  obtain ⟨s', cleared, ran⟩ := bind_eq_ok ran
  cases pure_eq_ok ran
  right
  refine ⟨j, rfl, ?_⟩
  obtain ⟨hasDir, mem⟩ := space_eq_ok space
  have ok := inv.procs i
  have sized := ok.sized s.dir hasDir
  have small : KERNPAGE < VPAGES := by decide
  obtain ⟨inV, rounded⟩ := inv.lastOpened i
  rw [rounded] at cleared
  have entry := clearEntry_pageAt cleared (inV.trans small)
  rw [show s = ⟨s.dir, k.mem⟩ by rw [← mem]] at cleared
  obtain ⟨S', sound⟩ := inv.clearEntry hasDir inV cleared
  have sizedNow : Sized (k.procs i).sz s'.dir := by
    refine sized.congr fun u inU above => ?_
    rw [entry u inU]
    split
    · exact .inr ⟨by omega, rfl⟩
    · exact .inl rfl
  refine ⟨hit, ⟨S', inv.update (j := i) ?_ ?_ ?_⟩, ?_, ?_, rfl, ?_, ?_, fun above full =>
    full.update (j := i) ?_ ?_⟩
  · rw [env_eq_place (k := k) (i := i) (s := s')]
    · exact sound
    · intro l other
      simp [other]
    · simp
    · intro r
      by_cases same : r = j <;> simp [same]
    · rfl
    · simp
  · intro l other
    simp [other]
  · refine ⟨?_, ?_, ?_, ?_⟩
    · simpa using sizedNow
    · intro isUnused
      have before : (k.procs i).state = .UNUSED := by simpa using isUnused
      exact absurd (hasDir.symm.trans (ok.unused before).1) (by simp)
    · simp
    · simpa using ok.shmem
  · refine page_of_entry inV hasDir ?_ (fun l other => by simp [other]) entry
    simp
  · intro r
    by_cases same : r = j <;> simp [same]
  · intro l
    by_cases same : l = i <;> simp [same]
  · intro l
    by_cases same : l = i <;> simp [same]
  · intro l other
    simp [other]
  · intro d found
    have isNew : s'.dir = d := by simpa using found
    subst isNew
    simp only [Kernel.setShm_procs, Kernel.setSpace_procs, if_pos]
    exact (full i s.dir hasDir).congr fun u below => by rw [entry u (by omega), if_neg (by omega)]

theorem closeshmem_ok {j : Fin NSHPAGE} (inv : Inv S k) (hasDir : (k.procs i).pgdir = some d)
    (held : k.shmHeld = false) (hit : findShm k id = some j)
    (there : (d.tab (pdx (k.lastOpened i))).isSome) : ∃ k', closeshmem k i id = .ok (0, k') := by
  obtain ⟨v, inV, isV⟩ := (inv.procs i).shmem
  have rounded : pgroundup (k.procs i).shmemaddr / PGSIZE = k.lastOpened i := by
    rw [Kernel.lastOpened, isV]
    simp only [pgroundup, PGSIZE, KERNPAGE, KERNBASE] at *
    omega
  obtain ⟨pte, walked⟩ := Option.isSome_iff_exists.mp (walkpgdir_isSome.trans there)
  have cleared : clearEntry (k.lastOpened i) ⟨d, k.mem⟩ =
      .ok (Space.store ⟨d, k.mem⟩ (k.lastOpened i) .zero) := by
    simp only [clearEntry, walked]
  rw [closeshmem, if_neg (by simp [held]), hit]
  dsimp only
  rw [space_ok hasDir, ok_bind, rounded, cleared, ok_bind]
  exact ⟨_, rfl⟩

end Close

end Xv6.Vm
