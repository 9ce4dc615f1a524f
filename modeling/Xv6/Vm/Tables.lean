/-
# Xv6.Vm.Tables -- what a page table translates

`pageAt d v` is the physical page virtual page `v` translates to. The lemmas say how it changes
under a store and under a new, empty page table, and what each of `walkpgdir`, `mappages`,
`kalloc` and `kfree` can have done when it returned.
-/
import Xv6.Vm.Memory

namespace Xv6.Vm
set_option autoImplicit false

/-- The virtual pages of a 32-bit address space. -/
abbrev VPAGES : Nat := 2 ^ 20

theorem kernpage_le_vpages : KERNPAGE ≤ VPAGES := by decide

def pageAt (d : PgDir) (v : Nat) : Option Nat :=
  (walkpgdir d v).bind fun pte => if pte.p then some pte.ppn else none

/-- The entry of virtual page `v`, if it is present. -/
def entryAt (d : PgDir) (v : Nat) : Option Pte := (walkpgdir d v).filter Pte.p

section Entries

variable {d : PgDir} {u v : Nat} {pte : Pte}

theorem eq_of_pdx_ptx (inU : u < VPAGES) (inV : v < VPAGES) (dir : pdx u = pdx v)
    (tab : ptx u = ptx v) : u = v := by
  simp only [pdx, ptx, NPTENTRIES, NPDENTRIES] at dir tab
  simp only [VPAGES] at inU inV
  omega

theorem pdx_lt (v : Nat) : pdx v < NPDENTRIES := Nat.mod_lt _ (by decide)

/-- A user page and a kernel page are never behind the same directory entry. -/
theorem pdx_ne_of_user_kernel (user : u < KERNPAGE) (kernel : KERNPAGE ≤ v) (inV : v < VPAGES) :
    pdx u ≠ pdx v := by
  simp only [pdx, NPTENTRIES, NPDENTRIES, KERNPAGE, KERNBASE, PGSIZE, VPAGES] at *
  omega

theorem walkpgdir_isSome : (walkpgdir d v).isSome = (d.tab (pdx v)).isSome := by
  simp [walkpgdir]

@[simp] theorem store_page : (d.store v pte).page = d.page := by
  unfold PgDir.store
  split <;> rfl

theorem store_tab_page (i : Nat) :
    ((d.store v pte).tab i).map PageTable.page = (d.tab i).map PageTable.page := by
  unfold PgDir.store
  split
  · rfl
  · rename_i t found
    by_cases same : i = pdx v
    · simp [same, found]
    · simp [same]

theorem store_tab_isSome (i : Nat) : ((d.store v pte).tab i).isSome = (d.tab i).isSome := by
  rw [← Option.isSome_map (f := PageTable.page), store_tab_page, Option.isSome_map]

theorem walkpgdir_store (inU : u < VPAGES) (inV : v < VPAGES) (there : (d.tab (pdx v)).isSome) :
    walkpgdir (d.store v pte) u = if u = v then some pte else walkpgdir d u := by
  obtain ⟨t, found⟩ := Option.isSome_iff_exists.mp there
  by_cases same : u = v
  · simp [walkpgdir, PgDir.store, found, same]
  · by_cases dir : pdx u = pdx v
    · have tab : ptx u ≠ ptx v := fun tab => same (eq_of_pdx_ptx inU inV dir tab)
      simp [walkpgdir, PgDir.store, found, same, dir, tab]
    · simp [walkpgdir, PgDir.store, found, same, dir]

theorem pageAt_store (inU : u < VPAGES) (inV : v < VPAGES) (there : (d.tab (pdx v)).isSome) :
    pageAt (d.store v pte) u =
      if u = v then (if pte.p then some pte.ppn else none) else pageAt d u := by
  unfold pageAt
  rw [walkpgdir_store inU inV there]
  split <;> rfl

theorem pageAt_eq_map (d : PgDir) (v : Nat) : pageAt d v = (entryAt d v).map Pte.ppn := by
  unfold pageAt entryAt
  cases walkpgdir d v with
  | none => rfl
  | some pte => cases present : pte.p <;> simp [present]

theorem entryAt_eq_none : entryAt d v = none ↔ pageAt d v = none := by
  rw [pageAt_eq_map, Option.map_eq_none_iff]

theorem entryAt_store (inU : u < VPAGES) (inV : v < VPAGES) (there : (d.tab (pdx v)).isSome) :
    entryAt (d.store v pte) u =
      if u = v then (if pte.p then some pte else none) else entryAt d u := by
  unfold entryAt
  rw [walkpgdir_store inU inV there]
  split
  · cases present : pte.p <;> simp [present]
  · rfl

theorem pageAt_eq_some {x : Nat} (mapped : pageAt d v = some x) :
    ∃ pte, walkpgdir d v = some pte ∧ pte.p = true ∧ pte.ppn = x := by
  unfold pageAt at mapped
  cases walked : walkpgdir d v with
  | none => simp [walked] at mapped
  | some pte =>
    by_cases present : pte.p = true
    · refine ⟨pte, rfl, present, ?_⟩
      simpa [walked, present] using mapped
    · simp [walked, present] at mapped

/-- A new page table is empty: nothing is translated that was not before. -/
theorem entryAt_addTable {i : Nat} (absent : d.tab i = none) (x v : Nat) :
    entryAt (d.addTable i x) v = entryAt d v := by
  by_cases same : pdx v = i
  · simp [entryAt, walkpgdir, PgDir.addTable, same, absent, Pte.zero]
  · simp [entryAt, walkpgdir, PgDir.addTable, same]

theorem pageAt_addTable {i : Nat} (absent : d.tab i = none) (x v : Nat) :
    pageAt (d.addTable i x) v = pageAt d v := by
  rw [pageAt_eq_map, entryAt_addTable absent, pageAt_eq_map]

end Entries

/-! ## Allocation -/

section Alloc

variable {m m' : Mem} {x : Nat}

theorem kalloc_eq_some (taken : kalloc m = some (x, m')) :
    m.free = x :: m'.free ∧ m' = { m with free := m'.free } := by
  unfold kalloc at taken
  split at taken
  · cases taken
  · rename_i y rest list
    obtain ⟨rfl, rfl⟩ := taken
    exact ⟨list, rfl⟩

theorem kalloc_cons {rest : List Nat} (list : m.free = x :: rest) :
    kalloc m = some (x, { m with free := rest }) := by
  simp only [kalloc, list]

/-- The pages `kfree` takes: those above the kernel. -/
def Usable (l : Layout) (x : Nat) : Prop := l.kernEnd ≤ x * PGSIZE ∧ x * PGSIZE < PHYSTOP

theorem kfree_of_usable (usable : Usable m.layout x) :
    kfree x m = .ok { m.fill x 1 with
      free := x :: m.free
      doubled := m.doubled || decide (x ∈ m.free) } := by
  obtain ⟨low, high⟩ := usable
  rw [kfree, if_neg (by omega)]

theorem usable_of_kfree (freed : kfree x m = .ok m') : Usable m.layout x := by
  unfold kfree at freed
  split at freed
  · cases freed
  · unfold Usable
    omega

theorem Usable.ne_zero {l : Layout} (usable : Usable l x) (linked : l.Ok) : x ≠ 0 := by
  rintro rfl
  have low := usable.1
  have data := linked.data
  omega

/-- Only the page that is freed is overwritten. -/
theorem kfree_bytes {y : Nat} (freed : kfree x m = .ok m') (other : y ≠ x) :
    m'.bytes y = m.bytes y := by
  rw [kfree_of_usable (usable_of_kfree freed)] at freed
  cases freed
  exact Function.update_of_ne other _ _

theorem kfree_eq_ok (freed : kfree x m = .ok m') :
    m'.free = x :: m.free ∧ m'.doubled = (m.doubled || decide (x ∈ m.free)) ∧
      m'.layout = m.layout := by
  unfold kfree at freed
  split at freed
  · cases freed
  · cases freed
    exact ⟨rfl, rfl, rfl⟩

/-- Memory of which pages may have been taken. -/
structure TakenFrom (m m' : Mem) : Prop where
  layout : m'.layout = m.layout
  free : m'.free <:+ m.free

theorem TakenFrom.trans {m₁ m₂ m₃ : Mem} (first : TakenFrom m₁ m₂) (second : TakenFrom m₂ m₃) :
    TakenFrom m₁ m₃ :=
  ⟨second.layout.trans first.layout, second.free.trans first.free⟩

theorem kalloc_takenFrom (taken : kalloc m = some (x, m')) : TakenFrom m m' := by
  obtain ⟨list, fields⟩ := kalloc_eq_some taken
  refine ⟨by rw [fields], ?_⟩
  rw [list]
  exact List.suffix_cons x m'.free

end Alloc

/-! ## Mapping -/

section Mapping

variable {s s' : Space} {v x : Nat} {perm : Perm}

section

variable (walked : walkpgdirAlloc v s = some s')
include walked

/-- `walkpgdir` with allocation finds the page table, or makes an empty one from the first free
page. -/
theorem walkpgdirAlloc_eq_some :
    (s' = s ∧ (s.dir.tab (pdx v)).isSome) ∨
      (s.dir.tab (pdx v) = none ∧ ∃ x m, kalloc s.mem = some (x, m) ∧
        s' = ⟨s.dir.addTable (pdx v) x, m.fill x 0⟩) := by
  unfold walkpgdirAlloc at walked
  split at walked
  · rename_i t found
    cases walked
    exact .inl ⟨rfl, by simp [found]⟩
  · rename_i absent
    split at walked
    · cases walked
    · rename_i y m taken
      cases walked
      exact .inr ⟨absent, y, m, taken, rfl⟩

/-- At most one page goes into a page table. -/
theorem walkpgdirAlloc_takenFrom :
    TakenFrom s.mem s'.mem ∧ s.mem.free.length ≤ s'.mem.free.length + 1 := by
  rcases walkpgdirAlloc_eq_some walked with ⟨rfl, -⟩ | ⟨-, y, m, taken, rfl⟩
  · exact ⟨⟨rfl, List.suffix_refl _⟩, by omega⟩
  · obtain ⟨layout, free⟩ := kalloc_takenFrom taken
    refine ⟨⟨layout, free⟩, ?_⟩
    rw [(kalloc_eq_some taken).1, List.length_cons]
    rfl

/-- The page table is there afterwards. -/
theorem walkpgdirAlloc_isSome : (s'.dir.tab (pdx v)).isSome := by
  rcases walkpgdirAlloc_eq_some walked with ⟨rfl, there⟩ | ⟨-, x, m, -, rfl⟩
  · exact there
  · simp [PgDir.addTable]

theorem walkpgdirAlloc_entryAt (u : Nat) : entryAt s'.dir u = entryAt s.dir u := by
  rcases walkpgdirAlloc_eq_some walked with ⟨rfl, -⟩ | ⟨absent, x, m, -, rfl⟩
  · rfl
  · exact entryAt_addTable absent x u

theorem walkpgdirAlloc_pageAt (u : Nat) : pageAt s'.dir u = pageAt s.dir u := by
  rw [pageAt_eq_map, walkpgdirAlloc_entryAt walked, pageAt_eq_map]

end

theorem walkpgdirAlloc_eq_none :
    walkpgdirAlloc v s = none ↔ s.dir.tab (pdx v) = none ∧ s.mem.free = [] := by
  unfold walkpgdirAlloc kalloc
  cases s.dir.tab (pdx v) with
  | some t => simp
  | none => cases s.mem.free <;> simp

theorem walk_any_p (d : PgDir) (v : Nat) : (walkpgdir d v).any (·.p) = (pageAt d v).isSome := by
  unfold pageAt
  cases walkpgdir d v with
  | none => rfl
  | some pte =>
    cases present : pte.p with
    | true => simp [present]
    | false => simp [present]

variable {n : Nat} {done : Bool}

/-- A round that has its page table. -/
theorem mapLoop_step (walked : walkpgdirAlloc v s = some s') :
    mapLoop perm (n + 1) v x s =
      if pageAt s.dir v = none then
        mapLoop perm n (v + 1) ((x + 1) % 2 ^ 20) (s'.store v ⟨x, true, perm.w, perm.u⟩)
      else .error (.panic "remap") := by
  rw [mapLoop, walked]
  dsimp only
  rw [walk_any_p, walkpgdirAlloc_pageAt walked]
  cases pageAt s.dir v <;> rfl

/-- One page: there is no memory for a page table, or the page was free and is mapped. -/
theorem mapLoop_succ (mapped : mapLoop perm (n + 1) v x s = .ok (done, s')) :
    (walkpgdirAlloc v s = none ∧ done = false ∧ s' = s) ∨
      ∃ t, walkpgdirAlloc v s = some t ∧ pageAt s.dir v = none ∧
        mapLoop perm n (v + 1) ((x + 1) % 2 ^ 20) (t.store v ⟨x, true, perm.w, perm.u⟩) =
          .ok (done, s') := by
  cases walked : walkpgdirAlloc v s with
  | none =>
    rw [mapLoop, walked] at mapped
    cases mapped
    exact .inl ⟨rfl, rfl, rfl⟩
  | some t =>
    rw [mapLoop_step walked] at mapped
    split at mapped
    · exact .inr ⟨t, rfl, ‹_›, mapped⟩
    · cases mapped

/-- What every round keeps, `mappages` keeps. -/
theorem mapLoop_keeps {P : Space → Prop} {lo hi : Nat}
    (round : ∀ v x s t, lo ≤ v → v < hi → P s → walkpgdirAlloc v s = some t →
      pageAt s.dir v = none → P (t.store v ⟨x, true, perm.w, perm.u⟩)) (above : lo ≤ v)
    (last : v + n ≤ hi) (start : P s) (ran : mapLoop perm n v x s = .ok (done, s')) : P s' := by
  induction n generalizing v x s with
  | zero =>
    cases ran
    exact start
  | succ n ih =>
    rcases mapLoop_succ ran with ⟨-, -, rfl⟩ | ⟨t, walked, absent, rest⟩
    · exact start
    · exact ih (by omega) (by omega) (round v x s t above (by omega) start walked absent) rest

/-- The entry that was set, and the others as they were. -/
theorem entryAt_map {u : Nat} {pte : Pte} (walked : walkpgdirAlloc v s = some s')
    (inU : u < VPAGES) (inV : v < VPAGES) (present : pte.p = true) :
    entryAt (s'.store v pte).dir u = if u = v then some pte else entryAt s.dir u := by
  rw [Space.store, entryAt_store inU inV (walkpgdirAlloc_isSome walked),
    walkpgdirAlloc_entryAt walked, if_pos present]

theorem pageAt_map {u : Nat} {pte : Pte} (walked : walkpgdirAlloc v s = some s')
    (inU : u < VPAGES) (inV : v < VPAGES) (present : pte.p = true) :
    pageAt (s'.store v pte).dir u = if u = v then some pte.ppn else pageAt s.dir u := by
  rw [pageAt_eq_map, entryAt_map walked inU inV present, pageAt_eq_map]
  split <;> rfl

/-- The call `mappages(pgdir, va, PGSIZE, pa, perm)` with aligned addresses is one round. -/
theorem mappages_one (inV : v < VPAGES) :
    mappages (v * PGSIZE) PGSIZE (x * PGSIZE) perm s = mapLoop perm 1 v x s := by
  have first : v * PGSIZE / PGSIZE = v := Nat.mul_div_cancel v (by decide)
  have frame : x * PGSIZE / PGSIZE = x := Nat.mul_div_cancel x (by decide)
  have last : (v * PGSIZE + PGSIZE + 2 ^ 32 - 1) % 2 ^ 32 / PGSIZE = v := by
    simp only [PGSIZE, VPAGES] at *
    omega
  have rounds : (v + 2 ^ 20 - v) % 2 ^ 20 + 1 = 1 := by
    simp
  simp only [mappages, first, frame, last, rounds]

/-- Mapping one page: the entry and possibly an empty page table are new, and nothing else. -/
theorem mapOne_eq_ok (mapped : mapLoop perm 1 v x s = .ok (done, s')) :
    (done = false ∧ s' = s ∧ walkpgdirAlloc v s = none) ∨
      (done = true ∧ ∃ t, walkpgdirAlloc v s = some t ∧ pageAt s.dir v = none ∧
        s' = t.store v ⟨x, true, perm.w, perm.u⟩) := by
  rcases mapLoop_succ mapped with ⟨full, done, same⟩ | ⟨t, walked, absent, rest⟩
  · exact .inl ⟨done, same, full⟩
  · right
    simp only [mapLoop, Except.ok.injEq, Prod.mk.injEq] at rest
    exact ⟨rest.1.symm, t, walked, absent, rest.2.symm⟩

/-- One free page is enough to find or make a page table. -/
theorem walkpgdirAlloc_of_free (free : s.mem.free ≠ []) (v : Nat) :
    ∃ t, walkpgdirAlloc v s = some t := by
  unfold walkpgdirAlloc
  split
  · exact ⟨s, rfl⟩
  · obtain ⟨x, rest, list⟩ := List.exists_cons_of_ne_nil free
    rw [kalloc_cons list]
    exact ⟨_, rfl⟩

theorem mapOne_ok {t : Space} (x : Nat) (perm : Perm) (absent : pageAt s.dir v = none)
    (walked : walkpgdirAlloc v s = some t) :
    mapLoop perm 1 v x s = .ok (true, t.store v ⟨x, true, perm.w, perm.u⟩) := by
  rw [mapLoop_step walked, if_pos absent, mapLoop]

end Mapping

end Xv6.Vm
