/-
# Xv6.Vm.Closing -- what closeshmem gives back

`closeshmem` clears the entry at the page the caller opened last, whatever id it is called with, and
never frees a page.

* `no_page_leaked_iff`: over a run of opens and closes the free pages and the page tables of live
  processes stay the same number exactly if no open had to make its segment. The page of a segment that
  was made is lost, closed or not.
* `closeshmem_own_iff`: a close undoes the caller's own open of that id exactly if that was the
  caller's last open, and refuses an id the caller has not open exactly if nobody has it open.
-/
import Xv6.Vm.Opening

namespace Xv6.Vm
open Lib Option Finset Function
set_option autoImplicit false

/-! ## Counting pages -/

/-- How many page tables a directory has. -/
def PgDir.tables (d : PgDir) : Nat :=
  ((range NPDENTRIES).filter fun t => (d.tab t).isSome).card

/-- The page tables of a process, if it is alive. -/
def Proc.tables (p : Proc) : Nat :=
  if p.state = .SLEEPING ∨ p.state = .RUNNABLE ∨ p.state = .RUNNING then
    (p.pgdir.map PgDir.tables).getD 0
  else
    0

/-- The page tables of the live processes. -/
def Kernel.tables (k : Kernel) : Nat := ∑ i, (k.procs i).tables

/-- The pages that are free or in a page table of a live process. -/
def Kernel.pool (k : Kernel) : Nat := k.mem.free.length + k.tables

/-- The page a step takes for a new segment, if it does. -/
def segmentPages (k : Kernel) : Event → Nat
  | .openshmem _ id =>
    if findShm k id = none ∧ findShm k 0 ≠ none ∧ k.mem.free ≠ [] then 1 else 0
  | .closeshmem _ _ | .fork _ | .sbrk _ _ | .exec _ _ _ _ | .exit _ | .wait _ _ => 0

/-- The calls on shared memory. -/
def Event.Shares : Event → Prop
  | .openshmem _ _ | .closeshmem _ _ => True
  | .fork _ | .sbrk _ _ | .exec _ _ _ _ | .exit _ | .wait _ _ => False

section Pool

variable {k k' k₁ : Kernel} {i : Slot} {id : Int} {j : Fin NSHPAGE} {e : ShPage} {d d' : PgDir}

theorem tables_add_missing (d : PgDir) : d.tables + missing d = NPDENTRIES := by
  have split := card_filter_add_card_filter_not (s := range NPDENTRIES)
    fun t => (d.tab t).isSome = true
  simpa [PgDir.tables, missing] using split

theorem tables_store (d : PgDir) (v : Nat) (pte : Pte) : (d.store v pte).tables = d.tables := by
  have before := tables_add_missing d
  have after := tables_add_missing (d.store v pte)
  rw [missing_store] at after
  omega

/-- A page for a page table stays in the pool. -/
theorem walkpgdirAlloc_pool {v : Nat} {s t : Space} (walked : walkpgdirAlloc v s = some t) :
    t.mem.free.length + t.dir.tables = s.mem.free.length + s.dir.tables := by
  rcases walkpgdirAlloc_eq_some walked with ⟨rfl, -⟩ | ⟨absent, x, m, taken, rfl⟩
  · rfl
  · have before := tables_add_missing s.dir
    have after := tables_add_missing (s.dir.addTable (pdx v) x)
    have fewer := missing_addTable (pdx_lt v) absent x
    have list : s.mem.free.length = m.free.length + 1 := by
      rw [(kalloc_eq_some taken).1, List.length_cons]
    change m.free.length + (s.dir.addTable (pdx v) x).tables = _
    omega

theorem Kernel.CanCall.tables (can : k.CanCall i) (hasDir : (k.procs i).pgdir = some d) :
    (k.procs i).tables = d.tables := by
  unfold Proc.tables
  rw [if_pos (show _ ∨ _ from can), hasDir, map_some, getD_some]

/-- The directory of one live process changes. -/
theorem tables_update (can : k.CanCall i) (others : ∀ l, l ≠ i → k'.procs l = k.procs l)
    (state : (k'.procs i).state = (k.procs i).state) (was : (k.procs i).pgdir = some d)
    (now : (k'.procs i).pgdir = some d') : k'.tables + d.tables = k.tables + d'.tables := by
  have can' : k'.CanCall i := by
    unfold Kernel.CanCall
    rw [state]
    exact can
  have rest : ∑ l ∈ univ.erase i, (k'.procs l).tables =
      ∑ l ∈ univ.erase i, (k.procs l).tables := by
    refine sum_congr rfl fun l inside => ?_
    rw [others l (ne_of_mem_erase inside)]
  have before := add_sum_erase univ (fun l => (k.procs l).tables) (mem_univ i)
  have after := add_sum_erase univ (fun l => (k'.procs l).tables) (mem_univ i)
  rw [can.tables was] at before
  rw [can'.tables now] at after
  unfold Kernel.tables
  omega

theorem tables_congr (procs : k'.procs = k.procs) : k'.tables = k.tables := by
  rw [Kernel.tables, procs]
  rfl

theorem pool_setShm (k : Kernel) (j : Fin NSHPAGE) (e : ShPage) : (k.setShm j e).pool = k.pool := by
  have same : (k.setShm j e).tables = k.tables := tables_congr (Kernel.setShm_procs ..)
  rw [Kernel.pool, same, Kernel.setShm_mem, Kernel.pool]

theorem Claim.segmentPages (claim : Claim k id j k₁ e) :
    k₁.mem.free.length + Vm.segmentPages k (.openshmem i id) = k.mem.free.length := by
  cases claim with
  | found hit =>
    rw [Vm.segmentPages, if_neg (by simp [hit])]
    rfl
  | created miss slot taken =>
    have list := (kalloc_eq_some taken).1
    rw [Vm.segmentPages, if_pos ⟨miss, by simp [slot], by simp [list]⟩, list]
    rfl

theorem openshmem_pool {r : Option Nat} (can : k.CanCall i)
    (ran : openshmem k i id = .ok (r, k')) :
    k'.pool + segmentPages k (.openshmem i id) = k.pool := by
  have held := openshmem_held ran
  rcases claim_cases k id with ⟨miss, noSlot⟩ | ⟨j, miss, slot, empty⟩ | ⟨j, k₁, e, claim⟩
  · rw [openshmem_full held miss noSlot] at ran
    cases ran
    rw [segmentPages, if_neg (by simp [noSlot])]
    exact Nat.add_zero _
  · rw [openshmem_noPage held miss slot empty] at ran
    cases ran
    rw [segmentPages, if_neg (by simp [empty]), pool_setShm]
    exact Nat.add_zero _
  have taken := claim.segmentPages (i := i)
  unfold Kernel.pool
  cases hasDir : (k.procs i).pgdir with
  | none =>
    rw [openshmem_noDir hasDir claim held] at ran
    cases ran
  | some d =>
    rw [openshmem_of_claim held hasDir claim] at ran
    cases walked : walkpgdirAlloc (k.endPage i) ⟨d, k₁.mem⟩ with
    | none =>
      rw [walked] at ran
      cases ran
      have same : ({ k₁ with shmHeld := true } : Kernel).tables = k.tables :=
        tables_congr claim.procs
      change k₁.mem.free.length + _ + _ = _
      omega
    | some t =>
      rw [walked] at ran
      dsimp only at ran
      split at ran
      · cases ran
      · cases ran
        have pool := walkpgdirAlloc_pool walked
        let s := t.store (k.endPage i) ⟨(k₁.shm j).phys, true, true, true⟩
        have procs := opened_procs (k := k₁) i s j e
        have tables : (k₁.opened i s j e).tables + d.tables = k.tables + s.dir.tables :=
          tables_update can
            (fun l other => by rw [procs, update_of_ne other, claim.procs])
            (by rw [procs, update_self, claim.procs]) hasDir
            (by rw [procs, update_self])
        have stored : s.dir.tables = t.dir.tables := tables_store ..
        change t.mem.free.length + (k₁.opened i s j e).tables + _ = _
        dsimp only at pool
        omega

/-- A close moves no page. -/
theorem closeshmem_pool {r : Int} (can : k.CanCall i) (ran : closeshmem k i id = .ok (r, k')) :
    k'.pool = k.pool := by
  unfold closeshmem at ran
  split at ran
  · cases ran
  split at ran
  · cases ran
    rfl
  obtain ⟨s, space, ran⟩ := bind_eq_ok ran
  obtain ⟨s', cleared, ran⟩ := bind_eq_ok ran
  cases pure_eq_ok ran
  obtain ⟨hasDir, mem⟩ := space_eq_ok space
  have tables : (k.setSpace i s').tables + s.dir.tables = k.tables + s'.dir.tables :=
    tables_update can (fun l other => by simp [other]) (by simp) hasDir (by simp)
  have same : s'.dir.tables = s.dir.tables ∧ s'.mem.free = s.mem.free := by
    rcases clearEntry_cases cleared with ⟨-, rfl⟩ | ⟨-, dir, books⟩
    · exact ⟨tables_store .., rfl⟩
    · exact ⟨by rw [dir], books.free⟩
  rw [mem] at same
  rw [pool_setShm, Kernel.pool, Kernel.setSpace_mem, same.2, Kernel.pool]
  omega

theorem step_pool {ev : Event} (shares : ev.Shares) (stepped : step k ev = some k') :
    k'.pool + segmentPages k ev = k.pool := by
  obtain ⟨can, ran⟩ := step_eq_some stepped
  cases ev with
  | openshmem i id =>
    obtain ⟨⟨r, k₁⟩, called, same⟩ := map_eq_ok ran
    obtain rfl : k₁ = k' := same
    exact openshmem_pool can called
  | closeshmem i id =>
    obtain ⟨⟨r, k₁⟩, called, same⟩ := map_eq_ok ran
    obtain rfl : k₁ = k' := same
    rw [segmentPages, Nat.add_zero]
    exact closeshmem_pool can called
  | fork | sbrk | exec | exit | wait => cases shares

/-- The pool never grows, and stays the same as long as no segment is made. -/
theorem run_pool {events : List Event} (shares : ∀ ev ∈ events, ev.Shares)
    (ran : system.run k events = some k') :
    k'.pool ≤ k.pool ∧
      (k'.pool = k.pool ↔ system.Admits (fun k ev => segmentPages k ev = 0) k events) := by
  induction events generalizing k with
  | nil =>
    cases ran
    exact ⟨le_rfl, iff_of_true rfl trivial⟩
  | cons ev rest ih =>
    simp only [System.run, bind_eq_some_iff] at ran
    obtain ⟨mid, stepped, tail⟩ := ran
    have first := step_pool (shares ev List.mem_cons_self) stepped
    obtain ⟨less, same⟩ := ih (fun ev inside => shares ev (List.mem_cons_of_mem _ inside)) tail
    refine ⟨by omega, fun kept => ⟨by omega, fun mid' stepped' => ?_⟩, fun admits => ?_⟩
    · obtain rfl : mid = mid' := some.inj (stepped.symm.trans stepped')
      exact same.mp (by omega)
    · have tailKept := same.mpr (admits.2 mid stepped)
      have none_ := admits.1
      omega

end Pool

/-- **No page is leaked** by a run of opens and closes exactly if none of its opens has to make the
segment. -/
theorem no_page_leaked_iff {k k' : Kernel} {events : List Event} (shares : ∀ e ∈ events, e.Shares)
    (ran : system.run k events = some k') :
    k'.mem.free.length + k'.tables = k.mem.free.length + k.tables ↔
      system.Admits (fun k e => segmentPages k e = 0) k events :=
  (run_pool shares ran).2

/-- A segment that is there is opened once more and closed again. -/
theorem no_page_leaked_reopened : ∃ k k', system.Reachable k ∧
    system.run k [.openshmem 0 5, .closeshmem 0 5] = some k' ∧
    k'.mem.free.length + k'.tables = k.mem.free.length + k.tables := by
  obtain ⟨k, start⟩ := exists_start
  obtain ⟨x, k₁, opened₁, solo₁, -, -, slot₁, -⟩ := start.first.openshmem 5 (by decide)
  have hit : findShm k₁ 5 = some 0 := findShm_zero (by rw [slot₁])
  obtain ⟨j, k₂', e, k₂, opened₂, solo₂, claim, shm₂, last₂, -, page₂⟩ :=
    solo₁.openshmem 5 (by decide) (.inl (by simp [hit]))
  have hit₂ : findShm k₂ 5 = some 0 := by
    refine findShm_zero ?_
    cases claim with
    | found hit' =>
      obtain rfl : 0 = j := some.inj (hit.symm.trans hit')
      rw [shm₂, if_pos rfl, slot₁]
    | created miss => simp [hit] at miss
  have mapped : k₂.page 0 (k₂.lastOpened 0) ≠ none := by
    rw [last₂, page₂, if_pos ⟨rfl, rfl⟩]
    simp
  obtain ⟨k₃, closed₃, -⟩ := solo₂.closeshmem hit₂ mapped
  have ran : system.run k₁ [.openshmem 0 5, .closeshmem 0 5] = some k₃ := by
    simp [System.run, system, opened₂, closed₃]
  refine ⟨k₁, k₃, .step (.start start) trivial opened₁, ran, ?_⟩
  refine (no_page_leaked_iff (by simp [Event.Shares]) ran).mpr ⟨?_, fun _ _ => ⟨rfl, fun _ _ => trivial⟩⟩
  change segmentPages k₁ (.openshmem 0 5) = 0
  rw [segmentPages, if_neg (by simp [hit])]

/-- The first process opens a segment and closes it: no segment is left, and its page is gone. -/
theorem open_close_leaks : ∃ k k', Start k ∧
    system.run k [.openshmem 0 5, .closeshmem 0 5] = some k' ∧ (∀ r, (k'.shm r).id = 0) ∧
    k'.mem.free.length + k'.tables ≠ k.mem.free.length + k.tables := by
  obtain ⟨k, start, first⟩ := exists_first
  obtain ⟨x, k₁, opened, solo, -, -, slot, rest, last, page⟩ := first.openshmem 5 (by decide)
  have hit : findShm k₁ 5 = some 0 := findShm_zero (by rw [slot])
  have mapped : k₁.page 0 (k₁.lastOpened 0) ≠ none := by
    rw [last, page, if_pos ⟨rfl, rfl⟩]
    simp
  obtain ⟨k₂, closed, effect⟩ := solo.closeshmem hit mapped
  have ran : system.run k [.openshmem 0 5, .closeshmem 0 5] = some k₂ := by
    simp [System.run, system, opened, closed]
  refine ⟨k, k₂, start, ran, fun r => ?_, fun kept => ?_⟩
  · rw [effect.shm]
    by_cases isZero : r = 0
    · simp [isZero, slot]
    · simp [isZero, rest r isZero]
  · obtain ⟨none_, -⟩ := (run_pool (by simp [Event.Shares]) ran).2.mp kept
    have miss : findShm k 5 = none := findShm_eq_none.mpr fun r => by simp [first.shm r]
    have vacant : findShm k 0 = some 0 := findShm_zero (by rw [first.shm])
    have plenty := first.plenty
    have free : k.mem.free ≠ [] := by
      intro empty
      simp [empty] at plenty
    rw [segmentPages, if_pos ⟨miss, by simp [vacant], free⟩] at none_
    cases none_

/-! ## Whose entry is cleared -/

/-- The kernel with a history beside it: `mine i id` is the page at which process `i` has opened
segment `id`, as long as it has not closed it and the entry is there. -/
structure Tracked where
  kernel : Kernel
  mine : Slot → Int → Option Nat

/-- The page whose entry `closeshmem` clears. -/
def Kernel.clearedPage (k : Kernel) (i : Slot) : Nat := pgroundup (k.procs i).shmemaddr / PGSIZE

namespace Tracked

/-- What a call adds to the history or takes from it. A new image has nothing open, nor has a slot
that was given back. -/
def note (t : Tracked) : Event → Slot → Int → Option Nat
  | .openshmem i id =>
    match openshmem t.kernel i id with
    | .ok (some va, _) =>
      update t.mine i (update (t.mine i) id (some (va / PGSIZE)))
    | _ => t.mine
  | .closeshmem i id =>
    match closeshmem t.kernel i id with
    | .ok (0, _) => update t.mine i (update (t.mine i) id none)
    | _ => t.mine
  | .exec i file path argv =>
    match exec t.kernel i file path argv with
    | .ok (0, _) => update t.mine i fun _ => none
    | _ => t.mine
  | .wait i _ =>
    match zombieChild t.kernel i with
    | some j => update t.mine j fun _ => none
    | none => t.mine
  | .fork _ | .sbrk _ _ | .exit _ => t.mine

def next (t : Tracked) (e : Event) : Option Tracked :=
  (step t.kernel e).map fun k' =>
    ⟨k', fun i id => (t.note e i id).filter fun v => (k'.page i v).isSome⟩

/-- A process opens a segment only while it has not got it open. -/
def Distinct (t : Tracked) : Event → Prop
  | .openshmem i id => t.mine i id = none
  | .closeshmem _ _ | .fork _ | .sbrk _ _ | .exec _ _ _ _ | .exit _ | .wait _ _ => True

end Tracked

def tracked : System Tracked Event where
  start t := Start t.kernel ∧ ∀ i id, t.mine i id = none
  next := Tracked.next

/-- A close takes away the entry of the caller's own open, and no other; without an open it is
refused. -/
def OwnClose (t : Tracked) (i : Slot) (id : Int) : Prop :=
  match t.mine i id with
  | some v => ∃ k' d d', closeshmem t.kernel i id = .ok (0, k') ∧
      (t.kernel.procs i).pgdir = some d ∧ (k'.procs i).pgdir = some d' ∧
      ∀ u, u < VPAGES → walkpgdir d' u = if u = v then some .zero else walkpgdir d u
  | none => closeshmem t.kernel i id = .ok (-1, t.kernel)

/-- The caller opened segment `id` last, and it is still in the table; or the caller has not got it
open, and nobody has. -/
def OpenedLast (t : Tracked) (i : Slot) (id : Int) : Prop :=
  match t.mine i id with
  | some v => findShm t.kernel id ≠ none ∧ t.kernel.clearedPage i = v
  | none => findShm t.kernel id = none

section Own

variable {k k' : Kernel} {i : Slot} {id : Int} {d : PgDir} {j : Fin NSHPAGE} {t : Tracked}

/-- The history speaks of entries that are there. -/
def Tracked.Present (t : Tracked) : Prop :=
  ∀ i id v, t.mine i id = some v → (t.kernel.page i v).isSome

theorem reach_present {ok : Tracked → Event → Prop} (reached : tracked.Reach ok t) : t.Present := by
  refine System.Reach.invariant ?_ ?_ reached
  · intro t start i id v open_
    rw [start.2] at open_
    cases open_
  · intro t e t' _ _ stepped i id v open_
    obtain ⟨k', -, rfl⟩ := map_eq_some_iff.mp stepped
    exact (filter_eq_some_iff.mp open_).2

theorem closeshmem_miss (held : k.shmHeld = false) (miss : findShm k id = none) :
    closeshmem k i id = .ok (-1, k) := by
  rw [closeshmem, if_neg (by simp [held]), miss]

/-- What a close does to the entries of the caller. -/
theorem closeshmem_walk {r : Int} (hasDir : (k.procs i).pgdir = some d)
    (hit : findShm k id = some j) (ran : closeshmem k i id = .ok (r, k')) :
    r = 0 ∧ ∃ d', (k'.procs i).pgdir = some d' ∧ ∀ u, u < VPAGES →
      walkpgdir d' u = if u = k.clearedPage i ∧ (walkpgdir d u).isSome then some .zero
        else walkpgdir d u := by
  unfold closeshmem at ran
  split at ran
  · cases ran
  rw [hit] at ran
  dsimp only at ran
  rw [space_ok hasDir, ok_bind] at ran
  obtain ⟨s', cleared, ran⟩ := bind_eq_ok ran
  cases pure_eq_ok ran
  refine ⟨rfl, s'.dir, by simp, fun u inU => ?_⟩
  have inV : k.clearedPage i < VPAGES := by
    simp only [Kernel.clearedPage, pgroundup, PGSIZE, VPAGES]
    omega
  change clearEntry (k.clearedPage i) ⟨d, k.mem⟩ = .ok s' at cleared
  unfold clearEntry at cleared
  cases walked : walkpgdir d (k.clearedPage i) with
  | some pte =>
    rw [walked] at cleared
    cases cleared
    have there : (d.tab (pdx (k.clearedPage i))).isSome := by
      rw [← walkpgdir_isSome, walked]
      rfl
    change walkpgdir (d.store (k.clearedPage i) .zero) u = _
    rw [walkpgdir_store inU inV there]
    by_cases same : u = k.clearedPage i
    · simp [same, walked]
    · simp [same]
  | none =>
    rw [walked] at cleared
    have dir : s'.dir = d := by
      dsimp only at cleared
      split at cleared
      · split at cleared
        · cases cleared
          rfl
        · cases cleared
      · cases cleared
    have absent : ¬(u = k.clearedPage i ∧ (walkpgdir d u).isSome = true) := by
      rintro ⟨rfl, there⟩
      simp [walked] at there
    rw [if_neg absent, dir]

/-- The entry to clear is in use, so the close goes through. -/
theorem closeshmem_hit (held : k.shmHeld = false) (hasDir : (k.procs i).pgdir = some d)
    (hit : findShm k id = some j) (there : (walkpgdir d (k.clearedPage i)).isSome) :
    ∃ k', closeshmem k i id = .ok (0, k') := by
  obtain ⟨pte, walked⟩ := isSome_iff_exists.mp there
  have cleared : clearEntry (pgroundup (k.procs i).shmemaddr / PGSIZE) ⟨d, k.mem⟩ =
      .ok (Space.store ⟨d, k.mem⟩ (k.clearedPage i) .zero) := by
    change clearEntry (k.clearedPage i) ⟨d, k.mem⟩ = _
    simp only [clearEntry, walked]
  rw [closeshmem, if_neg (by simp [held]), hit]
  dsimp only
  rw [space_ok hasDir, ok_bind, cleared, ok_bind]
  exact ⟨_, rfl⟩

theorem ownClose_iff (id : Int) (present : t.Present) (held : t.kernel.shmHeld = false)
    (hasDir : (t.kernel.procs i).pgdir = some d) : OwnClose t i id ↔ OpenedLast t i id := by
  unfold OwnClose OpenedLast
  cases open_ : t.mine i id with
  | none =>
    cases hit : findShm t.kernel id with
    | none => exact iff_of_true (closeshmem_miss held hit) rfl
    | some j =>
      refine iff_of_false (fun refused => ?_) (by simp)
      obtain ⟨zero, -⟩ := closeshmem_walk hasDir hit refused
      cases zero
  | some v =>
    have mapped := present i id v open_
    obtain ⟨x, isX⟩ := isSome_iff_exists.mp mapped
    have inV : v < VPAGES := (page_lt isX).trans (by decide)
    obtain ⟨pte, walked, isPresent, -⟩ := pageAt_eq_some (d := d) (v := v) (x := x) (by
      simpa [Kernel.page, hasDir, page_lt isX] using isX)
    constructor
    · rintro ⟨k', d₀, d', ran, found, after, exactly⟩
      cases hit : findShm t.kernel id with
      | none =>
        rw [closeshmem_miss held hit] at ran
        cases ran
      | some j =>
        refine ⟨by simp, ?_⟩
        obtain ⟨-, d'', after', entries⟩ := closeshmem_walk hasDir hit ran
        obtain rfl : d' = d'' := some.inj (after.symm.trans after')
        by_contra other
        have kept := entries v inV
        rw [if_neg fun here => other here.1.symm, walked, exactly v inV, if_pos rfl] at kept
        cases kept
        cases isPresent
    · rintro ⟨inTable, rfl⟩
      obtain ⟨j, hit⟩ := ne_none_iff_exists'.mp inTable
      obtain ⟨k', ran⟩ := closeshmem_hit held hasDir hit (by simp [walked])
      obtain ⟨-, d', after, entries⟩ := closeshmem_walk hasDir hit ran
      refine ⟨k', d, d', ran, hasDir, after, fun u inU => ?_⟩
      rw [entries u inU]
      by_cases same : u = t.kernel.clearedPage i
      · simp [same, walked]
      · simp [same]

end Own

/-- **A close undoes its own open only**: in every state of every run, exactly if the caller opened
the segment last, or nobody has it open. -/
theorem closeshmem_own_iff {t : Tracked} {i : Slot} {d : PgDir} (id : Int)
    (reached : tracked.Reach Tracked.Distinct t) (held : t.kernel.shmHeld = false)
    (hasDir : (t.kernel.procs i).pgdir = some d) : OwnClose t i id ↔ OpenedLast t i id :=
  ownClose_iff id (reach_present reached) held hasDir

section Runs

variable {t : Tracked} {k' : Kernel} {n : Nat} {id : Int}

/-- The value of an open that goes through. -/
theorem Solo.openshmem_call {k : Kernel} (solo : Solo n k) (few : n < 32)
    (slot : findShm k id ≠ none ∨ findShm k 0 ≠ none)
    (stepped : step k (.openshmem 0 id) = some k') :
    Vm.openshmem k 0 id = .ok (some (n * PGSIZE), k') := by
  obtain ⟨S, inv⟩ := solo.sane
  have plenty := solo.plenty
  have room : 32 ≤ KERNPAGE := by decide
  have bound : n * PGSIZE ≤ KERNBASE := by
    simp only [PGSIZE, KERNBASE]
    omega
  obtain ⟨d, hasDir⟩ := inv.dir solo.can
  obtain ⟨k'', ran⟩ := openshmem_ok inv id hasDir (by rw [solo.size, pages_mul]; omega) solo.held
    (by omega) slot
  obtain rfl : k'' = k' := some.inj ((openshmem_step solo.can ran).symm.trans stepped)
  rw [ran, solo.size, pgroundup_eq bound, pages_mul]

/-- The history after an open by process 0. -/
theorem Tracked.opened (solo : Solo n t.kernel) (few : n < 32)
    (slot : findShm t.kernel id ≠ none ∨ findShm t.kernel 0 ≠ none)
    (stepped : step t.kernel (.openshmem 0 id) = some k') (mapped : (k'.page 0 n).isSome) :
    ∃ t', tracked.next t (.openshmem 0 id) = some t' ∧ t'.kernel = k' ∧ t'.mine 0 id = some n ∧
      ∀ id', id' ≠ id → t'.mine 0 id' = (t.mine 0 id').filter fun v => (k'.page 0 v).isSome := by
  have call := solo.openshmem_call few slot stepped
  have here : n * PGSIZE / PGSIZE = n := Nat.mul_div_cancel n (by decide)
  have next : tracked.next t (.openshmem 0 id) = some ⟨k', fun i id' =>
      (t.note (.openshmem 0 id) i id').filter fun v => (k'.page i v).isSome⟩ := by
    change (step t.kernel _).map _ = _
    rw [stepped]
    rfl
  refine ⟨_, next, rfl, ?_, fun id' other => ?_⟩
  · simp only [Tracked.note, call, here]
    simp [mapped]
  · simp only [Tracked.note, call]
    simp [other]

theorem Solo.clearedPage {k : Kernel} (solo : Solo n k) : k.clearedPage 0 = k.lastOpened 0 := by
  obtain ⟨S, inv⟩ := solo.sane
  exact (inv.lastOpened 0).2

end Runs

/-- The first segment of the first process is closed where it was opened. -/
theorem closeshmem_own_firstOpen : ∃ t, tracked.Reach Tracked.Distinct t ∧ t.mine 0 5 = some 1 ∧
    OwnClose t 0 5 := by
  obtain ⟨k, start, first⟩ := exists_first
  obtain ⟨x, k₁, stepped, solo₁, -, -, slot₁, -, last₁, page₁⟩ := first.openshmem 5 (by decide)
  have vacant : findShm k 0 = some 0 := findShm_zero (by rw [first.shm])
  obtain ⟨t₁, opened, rfl, mine, -⟩ := Tracked.opened (t := ⟨k, fun _ _ => none⟩) first.solo (by decide)
    (.inr (by simp [vacant])) stepped (by simp [page₁])
  have distinct : Tracked.Distinct ⟨k, fun _ _ => none⟩ (.openshmem 0 5) := rfl
  have reached : tracked.Reach Tracked.Distinct t₁ :=
    .step (.start ⟨start, fun _ _ => rfl⟩) distinct opened
  obtain ⟨S, inv⟩ := solo₁.sane
  obtain ⟨d, hasDir⟩ := inv.dir solo₁.can
  refine ⟨t₁, reached, mine, (closeshmem_own_iff 5 reached solo₁.held hasDir).mpr ?_⟩
  have hit : findShm t₁.kernel 5 = some 0 := findShm_zero (by rw [slot₁])
  simp [OpenedLast, mine, hit, solo₁.clearedPage, last₁]

/-- The first process opens segments 5 and 6 and closes 5: the entry of 5 is still there, and that of
6 is gone. -/
theorem close_clears_last_opened : ∃ t, tracked.Reach Tracked.Distinct t ∧ t.mine 0 5 = some 1 ∧
    t.mine 0 6 = some 2 ∧ ¬OwnClose t 0 5 := by
  obtain ⟨k, start, first⟩ := exists_first
  obtain ⟨x, k₁, stepped₁, solo₁, -, -, slot₁, rest₁, -, page₁⟩ := first.openshmem 5 (by decide)
  have vacant : findShm k 0 = some 0 := findShm_zero (by rw [first.shm])
  obtain ⟨t₁, opened₁, rfl, mine₁, others₁⟩ := Tracked.opened (t := ⟨k, fun _ _ => none⟩) first.solo
    (by decide) (.inr (by simp [vacant])) stepped₁ (by simp [page₁])
  have vacant₁ : findShm t₁.kernel 0 = some 1 :=
    findShm_one (by simp [slot₁]) (by rw [rest₁ 1 (by decide)])
  have slots : findShm t₁.kernel 6 ≠ none ∨ findShm t₁.kernel 0 ≠ none := .inr (by simp [vacant₁])
  obtain ⟨j, k₂', e, k₂, stepped₂, solo₂, -, -, last₂, -, page₂⟩ :=
    solo₁.openshmem 6 (by decide) slots
  obtain ⟨t₂, opened₂, rfl, mine₂, others₂⟩ := Tracked.opened solo₁ (by decide) slots stepped₂
    (by simp [page₂])
  have kept : t₂.mine 0 5 = some 1 := by
    rw [others₂ 5 (by decide), mine₁]
    simp [page₂, page₁]
  have distinct₁ : Tracked.Distinct ⟨k, fun _ _ => none⟩ (.openshmem 0 5) := rfl
  have distinct₂ : t₁.Distinct (.openshmem 0 6) := others₁ 6 (by decide)
  have reached₂ : tracked.Reach Tracked.Distinct t₂ :=
    .step (.step (.start ⟨start, fun _ _ => rfl⟩) distinct₁ opened₁) distinct₂ opened₂
  obtain ⟨S, inv⟩ := solo₂.sane
  obtain ⟨d, hasDir⟩ := inv.dir solo₂.can
  refine ⟨t₂, reached₂, kept, mine₂, fun own => ?_⟩
  have last := (ownClose_iff 5 (reach_present reached₂) solo₂.held hasDir).mp own
  simp [OpenedLast, kept, solo₂.clearedPage, last₂] at last

end Xv6.Vm
