/-
# Xv6.Vm.Returns -- allocuvm and deallocuvm go through

The functions of `vm.c` stop the machine when a page they free is not one of `kalloc`'s, and when an
entry they set is in use already. `Backed` is what rules this out for one address space: the free pages
and the user pages from `lo` on are pages `kfree` takes. It also keeps track of a set `L` of pages, in
use those that were free when a call began: each of them is still free, or a page table, or mapped from
`lo` on. So whether or not there is memory, the calls return and lose nothing.
-/
import Xv6.Vm.Boot

namespace Xv6.Vm
open Lib
set_option autoImplicit false

/-- The pages a directory is in: its own and those of its tables. -/
def TablePage (d : PgDir) (y : Nat) : Prop :=
  y = d.page ∨ ∃ i, i < NPDENTRIES ∧ (d.tab i).map PageTable.page = some y

structure Backed (l : Layout) (lo : Nat) (L : Nat → Prop) (s : Space) : Prop where
  layout : s.mem.layout = l
  linked : l.Ok
  free : ∀ x ∈ s.mem.free, Usable l x
  user : ∀ v x, lo ≤ v → v < KERNPAGE → pageAt s.dir v = some x → Usable l x
  all : ∀ y, L y → y ∈ s.mem.free ∨ TablePage s.dir y ∨
    ∃ v, lo ≤ v ∧ v < KERNPAGE ∧ pageAt s.dir v = some y

section Steps

variable {l : Layout} {L : Nat → Prop} {lo v x : Nat} {s s' t : Space} {m : Mem} {d : PgDir}

theorem tablePage_store {pte : Pte} (y : Nat) : TablePage (d.store v pte) y ↔ TablePage d y := by
  simp only [TablePage, store_page, store_tab_page]

theorem tablePage_addTable {i : Nat} (inI : i < NPDENTRIES) (absent : d.tab i = none) (y : Nat) :
    TablePage (d.addTable i x) y ↔ TablePage d y ∨ y = x := by
  simp only [TablePage, or_assoc]
  refine or_congr_right ⟨?_, ?_⟩
  · rintro ⟨l, inL, found⟩
    by_cases same : l = i
    · subst same
      simp only [PgDir.addTable, Function.update_self, Option.map_some, Option.some.injEq] at found
      exact .inr found.symm
    · exact .inl ⟨l, inL, by simpa [PgDir.addTable, same] using found⟩
  · rintro (⟨l, inL, found⟩ | rfl)
    · have other : l ≠ i := by
        rintro rfl
        simp [absent] at found
      exact ⟨l, inL, by simpa [PgDir.addTable, other] using found⟩
    · exact ⟨i, inI, by simp [PgDir.addTable]⟩

theorem Backed.walkpgdirAlloc (backed : Backed l lo L s) (walked : walkpgdirAlloc v s = some t) :
    Backed l lo L t := by
  rcases walkpgdirAlloc_eq_some walked with ⟨rfl, -⟩ | ⟨absent, x, m, taken, rfl⟩
  · exact backed
  have list := (kalloc_eq_some taken).1
  obtain ⟨layout, linked, free, user, all⟩ := backed
  rw [list] at free all
  have page := tablePage_addTable (x := x) (pdx_lt v) absent
  refine ⟨(kalloc_takenFrom taken).layout.trans layout, linked,
    fun y inside => free y (List.mem_cons_of_mem x inside), fun u y above below mapped => ?_,
    fun y inside => ?_⟩
  · exact user u y above below ((pageAt_addTable absent x u).symm.trans mapped)
  · rcases all y inside with stillFree | isTable | ⟨u, above, below, mapped⟩
    · rcases List.mem_cons.mp stillFree with rfl | stillFree
      · exact .inr (.inl ((page y).mpr (.inr rfl)))
      · exact .inl stillFree
    · exact .inr (.inl ((page y).mpr (.inl isTable)))
    · exact .inr (.inr ⟨u, above, below, (pageAt_addTable absent x u).trans mapped⟩)

/-- A page is taken and overwritten. -/
theorem Backed.kalloc (backed : Backed l lo L s) (taken : kalloc s.mem = some (x, m)) (b : Byte) :
    Usable l x ∧ Backed l lo (fun y => L y ∧ y ≠ x) ⟨s.dir, m.fill x b⟩ := by
  have list := (kalloc_eq_some taken).1
  obtain ⟨layout, linked, free, user, all⟩ := backed
  rw [list] at free all
  refine ⟨free x List.mem_cons_self, (kalloc_takenFrom taken).layout.trans layout, linked,
    fun y inside => free y (List.mem_cons_of_mem x inside), user,
    fun y wanted => ?_⟩
  obtain ⟨inside, other⟩ := wanted
  exact (all y inside).imp_left fun stillFree => (List.mem_cons.mp stillFree).resolve_left other

/-- The page is mapped where nothing was. -/
theorem Backed.map {pte : Pte} (backed : Backed l lo (fun y => L y ∧ y ≠ x) s)
    (usable : Usable l x) (above : lo ≤ v) (inV : v < KERNPAGE)
    (absent : pageAt s.dir v = none) (there : (s.dir.tab (pdx v)).isSome) (present : pte.p = true)
    (page : pte.ppn = x) : Backed l lo L (s.store v pte) := by
  have small := kernpage_le_vpages
  have entry : ∀ u, u < KERNPAGE →
      pageAt (s.dir.store v pte) u = if u = v then some x else pageAt s.dir u := by
    intro u inU
    rw [pageAt_store (by omega) (by omega) there, present, page, if_pos rfl]
  refine ⟨backed.layout, backed.linked, backed.free, fun u y aboveU below mapped => ?_,
    fun y inside => ?_⟩
  · change pageAt (s.dir.store v pte) u = some y at mapped
    rw [entry u below] at mapped
    split at mapped
    · cases mapped
      exact usable
    · exact backed.user u y aboveU below mapped
  · by_cases same : y = x
    · exact .inr (.inr ⟨v, above, inV, (entry v inV).trans (by rw [if_pos rfl, same])⟩)
    · rcases backed.all y ⟨inside, same⟩ with stillFree | isTable | ⟨u, aboveU, below, mapped⟩
      · exact .inl stillFree
      · exact .inr (.inl ((tablePage_store y).mpr isTable))
      · refine .inr (.inr ⟨u, aboveU, below, (entry u below).trans ?_⟩)
        rw [if_neg fun same => ?_, mapped]
        rw [same, absent] at mapped
        cases mapped

/-- The page is given back. -/
theorem Backed.give (backed : Backed l lo (fun y => L y ∧ y ≠ x) s) (usable : Usable l x) :
    ∃ m, kfree x s.mem = .ok m ∧ Backed l lo L ⟨s.dir, m⟩ := by
  have fine : Usable s.mem.layout x := backed.layout ▸ usable
  refine ⟨_, kfree_of_usable fine, backed.layout, backed.linked, fun y inside => ?_, backed.user,
    fun y inside => ?_⟩
  · rcases List.mem_cons.mp inside with rfl | inside
    · exact usable
    · exact backed.free y inside
  · by_cases same : y = x
    · exact .inl (by simp [same])
    · exact (backed.all y ⟨inside, same⟩).imp_left fun stillFree => List.mem_cons_of_mem x stillFree

variable {oldsz : Nat}

theorem Backed.drop (backed : Backed l lo L s) (dropped : Dropped oldsz v s s')
    (bound : oldsz ≤ KERNBASE) : Backed l lo L s' := by
  have small := kernpage_le_vpages
  have inHalf := pages_le_kernpage bound
  have page : ∀ y, TablePage s'.dir y ↔ TablePage s.dir y := by
    intro y
    simp only [TablePage, dropped.page, dropped.tabs]
  refine ⟨dropped.layout.trans backed.layout, backed.linked, fun x inside => ?_,
    fun u x aboveU below mapped => ?_, fun y inside => ?_⟩
  · rcases (dropped.free x).mp inside with stillFree | ⟨u, aboveU, below, mapped⟩
    · exact backed.free x stillFree
    · rw [← backed.layout]
      exact dropped.usable u x aboveU below mapped
  · rw [dropped.pageAt (by omega)] at mapped
    split at mapped
    · cases mapped
    · exact backed.user u x aboveU below mapped
  · rcases backed.all y inside with stillFree | isTable | ⟨u, aboveU, below, mapped⟩
    · exact .inl ((dropped.free y).mpr (.inl stillFree))
    · exact .inr (.inl ((page y).mpr isTable))
    · by_cases gone : v ≤ u ∧ u < pages oldsz
      · exact .inl ((dropped.free y).mpr (.inr ⟨u, gone.1, gone.2, mapped⟩))
      · refine .inr (.inr ⟨u, aboveU, below, ?_⟩)
        rw [dropped.pageAt (by omega), if_neg gone, mapped]

/-! ## deallocuvm and allocuvm -/

theorem deallocuvm_backed (newsz : Nat) (backed : Backed l lo L s) (bound : oldsz ≤ KERNBASE)
    (above : lo ≤ pages newsz) :
    ∃ r s', deallocuvm oldsz newsz s = .ok (r, s') ∧ Backed l lo L s' := by
  by_cases shrinks : newsz < oldsz
  · have inHalf := pages_le_kernpage bound
    obtain ⟨s', ran⟩ := deallocuvm_ok bound shrinks (backed.layout ▸ backed.linked)
      fun u x aboveU below found => backed.layout ▸ backed.user u x (by omega) (by omega) found
    exact ⟨newsz, s', ran, backed.drop (deallocuvm_dropped bound shrinks ran).2 bound⟩
  · exact ⟨oldsz, s, by rw [deallocuvm, if_pos (by omega)], backed⟩

/-- `allocuvm`'s loop returns, whether or not there is memory, and loses no page. -/
theorem allocLoop_backed {newsz n : Nat} (bound : newsz ≤ KERNBASE) (start : lo ≤ pages oldsz)
    (above : lo ≤ v) (last : v + n ≤ KERNPAGE) (backed : Backed l lo L s)
    (absent : ∀ u, v ≤ u → u < v + n → pageAt s.dir u = none) :
    ∃ r s', allocLoop oldsz newsz n v s = .ok (r, s') ∧ Backed l lo L s' := by
  induction n generalizing v s with
  | zero => exact ⟨newsz, s, rfl, backed⟩
  | succ n ih =>
    have small := kernpage_le_vpages
    rw [allocLoop]
    split
    · obtain ⟨r, s', freed, after⟩ := deallocuvm_backed oldsz backed bound start
      rw [freed]
      exact ⟨0, s', rfl, after⟩
    · rename_i x m taken
      obtain ⟨usable, held⟩ := backed.kalloc taken 0
      rw [mappages_one (by omega)]
      cases walked : walkpgdirAlloc v ⟨s.dir, m.fill x 0⟩ with
      | none =>
        -- there is no page for the page table
        have failed : mapLoop userPerm 1 v x ⟨s.dir, m.fill x 0⟩ =
            .ok (false, ⟨s.dir, m.fill x 0⟩) := by
          rw [mapLoop, walked]
        rw [failed, ok_bind]
        obtain ⟨r, s', freed, after⟩ := deallocuvm_backed oldsz held bound start
        obtain ⟨m', given, back⟩ := after.give usable
        simp only [freed, ok_bind, given, Bool.false_eq_true, if_false]
        exact ⟨0, _, rfl, back⟩
      | some t =>
        have first := absent v le_rfl (by omega)
        have there := walkpgdirAlloc_isSome walked
        rw [mapOne_ok (s := ⟨s.dir, m.fill x 0⟩) x userPerm first walked, ok_bind]
        refine ih (by omega) (by omega) ((held.walkpgdirAlloc walked).map usable above
          (by omega) ((walkpgdirAlloc_pageAt walked v).trans first) there rfl rfl) ?_
        intro u aboveU below
        rw [pageAt_map walked (by omega) (by omega) rfl, if_neg (by omega)]
        exact absent u (by omega) (by omega)

theorem allocuvm_backed (newsz : Nat) (backed : Backed l lo L s) (start : lo ≤ pages oldsz)
    (bound : oldsz ≤ KERNBASE)
    (absent : ∀ u, pages oldsz ≤ u → u < KERNPAGE → pageAt s.dir u = none) :
    ∃ r s', allocuvm oldsz newsz s = .ok (r, s') ∧ Backed l lo L s' := by
  unfold allocuvm
  split
  · exact ⟨0, s, rfl, backed⟩
  split
  · exact ⟨oldsz, s, rfl, backed⟩
  have inHalf := pages_le_kernpage (show newsz ≤ KERNBASE by omega)
  have first := pages_le_kernpage bound
  simp only [pgroundup_div bound]
  exact allocLoop_backed (by omega) start start (by omega) backed
    fun u above below => absent u above (by omega)

end Steps

end Xv6.Vm
