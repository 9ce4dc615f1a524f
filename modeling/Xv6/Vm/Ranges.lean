/-
# Xv6.Vm.Ranges -- what mappages and deallocuvm do to a range of pages

`mappages` fills a range from its first page on. It panics at a page that is there already, and where
it finds no memory for a page table the pages before are mapped and nothing else has changed
(`mappages_range`).

`deallocuvm` jumps from a missing page table to the next one. `visitLoop` looks at every page instead,
and the two agree on every directory, panics included (`deallocLoop_eq`). So what the loop clears and
frees can be read off the plain loop (`visitLoop_spec`), and `freevm` gives back the pages of the
directory, each as often as it is mapped (`freevm_owned`).
-/
import Xv6.Lib.Outcome
import Xv6.Vm.Tables

namespace Xv6.Vm
open Lib List
set_option autoImplicit false

variable {s s' t : Space} {m m' : Mem} {d : PgDir} {v x n : Nat}

/-- Pages were taken from the free list, and zeroed. -/
structure Cleared (m m' : Mem) : Prop where
  free : ∀ y ∈ m'.free, y ∈ m.free
  bytes : ∀ y, m'.bytes y = m.bytes y ∨ y ∈ m.free ∧ m'.bytes y = fun _ => 0

section Cleared

variable {m₁ m₂ m₃ : Mem}

theorem Cleared.refl (m : Mem) : Cleared m m := ⟨fun _ inside => inside, fun _ => .inl rfl⟩

theorem Cleared.trans (first : Cleared m₁ m₂) (second : Cleared m₂ m₃) : Cleared m₁ m₃ := by
  refine ⟨fun y inside => first.free y (second.free y inside), fun y => ?_⟩
  rcases second.bytes y with same | ⟨inside, zero⟩
  · rw [same]
    exact first.bytes y
  · exact .inr ⟨first.free y inside, zero⟩

theorem Cleared.zero (cleared : Cleared m m') (zero : m.bytes x = fun _ => 0) :
    m'.bytes x = fun _ => 0 := by
  rcases cleared.bytes x with same | ⟨-, zero'⟩
  · rw [same, zero]
  · exact zero'

theorem kalloc_cleared (taken : kalloc m = some (x, m')) : Cleared m (m'.fill x 0) := by
  obtain ⟨list, fields⟩ := kalloc_eq_some taken
  have bytes : m'.bytes = m.bytes := by rw [fields]
  refine ⟨fun y inside => ?_, fun y => ?_⟩
  · rw [list]
    exact mem_cons_of_mem x inside
  · by_cases same : y = x
    · exact .inr ⟨by simp [list, same], by simp [Mem.fill, Mem.setPage, same]⟩
    · exact .inl (by simp [Mem.fill, Mem.setPage, same, bytes])

theorem walkpgdirAlloc_cleared (walked : walkpgdirAlloc v s = some t) : Cleared s.mem t.mem := by
  rcases walkpgdirAlloc_eq_some walked with ⟨rfl, -⟩ | ⟨-, y, m, taken, rfl⟩
  · exact .refl _
  · exact kalloc_cleared taken

end Cleared

/-! ## mappages -/

section Mapping

variable {perm : Perm} {done : Bool}

/-- `n` pages from `v` on are mapped to those from `x` on, with page tables where there were none. -/
structure Mapped (perm : Perm) (v x n : Nat) (s s' : Space) : Prop where
  walk : ∀ i, i < n → walkpgdir s'.dir (v + i) = some ⟨(x + i) % 2 ^ 20, true, perm.w, perm.u⟩
  other : ∀ u, u < VPAGES → u < v ∨ v + n ≤ u → entryAt s'.dir u = entryAt s.dir u
  cleared : Cleared s.mem s'.mem

theorem Mapped.nil : Mapped perm v x 0 s s :=
  ⟨fun i inside => absurd inside (Nat.not_lt_zero i), fun _ _ _ => rfl, .refl _⟩

/-- One page, and then the rest. -/
theorem Mapped.cons (inV : v < VPAGES) (inX : x < 2 ^ 20) (walked : walkpgdirAlloc v s = some t)
    (rest : Mapped perm (v + 1) ((x + 1) % 2 ^ 20) n (t.store v ⟨x, true, perm.w, perm.u⟩) s') :
    Mapped perm v x (n + 1) s s' := by
  have before : ∀ u, u < VPAGES → u < v + 1 ∨ v + 1 + n ≤ u → entryAt s'.dir u =
      if u = v then some ⟨x, true, perm.w, perm.u⟩ else entryAt s.dir u :=
    fun u inU side => (rest.other u inU side).trans (entryAt_map walked inU inV rfl)
  refine ⟨fun i inside => ?_, fun u inU side => ?_,
    (walkpgdirAlloc_cleared walked).trans rest.cleared⟩
  · cases i with
    | zero =>
      have first := before v inV (by omega)
      rw [if_pos rfl] at first
      rw [Nat.add_zero, Nat.add_zero, Nat.mod_eq_of_lt inX]
      exact (Option.filter_eq_some_iff.mp first).1
    | succ i =>
      rw [show v + (i + 1) = v + 1 + i by omega, rest.walk i (by omega),
        show ((x + 1) % 2 ^ 20 + i) % 2 ^ 20 = (x + (i + 1)) % 2 ^ 20 by omega]
  · rw [before u inU (by omega), if_neg (by omega)]

/-- What a run that returns has mapped: all of the range, or an initial part of it. -/
theorem mapLoop_mapped (last : v + n ≤ VPAGES) (inX : x < 2 ^ 20)
    (ran : mapLoop perm n v x s = .ok (done, s')) :
    ∃ k, Mapped perm v x k s s' ∧ if done then k = n else k < n := by
  induction n generalizing v x s with
  | zero =>
    cases ran
    exact ⟨0, .nil, rfl⟩
  | succ n ih =>
    rcases mapLoop_succ ran with ⟨-, rfl, rfl⟩ | ⟨t, walked, -, rest⟩
    · exact ⟨0, .nil, Nat.succ_pos n⟩
    · obtain ⟨k, mapped, size⟩ := ih (by omega) (Nat.mod_lt _ (by decide)) rest
      refine ⟨k + 1, .cons (by omega) inX walked mapped, ?_⟩
      cases done
      · exact Nat.succ_lt_succ size
      · exact congrArg Nat.succ size

/-- The first page decides how the loop ends, or it goes through. -/
theorem mapLoop_first (perm : Perm) (v x : Nat) (s : Space) :
    (∃ r, (∀ t, r ≠ .ok (true, t)) ∧ ∀ n, mapLoop perm (n + 1) v x s = r) ∨
      ∃ t, ∀ n, mapLoop perm (n + 1) v x s = mapLoop perm n (v + 1) ((x + 1) % 2 ^ 20) t := by
  cases walked : walkpgdirAlloc v s with
  | none => exact .inl ⟨.ok (false, s), by simp, fun n => by rw [mapLoop, walked]⟩
  | some t =>
    by_cases absent : pageAt s.dir v = none
    · exact .inr ⟨_, fun n => by rw [mapLoop_step walked, if_pos absent]⟩
    · exact .inl ⟨.error (.panic "remap"), by simp, fun n => by rw [mapLoop_step walked, if_neg absent]⟩

/-- A loop that does not come to its end stops at some page, when those before have gone through. -/
theorem mapLoop_stops_iff {r : Except Fault (Bool × Space)} (stops : ∀ t, r ≠ .ok (true, t))
    (inX : x < 2 ^ 20) : mapLoop perm n v x s = r ↔ ∃ k t, k < n ∧
      mapLoop perm k v x s = .ok (true, t) ∧ mapLoop perm 1 (v + k) ((x + k) % 2 ^ 20) t = r := by
  induction n generalizing v x s with
  | zero =>
    refine iff_of_false (fun same => stops s same.symm) ?_
    rintro ⟨k, t, inside, -⟩
    omega
  | succ n ih =>
    have start : (x + 0) % 2 ^ 20 = x := Nat.mod_eq_of_lt inX
    have next : ∀ k, ((x + 1) % 2 ^ 20 + k) % 2 ^ 20 = (x + (k + 1)) % 2 ^ 20 := by omega
    rcases mapLoop_first perm v x s with ⟨q, ends, all⟩ | ⟨u, goes⟩
    · rw [all]
      constructor
      · rintro rfl
        exact ⟨0, s, Nat.succ_pos n, rfl, start.symm ▸ all 0⟩
      · rintro ⟨k, t, -, ran, last⟩
        cases k with
        | zero =>
          cases ran
          rw [start] at last
          exact (all 0).symm.trans last
        | succ k => exact absurd ((all k).symm.trans ran) (ends t)
    · rw [goes, ih (Nat.mod_lt _ (by decide))]
      constructor
      · rintro ⟨k, t, inside, ran, last⟩
        rw [next, Nat.add_right_comm] at last
        exact ⟨k + 1, t, by omega, (goes k).trans ran, last⟩
      · rintro ⟨k, t, inside, ran, last⟩
        cases k with
        | zero =>
          cases ran
          rw [start] at last
          exact absurd (last.symm.trans (goes 0)) (stops u)
        | succ k =>
          rw [← next, ← Nat.add_assoc, Nat.add_right_comm] at last
          exact ⟨k, t, by omega, (goes k).symm.trans ran, last⟩

/-- The panic: `k` pages went through, and the next one is there. -/
theorem mapLoop_error_iff (last : v + n ≤ VPAGES) (inX : x < 2 ^ 20) (f : Fault) :
    mapLoop perm n v x s = .error f ↔ f = .panic "remap" ∧
      ∃ k t, k < n ∧ mapLoop perm k v x s = .ok (true, t) ∧ pageAt s.dir (v + k) ≠ none := by
  rw [mapLoop_stops_iff (by simp) inX, ← exists_and_left]
  refine exists_congr fun k => ?_
  rw [← exists_and_left]
  refine exists_congr fun t => ?_
  rw [and_left_comm (a := f = _), and_left_comm (a := f = _)]
  refine and_congr_right fun inside => and_congr_right fun ran => ?_
  obtain ⟨k, mapped, rfl⟩ := mapLoop_mapped (by omega) inX ran
  have same : pageAt t.dir (v + k) = pageAt s.dir (v + k) := by
    rw [pageAt_eq_map, mapped.other _ (by omega) (.inr le_rfl), pageAt_eq_map]
  rw [← same]
  cases walked : walkpgdirAlloc (v + k) t with
  | none =>
    -- a page that is there has its page table
    have noTable := (walkpgdirAlloc_eq_none.mp walked).1
    simp [mapLoop, walked, pageAt, walkpgdir, noTable]
  | some u =>
    rw [mapLoop_step walked]
    by_cases absent : pageAt t.dir (v + k) = none
    · simp [mapLoop, absent]
    · simp [absent, eq_comm (b := f)]

/-- The result -1: `k` pages went through, and there is no memory for the page table of the next. -/
theorem mapLoop_false_iff (inX : x < 2 ^ 20) : mapLoop perm n v x s = .ok (false, s') ↔
    ∃ k, k < n ∧ mapLoop perm k v x s = .ok (true, s') ∧ s'.dir.tab (pdx (v + k)) = none ∧
      s'.mem.free = [] := by
  rw [mapLoop_stops_iff (by simp) inX]
  refine exists_congr fun k => ⟨?_, ?_⟩
  · rintro ⟨t, inside, ran, stopped⟩
    rcases mapOne_eq_ok stopped with ⟨-, rfl, full⟩ | ⟨true_, -⟩
    · exact ⟨inside, ran, walkpgdirAlloc_eq_none.mp full⟩
    · cases true_
  · rintro ⟨inside, ran, full⟩
    exact ⟨s', inside, ran, by rw [mapLoop, walkpgdirAlloc_eq_none.mpr full]⟩

/-- The number of pages that `size` bytes from `va` on lie in. -/
def spanned (va size : Nat) : Nat := (va + size - 1) / PGSIZE - va / PGSIZE + 1

theorem mappages_eq {va size : Nat} (some_ : 0 < size) (inVa : va + size ≤ 2 ^ 32) :
    mappages va size (x * PGSIZE) perm s = mapLoop perm (spanned va size) (va / PGSIZE) x s := by
  have rounds : ((va + size + 2 ^ 32 - 1) % 2 ^ 32 / PGSIZE + 2 ^ 20 - va / PGSIZE) % 2 ^ 20 + 1 =
      spanned va size := by
    simp only [spanned, PGSIZE]
    omega
  have frame : x * PGSIZE / PGSIZE = x := Nat.mul_div_cancel x (by decide)
  simp only [mappages, rounds, frame]

theorem mappages_range {va size x : Nat} (perm : Perm) (s : Space) (some_ : 0 < size)
    (inVa : va + size ≤ 2 ^ 32) (inX : x < 2 ^ 20) :
    (∀ f, mappages va size (x * PGSIZE) perm s = .error f ↔ f = .panic "remap" ∧
      ∃ k t, k < spanned va size ∧ mapLoop perm k (va / PGSIZE) x s = .ok (true, t) ∧
        pageAt s.dir (va / PGSIZE + k) ≠ none) ∧
    (∀ s', mappages va size (x * PGSIZE) perm s = .ok (false, s') ↔
      ∃ k, k < spanned va size ∧ mapLoop perm k (va / PGSIZE) x s = .ok (true, s') ∧
        s'.dir.tab (pdx (va / PGSIZE + k)) = none ∧ s'.mem.free = []) ∧
    ∀ done s', mappages va size (x * PGSIZE) perm s = .ok (done, s') →
      ∃ k, Mapped perm (va / PGSIZE) x k s s' ∧
        if done then k = spanned va size else k < spanned va size := by
  have last : va / PGSIZE + spanned va size ≤ VPAGES := by
    simp only [spanned, PGSIZE, VPAGES]
    omega
  rw [mappages_eq some_ inVa]
  exact ⟨fun f => mapLoop_error_iff last inX f, fun s' => mapLoop_false_iff inX,
    fun done s' ran => mapLoop_mapped last inX ran⟩

end Mapping

/-! ## deallocuvm -/

section Clearing

variable {oldsz newsz : Nat}

/-- `deallocuvm`'s step over a missing page table goes forward. -/
theorem lt_skip (inV : v < KERNPAGE) : v < (pdx v + 1) * NPTENTRIES := by
  simp only [pdx, NPTENTRIES, NPDENTRIES, KERNPAGE, KERNBASE, PGSIZE] at *
  omega

variable {a u : Nat}

theorem pgroundup_eq (bound : a ≤ KERNBASE) : pgroundup a = pages a * PGSIZE := by
  simp only [pgroundup, pages, PGSIZE, KERNBASE] at *
  omega

theorem pgroundup_div (bound : a ≤ KERNBASE) : pgroundup a / PGSIZE = pages a := by
  rw [pgroundup_eq bound, Nat.mul_div_cancel _ (by decide)]

theorem pages_mono {b : Nat} (le : a ≤ b) : pages a ≤ pages b :=
  Nat.div_le_div_right (by omega)

theorem pages_le_kernpage (bound : a ≤ KERNBASE) : pages a ≤ KERNPAGE := by
  simp only [pages, PGSIZE, KERNBASE, KERNPAGE] at *
  omega

/-- The pages of a list have been given to `kfree`, one after the other. -/
structure Freed (list : List Nat) (m m' : Mem) : Prop where
  layout : m'.layout = m.layout
  free : m'.free = list.reverse ++ m.free
  bytes : ∀ y, y ∉ list → m'.bytes y = m.bytes y

theorem Freed.nil : Freed [] m m := ⟨rfl, rfl, fun _ _ => rfl⟩

theorem Freed.cons {m₁ : Mem} {list : List Nat} (freed : kfree x m = .ok m₁) (rest : Freed list m₁ m') :
    Freed (x :: list) m m' := by
  obtain ⟨free, -, layout⟩ := kfree_eq_ok freed
  refine ⟨rest.layout.trans layout, ?_, fun y other => ?_⟩
  · rw [rest.free, free, reverse_cons, append_assoc, singleton_append]
  · rw [mem_cons, not_or] at other
    exact (rest.bytes y other.2).trans (kfree_bytes freed other.1)

theorem Freed.trans {m₁ : Mem} {a b : List Nat} (first : Freed a m m₁) (second : Freed b m₁ m') :
    Freed (a ++ b) m m' := by
  refine ⟨second.layout.trans first.layout, ?_, fun y other => ?_⟩
  · rw [second.free, first.free, reverse_append, append_assoc]
  · rw [mem_append, not_or] at other
    exact (second.bytes y other.2).trans (first.bytes y other.1)

/-- The pages that `n` virtual pages from `v` on are mapped to, in order. -/
def pagesIn (d : PgDir) (v n : Nat) : List Nat := (range' v n).filterMap (pageAt d)

theorem mem_pagesIn : x ∈ pagesIn d v n ↔ ∃ u, v ≤ u ∧ u < v + n ∧ pageAt d u = some x := by
  simp only [pagesIn, mem_filterMap, mem_range'_1, and_assoc]

/-- The loop of `deallocuvm` without the jump: `n` pages from `v` on are looked at one by one. -/
def visitLoop : Nat → Nat → Space → Except Fault Space
  | 0, _, s => .ok s
  | n + 1, v, s =>
    match pageAt s.dir v with
    | none => visitLoop n (v + 1) s
    | some x =>
      if x = 0 then
        .error (.panic "kfree")
      else do
        let m ← kfree x s.mem
        visitLoop n (v + 1) (Space.store ⟨s.dir, m⟩ v .zero)

theorem visitLoop_absent {gap : Nat} (n : Nat)
    (absent : ∀ u, v ≤ u → u < v + gap → pageAt s.dir u = none) :
    visitLoop (gap + n) v s = visitLoop n (v + gap) s := by
  induction gap generalizing v with
  | zero => rw [Nat.zero_add, Nat.add_zero]
  | succ gap ih =>
    rw [Nat.add_right_comm, visitLoop, absent v le_rfl (by omega)]
    rw [ih fun u above below => absent u (by omega) (by omega), Nat.add_right_comm, Nat.add_assoc]

/-- A missing page table covers the whole way to the next one. -/
theorem pageAt_skipped (absent : walkpgdir d v = none) (inV : v < KERNPAGE) (above : v ≤ u)
    (below : u < (pdx v + 1) * NPTENTRIES) : pageAt d u = none := by
  have dir : pdx u = pdx v := by
    simp only [pdx, NPTENTRIES, NPDENTRIES, KERNPAGE, KERNBASE, PGSIZE] at *
    omega
  have noTable : d.tab (pdx u) = none := by
    simpa [walkpgdir, dir] using absent
  simp [pageAt, walkpgdir, noTable]

/-- The jump makes no difference, and the rounds suffice: each moves on by a page or more. -/
theorem deallocLoop_eq (bound : oldsz ≤ KERNBASE) (enough : pages oldsz ≤ v + n) :
    deallocLoop oldsz n v s = visitLoop (pages oldsz - v) v s := by
  induction n generalizing v s with
  | zero =>
    rw [Nat.sub_eq_zero_of_le (by omega)]
    rfl
  | succ n ih =>
    have size : v * PGSIZE < oldsz ↔ v < pages oldsz := by
      simp only [pages, PGSIZE]
      omega
    rw [deallocLoop]
    split
    · rename_i below
      have inSize := size.mp below
      have inV : v < KERNPAGE := inSize.trans_le (pages_le_kernpage bound)
      rw [show pages oldsz - v = pages oldsz - (v + 1) + 1 by omega, visitLoop]
      cases walked : walkpgdir s.dir v with
      | none =>
        have forward := lt_skip inV
        have gap := fun u => pageAt_skipped (u := u) walked inV
        rw [gap v le_rfl forward]
        rw [ih (by omega)]
        generalize (pdx v + 1) * NPTENTRIES = next at forward gap ⊢
        by_cases inside : next ≤ pages oldsz
        · rw [show pages oldsz - (v + 1) = next - (v + 1) + (pages oldsz - next) by omega,
            visitLoop_absent _ fun u above below => gap u (by omega) (by omega),
            show v + 1 + (next - (v + 1)) = next by omega]
        · rw [Nat.sub_eq_zero_of_le (by omega), ← Nat.add_zero (pages oldsz - (v + 1)),
            visitLoop_absent _ fun u above below => gap u (by omega) (by omega)]
          rfl
      | some pte =>
        have again := fun t => ih (v := v + 1) (s := t) (by omega)
        cases present : pte.p <;> simp [pageAt, walked, present, again]
    · rw [Nat.sub_eq_zero_of_le (by omega)]
      rfl

/-- The present pages among `n` from `v` on have been cleared and freed, and nothing else changed. -/
structure Reaped (v n : Nat) (s s' : Space) : Prop where
  page : s'.dir.page = s.dir.page
  tabs : ∀ i, (s'.dir.tab i).map PageTable.page = (s.dir.tab i).map PageTable.page
  cleared : ∀ u, v ≤ u → u < v + n → pageAt s.dir u ≠ none → walkpgdir s'.dir u = some .zero
  kept : ∀ u, u < VPAGES → u < v ∨ v + n ≤ u ∨ pageAt s.dir u = none →
    walkpgdir s'.dir u = walkpgdir s.dir u
  usable : ∀ x ∈ pagesIn s.dir v n, x ≠ 0 ∧ Usable s.mem.layout x
  freed : Freed (pagesIn s.dir v n) s.mem s'.mem

theorem Reaped.nil : Reaped v 0 s s :=
  ⟨rfl, fun _ => rfl, by omega, fun _ _ _ => rfl, by simp [pagesIn], .nil⟩

theorem pagesIn_none (absent : pageAt d v = none) : pagesIn d v (n + 1) = pagesIn d (v + 1) n := by
  rw [pagesIn, range'_succ, filterMap_cons_none absent, pagesIn]

theorem Reaped.pass (absent : pageAt s.dir v = none) (reaped : Reaped (v + 1) n s s') :
    Reaped v (n + 1) s s' := by
  have pages := pagesIn_none (n := n) absent
  refine ⟨reaped.page, reaped.tabs, fun u above below there => ?_,
    fun u inU side => reaped.kept u inU (side.imp (by omega) (Or.imp_left (by omega))),
    pages ▸ reaped.usable, pages ▸ reaped.freed⟩
  have other : u ≠ v := fun same => there (same ▸ absent)
  exact reaped.cleared u (by omega) (by omega) there

section Clear

variable (found : pageAt s.dir v = some x) (last : v + (n + 1) ≤ VPAGES)
include found last

theorem walkpgdir_clear (inU : u < VPAGES) :
    walkpgdir (s.dir.store v .zero) u = if u = v then some .zero else walkpgdir s.dir u := by
  obtain ⟨pte, walked, -⟩ := pageAt_eq_some found
  refine walkpgdir_store inU (by omega) ?_
  rw [← walkpgdir_isSome, walked]
  rfl

theorem pageAt_clear (inU : u < VPAGES) (other : u ≠ v) :
    pageAt (s.dir.store v .zero) u = pageAt s.dir u := by
  rw [pageAt, walkpgdir_clear found last inU, if_neg other, pageAt]

theorem pagesIn_some :
    pagesIn s.dir v (n + 1) = x :: pagesIn (s.dir.store v .zero) (v + 1) n := by
  rw [pagesIn, range'_succ, filterMap_cons_some found, pagesIn]
  refine congrArg (x :: ·) (filterMap_congr fun u inside => ?_)
  rw [mem_range'_1] at inside
  rw [pageAt_clear found last (by omega) (by omega)]

theorem Reaped.cons (nonzero : x ≠ 0) (freed : kfree x s.mem = .ok m)
    (reaped : Reaped (v + 1) n (Space.store ⟨s.dir, m⟩ v .zero) s') : Reaped v (n + 1) s s' := by
  have pages := pagesIn_some found last
  have walk := fun u => walkpgdir_clear (u := u) found last
  refine ⟨reaped.page.trans store_page, fun i => (reaped.tabs i).trans (store_tab_page i),
    fun u above below there => ?_, fun u inU side => ?_, ?_, pages ▸ .cons freed reaped.freed⟩
  · by_cases first : u = v
    · rw [reaped.kept u (by omega) (.inl (by omega))]
      exact (walk u (by omega)).trans (if_pos first)
    · refine reaped.cleared u (by omega) (by omega) ?_
      exact (pageAt_clear found last (by omega) first).symm ▸ there
  · have other : u ≠ v := by
      rintro rfl
      rw [found] at side
      simp at side
    rw [reaped.kept u inU (side.imp (by omega) (Or.imp (by omega) ?_))]
    · exact (walk u inU).trans (if_neg other)
    · exact (pageAt_clear found last inU other).trans
  · rw [pages, forall_mem_cons]
    exact ⟨⟨nonzero, usable_of_kfree freed⟩, (kfree_eq_ok freed).2.2 ▸ reaped.usable⟩

end Clear

/-- The plain loop clears and frees what is there, or stops at a page `kfree` does not take. -/
theorem visitLoop_spec (last : v + n ≤ VPAGES) :
    (∃ s', visitLoop n v s = .ok s' ∧ Reaped v n s s') ∨
      visitLoop n v s = .error (.panic "kfree") ∧
        ∃ x ∈ pagesIn s.dir v n, ¬(x ≠ 0 ∧ Usable s.mem.layout x) := by
  induction n generalizing v s with
  | zero => exact .inl ⟨s, rfl, .nil⟩
  | succ n ih =>
    rw [visitLoop]
    cases found : pageAt s.dir v with
    | none =>
      rw [pagesIn_none found]
      refine (ih (by omega)).imp_left ?_
      rintro ⟨s', ran, reaped⟩
      exact ⟨s', ran, reaped.pass found⟩
    | some x =>
      have pages := pagesIn_some found last
      dsimp only
      by_cases fine : x ≠ 0 ∧ Usable s.mem.layout x
      · have freed := kfree_of_usable fine.2
        rw [if_neg fine.1, freed, ok_bind]
        rcases ih (s := Space.store ⟨s.dir, _⟩ v .zero) (v := v + 1) (by omega) with
          ⟨s', ran, reaped⟩ | ⟨ran, y, inside, refused⟩
        · exact .inl ⟨s', ran, .cons found last fine.1 freed reaped⟩
        · exact .inr ⟨ran, y, pages ▸ mem_cons_of_mem x inside, refused⟩
      · refine .inr ⟨?_, x, pages ▸ mem_cons_self, fine⟩
        by_cases zero : x = 0
        · rw [if_pos zero]
        · rw [if_neg zero, kfree, if_pos ?_]
          · rfl
          · have refused : ¬Usable s.mem.layout x := fun usable => fine ⟨zero, usable⟩
            unfold Usable at refused
            omega

theorem deallocuvm_eq (bound : oldsz ≤ KERNBASE) :
    deallocuvm oldsz newsz s = visitLoop (pages oldsz - pages newsz) (pages newsz) s >>= fun t =>
      pure (min oldsz newsz, t) := by
  unfold deallocuvm
  split
  · rename_i more
    rw [Nat.sub_eq_zero_of_le (pages_mono more), min_eq_left more]
    rfl
  · rw [pgroundup_div (by omega), deallocLoop_eq bound (by omega), min_eq_right (by omega)]

theorem deallocuvm_spec (s : Space) (newsz : Nat) (bound : oldsz ≤ KERNBASE) :
    (∃ s', deallocuvm oldsz newsz s = .ok (min oldsz newsz, s') ∧
        Reaped (pages newsz) (pages oldsz - pages newsz) s s') ∨
      deallocuvm oldsz newsz s = .error (.panic "kfree") ∧
        ∃ x ∈ pagesIn s.dir (pages newsz) (pages oldsz - pages newsz),
          ¬(x ≠ 0 ∧ Usable s.mem.layout x) := by
  have inHalf := pages_le_kernpage bound
  have small := kernpage_le_vpages
  rw [deallocuvm_eq bound]
  by_cases more : oldsz ≤ newsz
  · rw [Nat.sub_eq_zero_of_le (pages_mono more)]
    exact .inl ⟨s, rfl, .nil⟩
  have order := pages_mono (Nat.le_of_not_le more)
  rcases visitLoop_spec (s := s) (v := pages newsz) (n := pages oldsz - pages newsz) (by omega) with
    ⟨s', ran, reaped⟩ | ⟨ran, stopped⟩
  · rw [ran]
    exact .inl ⟨s', rfl, reaped⟩
  · rw [ran]
    exact .inr ⟨rfl, stopped⟩

end Clearing

/-! ## freevm -/

/-- The pages of the page tables of a directory at the places in `list`. -/
def tablePages (d : PgDir) (list : List Nat) : List Nat :=
  list.filterMap fun i => (d.tab i).map PageTable.page

/-- The pages that are a directory's own: user pages, page tables, and the directory. -/
def owned (d : PgDir) : List Nat :=
  pagesIn d 0 KERNPAGE ++ tablePages d (range NPDENTRIES) ++ [d.page]

theorem freeTables_ok {list : List Nat} (usable : ∀ x ∈ tablePages d list, Usable m.layout x) :
    ∃ m', freeTables d list m = .ok m' ∧ Freed (tablePages d list) m m' := by
  induction list generalizing m with
  | nil => exact ⟨m, rfl, .nil⟩
  | cons i rest ih =>
    rw [freeTables]
    cases found : d.tab i with
    | none =>
      have pages : tablePages d (i :: rest) = tablePages d rest := by simp [tablePages, found]
      rw [pages] at usable ⊢
      exact ih usable
    | some t =>
      have pages : tablePages d (i :: rest) = t.page :: tablePages d rest := by
        simp [tablePages, found]
      rw [pages] at usable ⊢
      obtain ⟨first, later⟩ := forall_mem_cons.mp usable
      have freed := kfree_of_usable first
      dsimp only
      rw [freed, ok_bind]
      obtain ⟨m', ran, all⟩ := ih (m := { m.fill t.page 1 with
        free := t.page :: m.free
        doubled := m.doubled || decide (t.page ∈ m.free) }) later
      exact ⟨m', ran, .cons freed all⟩

theorem freevm_owned (usable : ∀ x ∈ owned s.dir, x ≠ 0 ∧ Usable s.mem.layout x) :
    ∃ m, freevm s = .ok m ∧ Freed (owned s.dir) s.mem m := by
  simp only [owned, forall_mem_append, forall_mem_singleton] at usable
  obtain ⟨⟨user, tables⟩, dir⟩ := usable
  rcases deallocuvm_spec s 0 (le_refl KERNBASE) with ⟨t, ran, reaped⟩ | ⟨-, x, inside, refused⟩
  · have same : tablePages t.dir = tablePages s.dir := by
      funext list
      simp only [tablePages, reaped.tabs]
    have usable : ∀ x ∈ tablePages t.dir (range NPDENTRIES), Usable t.mem.layout x := by
      rw [same, reaped.freed.layout]
      exact fun x inside => (tables x inside).2
    obtain ⟨m, ran', freed⟩ := freeTables_ok usable
    rw [same] at freed
    have both := reaped.freed.trans freed
    have last := kfree_of_usable (both.layout.symm ▸ dir.2)
    refine ⟨_, ?_, both.trans (.cons last .nil)⟩
    rw [freevm, ran, ok_bind]
    dsimp only
    rw [ran', ok_bind, reaped.page, last]
  · exact absurd (user x inside) refused

theorem deallocuvm_frees (s : Space) {oldsz newsz : Nat} (bound : oldsz ≤ KERNBASE) :
    (deallocuvm oldsz newsz s = visitLoop (pages oldsz - pages newsz) (pages newsz) s >>= fun t =>
      pure (min oldsz newsz, t)) ∧
    ((∃ r s', deallocuvm oldsz newsz s = .ok (r, s')) ↔
      ∀ x ∈ pagesIn s.dir (pages newsz) (pages oldsz - pages newsz),
        x ≠ 0 ∧ Usable s.mem.layout x) ∧
    (∀ f, deallocuvm oldsz newsz s = .error f → f = .panic "kfree") ∧
    (∀ r s', deallocuvm oldsz newsz s = .ok (r, s') →
      r = min oldsz newsz ∧ Reaped (pages newsz) (pages oldsz - pages newsz) s s') ∧
    ((∀ x ∈ owned s.dir, x ≠ 0 ∧ Usable s.mem.layout x) → (owned s.dir).Nodup →
      ∃ m, freevm s = .ok m ∧
        ∀ x, m.free.count x = s.mem.free.count x + if x ∈ owned s.dir then 1 else 0) := by
  have spec := deallocuvm_spec s newsz bound
  refine ⟨deallocuvm_eq bound, ?_, fun f failed => ?_, fun r s' ran => ?_, fun usable once => ?_⟩
  · rcases spec with ⟨s', ran, reaped⟩ | ⟨ran, x, inside, refused⟩
    · exact iff_of_true ⟨_, s', ran⟩ reaped.usable
    · exact iff_of_false (by simp [ran]) fun usable => refused (usable x inside)
  · rcases spec with ⟨t, ran, -⟩ | ⟨ran, -⟩
    · cases ran.symm.trans failed
    · cases ran.symm.trans failed
      rfl
  · rcases spec with ⟨t, ran', reaped⟩ | ⟨ran', -⟩
    · cases ran'.symm.trans ran
      exact ⟨rfl, reaped⟩
    · cases ran'.symm.trans ran
  · obtain ⟨m, ran, freed⟩ := freevm_owned usable
    refine ⟨m, ran, fun x => ?_⟩
    rw [freed.free, count_append, count_reverse, once.count, Nat.add_comm]

/-- One user page, mapped to page `x`. -/
def lonePage (x : Nat) : Space where
  dir := ⟨0x302, fun i => if i = 0 then some ⟨0x301, fun _ => ⟨x, true, true, true⟩⟩ else none⟩
  mem := ⟨⟨0x200000, 0x108000⟩, [], fun _ _ => 0, false⟩

/-- Page 0 is never one of `kalloc`'s, and `deallocuvm` stops at it. -/
theorem deallocuvm_stops_at_zero :
    deallocuvm PGSIZE 0 (lonePage 0) = .error (.panic "kfree") := rfl

/-- Two pages, and one in the table after the next, which is missing; one page is free. -/
def threePages : Space where
  dir := ⟨0x305, fun i =>
    if i = 0 then some ⟨0x303, fun j => if j < 2 then ⟨0x300 + j, true, true, true⟩ else .zero⟩
    else if i = 2 then some ⟨0x304, fun j => if j = 0 then ⟨0x302, true, true, true⟩ else .zero⟩
    else none⟩
  mem := ⟨⟨0x200000, 0x108000⟩, [0x306], fun _ _ => 0, false⟩

theorem threePages_pageAt {u : Nat} (inU : u < KERNPAGE) (found : pageAt threePages.dir u = some x) :
    u < 2 ∧ x = 0x300 + u ∨ u = 2048 ∧ x = 0x302 := by
  have dir : pdx u = u / 1024 := Nat.mod_eq_of_lt (by
    simp only [KERNPAGE, KERNBASE, PGSIZE, NPTENTRIES, NPDENTRIES] at *
    omega)
  obtain ⟨pte, walked, present, rfl⟩ := pageAt_eq_some found
  simp only [walkpgdir, dir, threePages, ptx, NPTENTRIES] at walked
  grind [Pte.zero]

/-- A page table is made, and two pages are mapped in it. -/
theorem mappages_range_twoPages : ∃ s', 0 < 2 * PGSIZE ∧ 0x400000 + 2 * PGSIZE ≤ 2 ^ 32 ∧
    5 < 2 ^ 20 ∧ mappages 0x400000 (2 * PGSIZE) (5 * PGSIZE) ⟨true, false⟩ threePages = .ok (true, s') ∧
    walkpgdir s'.dir 1025 = some ⟨6, true, true, false⟩ ∧
    entryAt s'.dir 2048 = entryAt threePages.dir 2048 := by
  obtain ⟨s', ran⟩ : ∃ s', mappages 0x400000 (2 * PGSIZE) (5 * PGSIZE) ⟨true, false⟩ threePages =
      .ok (true, s') := ⟨_, rfl⟩
  obtain ⟨-, -, mapped⟩ := @mappages_range 0x400000 (2 * PGSIZE) 5 ⟨true, false⟩ threePages
    (by decide) (by decide) (by decide)
  obtain ⟨k, mapped, rfl⟩ := mapped true s' ran
  exact ⟨s', by decide, by decide, by decide, ran, mapped.walk 1 (by decide),
    mapped.other 2048 (by decide) (.inr (by decide))⟩

theorem threePages_tables : tablePages threePages.dir (range NPDENTRIES) = [0x303, 0x304] := by
  decide +kernel

theorem threePages_pagesIn {n : Nat} (last : n ≤ KERNPAGE) {x : Nat}
    (inside : x ∈ pagesIn threePages.dir 0 n) : 0x300 ≤ x ∧ x ≤ 0x302 := by
  obtain ⟨u, -, inU, found⟩ := mem_pagesIn.mp inside
  have := threePages_pageAt (by omega) found
  omega

theorem threePages_owned : ∀ x ∈ owned threePages.dir, 0x300 ≤ x ∧ x ≤ 0x305 := by
  intro x inside
  rw [owned, threePages_tables, append_assoc, mem_append] at inside
  rcases inside with inside | inside
  · have := threePages_pagesIn le_rfl inside
    omega
  · simp [threePages] at inside
    omega

theorem threePages_nodup : (owned threePages.dir).Nodup := by
  have once : (pagesIn threePages.dir 0 KERNPAGE).Nodup := by
    rw [pagesIn, Nodup, pairwise_filterMap]
    refine (nodup_range' _).imp_of_mem fun {u v} inU inV ne x atU y atV same => ne ?_
    rw [mem_range'_1] at inU inV
    have := threePages_pageAt (by omega) atU
    have := threePages_pageAt (by omega) atV
    omega
  rw [owned, threePages_tables, append_assoc]
  refine nodup_append.mpr ⟨once, by decide, fun x inside y other same => ?_⟩
  have := threePages_pagesIn le_rfl inside
  simp [threePages] at other
  omega

/-- The loop jumps over the table that is missing, to the third page. -/
theorem deallocuvm_frees_threePages : 2049 * PGSIZE ≤ KERNBASE ∧ (owned threePages.dir).Nodup ∧
    (∃ s', deallocuvm (2049 * PGSIZE) 0 threePages = .ok (0, s') ∧
      walkpgdir s'.dir 2048 = some .zero) ∧
    ∃ m, freevm threePages = .ok m ∧ m.free.count 0x302 = 1 := by
  have bound : 2049 * PGSIZE ≤ KERNBASE := by decide
  have usable : ∀ x, 0x300 ≤ x ∧ x ≤ 0x305 → x ≠ 0 ∧ Usable threePages.mem.layout x := by
    intro x bounds
    simp only [Usable, threePages, PGSIZE, PHYSTOP]
    omega
  obtain ⟨-, returns, -, reaped, freed⟩ := @deallocuvm_frees threePages _ 0 bound
  obtain ⟨r, s', ran⟩ := returns.mpr fun x inside => by
    have := threePages_pagesIn (n := 2049) (by decide) inside
    exact usable x (by omega)
  obtain ⟨rfl, gone⟩ := reaped r s' ran
  obtain ⟨m, all, counts⟩ := freed (fun x inside => usable x (threePages_owned x inside))
    threePages_nodup
  have third : 0x302 ∈ owned threePages.dir := by
    rw [owned, append_assoc, mem_append, mem_pagesIn]
    exact .inl ⟨2048, by decide, by decide, rfl⟩
  refine ⟨bound, threePages_nodup, ⟨s', ran, ?_⟩, m, all, ?_⟩
  · exact gone.cleared 2048 (by decide) (by decide) (by decide)
  · rw [counts, if_pos third]
    rfl

end Xv6.Vm
