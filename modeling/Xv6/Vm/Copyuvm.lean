/-
# Xv6.Vm.Copyuvm -- copyuvm copies, or gives everything back

`copyuvm` builds a directory from pages of the free list. At every point the pages the new directory
owns, the page in the hand and the free pages are together the pages that were free at the start
(`Budget`). So the pages of the copy are new and distinct, and when memory runs out, at whatever page or
page table, `freevm` puts the same pages back on the list.
-/
import Xv6.Vm.Boot

namespace Xv6.Vm
open Lib List
set_option autoImplicit false

variable {s t : Space} {m m₀ : Mem} {d : PgDir} {v x n : Nat} {hand : List Nat}

/-! ## The pages of a directory -/

/-- A place that had nothing gets something. -/
theorem filterMap_perm {α β : Type} [DecidableEq α] {l : List α} {f g : α → Option β} {i : α} {b : β}
    (nodup : l.Nodup) (inside : i ∈ l) (before : f i = none) (after : g i = some b)
    (others : ∀ j ∈ l, j ≠ i → g j = f j) : (l.filterMap g).Perm (b :: l.filterMap f) := by
  have split := perm_cons_erase inside
  have rest : (l.erase i).filterMap g = (l.erase i).filterMap f :=
    filterMap_congr fun j member =>
      others j (mem_of_mem_erase member) (nodup.mem_erase_iff.mp member).1
  have new := split.filterMap g
  have old := split.filterMap f
  rw [filterMap_cons_some after, rest] at new
  rw [filterMap_cons_none before] at old
  exact new.trans (old.symm.cons b)

theorem owned_addTable {i : Nat} (inI : i < NPDENTRIES) (absent : d.tab i = none) (x : Nat) :
    (owned (d.addTable i x)).Perm (x :: owned d) := by
  have user : pagesIn (d.addTable i x) 0 KERNPAGE = pagesIn d 0 KERNPAGE :=
    filterMap_congr fun u _ => pageAt_addTable absent x u
  have tables : (tablePages (d.addTable i x) (range NPDENTRIES)).Perm
      (x :: tablePages d (range NPDENTRIES)) := by
    refine filterMap_perm nodup_range (mem_range.mpr inI) (by simp [absent])
      (by simp [PgDir.addTable]) fun j _ other => ?_
    simp [PgDir.addTable, other]
  rw [owned, user, owned, append_assoc, append_assoc, ← cons_append]
  exact ((tables.append_right _).append_left _).trans perm_middle

theorem tablePages_store (pte : Pte) (list : List Nat) :
    tablePages (d.store v pte) list = tablePages d list := by
  simp only [tablePages, store_tab_page]

theorem owned_store_kernel (kernel : KERNPAGE ≤ v) (inV : v < VPAGES)
    (there : (d.tab (pdx v)).isSome) (pte : Pte) : owned (d.store v pte) = owned d := by
  have user : pagesIn (d.store v pte) 0 KERNPAGE = pagesIn d 0 KERNPAGE := by
    refine filterMap_congr fun u inside => ?_
    rw [mem_range'_1] at inside
    rw [pageAt_store (by omega) inV there, if_neg (by omega)]
  rw [owned, user, tablePages_store, store_page, owned]

theorem owned_store_user (inV : v < KERNPAGE) (there : (d.tab (pdx v)).isSome)
    (absent : pageAt d v = none) (w u : Bool) :
    (owned (d.store v ⟨x, true, w, u⟩)).Perm (x :: owned d) := by
  have small := kernpage_le_vpages
  have page : ∀ j, j < KERNPAGE → pageAt (d.store v ⟨x, true, w, u⟩) j =
      if j = v then some x else pageAt d j :=
    fun j inJ => pageAt_store (by omega) (by omega) there
  have user : (pagesIn (d.store v ⟨x, true, w, u⟩) 0 KERNPAGE).Perm (x :: pagesIn d 0 KERNPAGE) := by
    refine filterMap_perm nodup_range' (mem_range'_1.mpr ⟨Nat.zero_le v, by omega⟩) absent
      ((page v inV).trans (if_pos rfl)) fun j inside other => ?_
    rw [mem_range'_1] at inside
    rw [page j (by omega), if_neg other]
  rw [owned, tablePages_store, store_page, owned, append_assoc, append_assoc]
  exact user.append_right _

/-! ## Nothing is lost -/

/-- What the directory owns, what is in the hand and what is free was free in `m₀`, and only such pages
were written. -/
structure Budget (m₀ : Mem) (hand : List Nat) (s : Space) : Prop where
  layout : s.mem.layout = m₀.layout
  pages : (hand ++ (owned s.dir ++ s.mem.free)).Perm m₀.free
  bytes : ∀ y, y ∉ m₀.free → s.mem.bytes y = m₀.bytes y

theorem Budget.mem_free (budget : Budget m₀ hand s) (inside : x ∈ s.mem.free) : x ∈ m₀.free :=
  budget.pages.mem_iff.mp (mem_append_right _ (mem_append_right _ inside))

/-- A free page is written. -/
theorem Budget.setPage (budget : Budget m₀ hand s) (inside : x ∈ m₀.free) (page : Nat → Byte) {y : Nat}
    (other : y ∉ m₀.free) : Function.update s.mem.bytes x page y = m₀.bytes y := by
  have ne : y ≠ x := fun same => other (same ▸ inside)
  rw [Function.update_of_ne ne]
  exact budget.bytes y other

theorem Budget.kalloc (budget : Budget m₀ hand s) (taken : kalloc s.mem = some (x, m))
    (page : Nat → Byte) : Budget m₀ (x :: hand) ⟨s.dir, m.setPage x page⟩ := by
  obtain ⟨list, fields⟩ := kalloc_eq_some taken
  have pages := budget.pages
  rw [list] at pages
  have inside := budget.mem_free (list ▸ mem_cons_self)
  refine ⟨(congrArg Mem.layout fields).trans budget.layout, ?_, fun y other => ?_⟩
  · exact (perm_middle.symm.trans (perm_middle.symm.append_left hand)).trans pages
  · rw [fields]
    exact budget.setPage inside page other

theorem Budget.walk (budget : Budget m₀ hand s) (walked : walkpgdirAlloc v s = some t) :
    Budget m₀ hand t := by
  rcases walkpgdirAlloc_eq_some walked with ⟨rfl, -⟩ | ⟨absent, x, m, taken, rfl⟩
  · exact budget
  obtain ⟨list, fields⟩ := kalloc_eq_some taken
  have pages := budget.pages
  rw [list] at pages
  refine ⟨(congrArg Mem.layout fields).trans budget.layout, ?_, fun y other => ?_⟩
  · refine (List.Perm.append_left hand ?_).trans pages
    exact ((owned_addTable (pdx_lt v) absent x).append_right m.free).trans perm_middle.symm
  · rw [fields]
    exact budget.setPage (budget.mem_free (list ▸ mem_cons_self)) _ other

theorem Budget.mapKernel (budget : Budget m₀ hand s) (kernel : KERNPAGE ≤ v) (inV : v < VPAGES)
    (walked : walkpgdirAlloc v s = some t) (pte : Pte) : Budget m₀ hand (t.store v pte) := by
  obtain ⟨layout, pages, bytes⟩ := budget.walk walked
  refine ⟨layout, ?_, bytes⟩
  rwa [Space.store, owned_store_kernel kernel inV (walkpgdirAlloc_isSome walked)]

/-- The page in the hand is mapped. -/
theorem Budget.map (budget : Budget m₀ (x :: hand) s) (inV : v < KERNPAGE)
    (walked : walkpgdirAlloc v s = some t) (absent : pageAt s.dir v = none) (w u : Bool) :
    Budget m₀ hand (t.store v ⟨x, true, w, u⟩) := by
  obtain ⟨layout, pages, bytes⟩ := budget.walk walked
  refine ⟨layout, List.Perm.trans ?_ pages, bytes⟩
  have owns := owned_store_user (x := x) inV (walkpgdirAlloc_isSome walked)
    ((walkpgdirAlloc_pageAt walked v).trans absent) w u
  exact ((owns.append_right _).append_left hand).trans perm_middle

section Usable

variable (fine : ∀ x ∈ m₀.free, x ≠ 0 ∧ Usable m₀.layout x)
include fine

theorem Budget.kfree (budget : Budget m₀ (x :: hand) s) :
    ∃ m, kfree x s.mem = .ok m ∧ Budget m₀ hand ⟨s.dir, m⟩ := by
  have inside : x ∈ m₀.free := budget.pages.mem_iff.mp mem_cons_self
  have usable : Usable s.mem.layout x := budget.layout ▸ (fine x inside).2
  refine ⟨_, kfree_of_usable usable, budget.layout, List.Perm.trans ?_ budget.pages,
    fun y other => budget.setPage inside _ other⟩
  exact (perm_middle.append_left hand).trans perm_middle

theorem Budget.freevm (budget : Budget m₀ [] s) :
    ∃ m, freevm s = .ok m ∧ m.free.Perm m₀.free ∧ ∀ y, y ∉ m₀.free → m.bytes y = m₀.bytes y := by
  have inside : ∀ x ∈ owned s.dir, x ∈ m₀.free := fun x member =>
    budget.pages.mem_iff.mp (mem_append_right [] (mem_append_left _ member))
  obtain ⟨m, ran, freed⟩ := freevm_owned (s := s) fun x member => by
    rw [budget.layout]
    exact fine x (inside x member)
  refine ⟨m, ran, ?_, fun y other => ?_⟩
  · rw [freed.free]
    exact ((reverse_perm _).append_right _).trans budget.pages
  · rw [freed.bytes y fun member => other (inside y member)]
    exact budget.bytes y other

/-! ## setupkvm and copyuvm -/

theorem setupkvm_budget (linked : m₀.layout.Ok) :
    ∃ made m, setupkvm m₀ = .ok (made, m) ∧
      (made = none → m.free.Perm m₀.free ∧ ∀ y, y ∉ m₀.free → m.bytes y = m₀.bytes y) ∧
      ∀ d, made = some d → Budget m₀ [] ⟨d, m⟩ ∧ (∀ v, v < KERNPAGE → pageAt d v = none) ∧
        Rows (kmap m₀.layout) d := by
  unfold setupkvm
  cases taken : kalloc m₀ with
  | none => exact ⟨none, m₀, rfl, fun _ => ⟨.refl _, fun _ _ => rfl⟩, by simp⟩
  | some r =>
    obtain ⟨x, m⟩ := r
    obtain ⟨list, fields⟩ := kalloc_eq_some taken
    have layout : m.layout = m₀.layout := by rw [fields]
    have upper := kmap_upper linked
    have low := kmap_low linked
    have start : Budget m₀ [] ⟨⟨x, fun _ => none⟩, m.fill x 0⟩ := by
      refine ⟨layout, ?_, fun y other => ?_⟩
      · have none_ : pagesIn ⟨x, fun _ => none⟩ 0 KERNPAGE = [] :=
          filterMap_eq_nil_iff.mpr fun _ _ => rfl
        simp [owned, none_, tablePages, list, Mem.fill, Mem.setPage]
      · have ne : y ≠ x := fun same => other (list ▸ same ▸ mem_cons_self)
        rw [fields]
        exact Function.update_of_ne ne _ _
    dsimp only
    rw [if_neg (by decide), layout]
    obtain ⟨done, s, ran⟩ := mapKernel_returns upper low (kmap_ordered linked)
      (s := ⟨⟨x, fun _ => none⟩, m.fill x 0⟩) fun _ _ _ _ _ => rfl
    obtain ⟨budget, empty⟩ := mapKernel_keeps
      (P := fun s => Budget m₀ [] s ∧ ∀ v, v < KERNPAGE → pageAt s.dir v = none) upper
      (fun perm v x s t kernel inV kept walked _ => by
        refine ⟨kept.1.mapKernel kernel inV walked _, fun u inU => ?_⟩
        rw [pageAt_map walked (by omega) inV rfl, if_neg (by omega)]
        exact kept.2 u inU) ⟨start, fun _ _ => rfl⟩ ran
    rw [ran, ok_bind]
    cases done with
    | false =>
      obtain ⟨m', freed, back⟩ := budget.freevm fine
      refine ⟨none, m', ?_, fun _ => back, by simp⟩
      simp only [freed, Bool.false_eq_true, if_false, ok_bind]
      rfl
    | true =>
      refine ⟨some s.dir, s.mem, rfl, by simp, fun d same => ?_⟩
      cases same
      exact ⟨budget, empty, mapKernel_rows upper low ran⟩

/-- Page `u` of `src` has been copied: the same bytes under the same permissions. -/
def Copied (src : PgDir) (m : Mem) (s : Space) (u : Nat) : Prop :=
  ∃ p x, walkpgdir src u = some p ∧ entryAt s.dir u = some ⟨x, true, p.w, p.u⟩ ∧
    s.mem.bytes x = m.bytes p.ppn

/-- From any point on: the loop returns, keeps to its budget and writes free pages only; if it comes to
the end, the pages are copied. -/
theorem copyLoop_copies {src : PgDir} (nodup : m₀.free.Nodup)
    (apart : ∀ u y, u < KERNPAGE → pageAt src u = some y → y ∉ m₀.free) (last : v + n ≤ KERNPAGE)
    (there : ∀ u, v ≤ u → u < v + n → pageAt src u ≠ none)
    (absent : ∀ u, v ≤ u → u < v + n → pageAt s.dir u = none) (budget : Budget m₀ [] s) :
    ∃ copied s', copyLoop src n v s = .ok (copied, s') ∧ Budget m₀ [] s' ∧
      (∀ y, y ∉ s.mem.free → s'.mem.bytes y = s.mem.bytes y) ∧
      (copied = true → ∀ u, u < VPAGES →
        if v ≤ u ∧ u < v + n then Copied src m₀ s' u else entryAt s'.dir u = entryAt s.dir u) := by
  induction n generalizing v s with
  | zero => exact ⟨true, s, rfl, budget, fun _ _ => rfl, fun _ u _ => by rw [if_neg (by omega)]⟩
  | succ n ih =>
    have small := kernpage_le_vpages
    obtain ⟨y, found⟩ := Option.ne_none_iff_exists'.mp (there v le_rfl (by omega))
    have source := apart v y (by omega) found
    obtain ⟨pte, entry, present, rfl⟩ := pageAt_eq_some found
    rw [copyLoop, entry]
    dsimp only
    rw [if_pos present]
    cases taken : kalloc s.mem with
    | none => exact ⟨false, s, rfl, budget, fun _ _ => rfl, by simp⟩
    | some r =>
      obtain ⟨x, m⟩ := r
      obtain ⟨list, fields⟩ := kalloc_eq_some taken
      have once : x ∉ m.free := by
        have all := (budget.pages.nodup_iff.mpr nodup).of_append_right.of_append_right
        rw [list] at all
        exact (nodup_cons.mp all).1
      have held := budget.kalloc taken (m.bytes pte.ppn)
      have first := absent v le_rfl (by omega)
      have frame : ∀ z, z ∉ s.mem.free → (m.setPage x (m.bytes pte.ppn)).bytes z = s.mem.bytes z := by
        intro z other
        have ne : z ≠ x := fun same => other (list ▸ same ▸ mem_cons_self)
        rw [fields]
        exact Function.update_of_ne ne _ _
      dsimp only
      rw [mappages_one (by omega)]
      cases walked : walkpgdirAlloc v ⟨s.dir, m.setPage x (m.bytes pte.ppn)⟩ with
      | none =>
        obtain ⟨m', given, back⟩ := held.kfree fine
        refine ⟨false, ⟨s.dir, m'⟩, ?_, back, fun z other => ?_, by simp⟩
        · rw [mapLoop, walked, ok_bind]
          simp only [given, Bool.false_eq_true, if_false, ok_bind]
          rfl
        · have ne : z ≠ x := fun same => other (list ▸ same ▸ mem_cons_self)
          exact (kfree_bytes given ne).trans (frame z other)
      | some t =>
        have table := walkpgdirAlloc_cleared walked
        have untouched : ∀ z, z ∉ m.free → t.mem.bytes z = (m.setPage x (m.bytes pte.ppn)).bytes z :=
          fun z other => (table.bytes z).resolve_right fun zeroed => other zeroed.1
        rw [mapOne_ok (s := ⟨s.dir, m.setPage x (m.bytes pte.ppn)⟩) x _ first walked, ok_bind]
        obtain ⟨copied, s', ran, budget', bytes, done⟩ := ih (v := v + 1) (by omega)
          (fun u above below => there u (by omega) (by omega))
          (fun u above below => by
            rw [pageAt_map walked (by omega) (by omega) rfl, if_neg (by omega)]
            exact absent u (by omega) (by omega))
          (held.map (by omega) walked first pte.w pte.u)
        have later : ∀ z, z ∉ m.free →
            s'.mem.bytes z = (m.setPage x (m.bytes pte.ppn)).bytes z := fun z other =>
          (bytes z fun inside => other (table.free z inside)).trans (untouched z other)
        refine ⟨copied, s', ran, budget', fun z other => ?_, fun isCopied u inU => ?_⟩
        · refine (later z fun inside => other ?_).trans (frame z other)
          rw [list]
          exact mem_cons_of_mem x inside
        · have after := done isCopied u inU
          rw [entryAt_map walked inU (by omega) rfl] at after
          by_cases here : u = v
          · subst here
            rw [if_neg (by omega), if_pos rfl] at after
            rw [if_pos (by omega)]
            refine ⟨pte, x, entry, after, ?_⟩
            rw [later x once, ← budget.bytes _ source, fields]
            exact Function.update_self _ _ _
          · rw [if_neg here] at after
            have same : (v ≤ u ∧ u < v + (n + 1)) ↔ (v + 1 ≤ u ∧ u < v + 1 + n) := by omega
            simpa only [same] using after

end Usable

/-- With pages for the copies and for all the missing tables, the copy is complete. -/
theorem copyLoop_ample {src : PgDir} {s' : Space} {copied : Bool} (last : v + n ≤ VPAGES)
    (ample : Ample n s) (ran : copyLoop src n v s = .ok (copied, s')) : copied = true := by
  induction n generalizing v s with
  | zero =>
    cases ran
    rfl
  | succ n ih =>
    rw [copyLoop] at ran
    split at ran
    · cases ran
    · split at ran
      · cases list : s.mem.free with
        | nil => simp [Ample, list] at ample
        | cons x rest =>
          rw [kalloc_cons list] at ran
          obtain ⟨⟨mapped, t⟩, mapping, ran⟩ := bind_eq_ok ran
          obtain ⟨rfl, left⟩ := mapLoop_ample (c := n) (by
            simp only [Ample, list, length_cons] at ample
            exact Nat.le_of_succ_le_succ ample) mapping
          exact ih (by omega) left ran
      · cases ran

/-- **`fork` copies memory.** -/
theorem copyuvm_copies {src : PgDir} {sz : Nat} (m : Mem) (linked : m.layout.Ok) (bound : sz ≤ KERNBASE)
    (full : Full sz src) (nodup : m.free.Nodup) (usable : ∀ x ∈ m.free, Usable m.layout x)
    (apart : ∀ x ∈ owned src, x ∉ m.free) :
    ∃ made m', copyuvm src sz m = .ok (made, m') ∧ (∀ y, y ∉ m.free → m'.bytes y = m.bytes y) ∧
      (made = none → m'.free.Perm m.free ∧ m.free.length < NPDENTRIES + 1 + pages sz) ∧
      ∀ d, made = some d → (∀ u, u < pages sz → Copied src m ⟨d, m'⟩ u) ∧
        (pagesIn d 0 (pages sz)).Nodup ∧ (∀ x ∈ pagesIn d 0 (pages sz), x ∉ owned src) ∧
        Rows (kmap m.layout) d := by
  have small := kernpage_le_vpages
  have inHalf := pages_le_kernpage bound
  have fine : ∀ x ∈ m.free, x ≠ 0 ∧ Usable m.layout x := fun x inside =>
    ⟨(usable x inside).ne_zero linked, usable x inside⟩
  obtain ⟨made, m₁, setup, failed, built⟩ := setupkvm_budget fine linked
  rw [copyuvm, setup, ok_bind]
  cases made with
  | none =>
    refine ⟨none, m₁, rfl, (failed rfl).2, fun _ => ⟨(failed rfl).1, ?_⟩, by simp⟩
    by_contra! plenty
    obtain ⟨d, m', made, -⟩ := setupkvm_ample linked plenty
    cases setup.symm.trans made
  | some d =>
    obtain ⟨budget, empty, rows⟩ := built d rfl
    obtain ⟨copied, s, ran, budget, -, done⟩ := copyLoop_copies (v := 0) (n := pages sz) fine nodup
      (fun u y inU found => apart y (mem_append_left _ (mem_append_left _
        (mem_pagesIn.mpr ⟨u, Nat.zero_le u, by omega, found⟩)))) (by omega)
      (fun u _ below => full u (by omega)) (fun u _ below => empty u (by omega)) budget
    dsimp only
    rw [ran, ok_bind]
    cases copied with
    | false =>
      obtain ⟨m', freed, back, bytes⟩ := budget.freevm fine
      refine ⟨none, m', ?_, bytes, fun _ => ⟨back, ?_⟩, by simp⟩
      · simp only [freed, Bool.false_eq_true, if_false, ok_bind]
        rfl
      · by_contra! plenty
        obtain ⟨d', m₂, made, ample⟩ := setupkvm_ample linked plenty
        cases setup.symm.trans made
        cases copyLoop_ample (by omega) ample ran
    | true =>
      have part : (pagesIn s.dir 0 (pages sz)).Sublist (owned s.dir) := by
        refine List.Sublist.trans ?_
          ((sublist_append_left (pagesIn s.dir 0 KERNPAGE) _).trans (sublist_append_left _ _))
        exact (range'_sublist_right.mpr inHalf).filterMap _
      have all := budget.pages.nodup_iff.mpr nodup
      refine ⟨some s.dir, s.mem, rfl, budget.bytes, by simp, fun d same => ?_⟩
      cases same
      refine ⟨fun u below => ?_, all.of_append_right.of_append_left.sublist part,
        fun x inside parent => ?_, fun k inside i inI => ?_⟩
      · have page := done rfl u (by omega)
        rwa [if_pos ⟨Nat.zero_le u, by omega⟩] at page
      · exact apart x parent (budget.pages.mem_iff.mp
          (mem_append_right _ (mem_append_left _ (part.subset inside))))
      · have upper := kmap_upper linked k inside
        have kernel := upper.kernel
        have last := upper.last
        have page := done rfl (k.virt / PGSIZE + i) (by omega)
        rw [if_neg (by omega)] at page
        exact page.trans (rows k inside i inI)

/-- A process of two pages, with the memory of a machine that has just started: the copy is made. -/
theorem copyuvm_copies_threePages : Full (2 * PGSIZE) threePages.dir ∧
    ∃ d m', copyuvm threePages.dir (2 * PGSIZE) bootMem = .ok (some d, m') ∧
      Copied threePages.dir bootMem ⟨d, m'⟩ 1 := by
  have booted := bootMem_booted
  have full : Full (2 * PGSIZE) threePages.dir := fun v inside => by
    have : v = 0 ∨ v = 1 := by
      have : v < 2 := inside
      omega
    rcases this with rfl | rfl
    · decide
    · decide
  obtain ⟨made, m', ran, -, failed, built⟩ := copyuvm_copies bootMem booted.linked (by decide) full
    booted.nodup booted.range fun x inside free => by
      have high := (mem_range'_1.mp free).1
      have low := threePages_owned x inside
      omega
  cases made with
  | none =>
    have few := (failed rfl).2
    rw [bootMem, length_range'] at few
    exact absurd few (by decide)
  | some d => exact ⟨full, d, m', ran, (built d rfl).1 1 (by decide)⟩

end Xv6.Vm
