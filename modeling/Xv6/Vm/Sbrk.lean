/-
# Xv6.Vm.Sbrk -- what growproc does to the size, the pages and their contents

Growing goes right for every size: `allocuvm` either adds zeroed pages up to the new size (`Grown`) or,
out of memory, takes everything back. Shrinking is another matter. `growproc` reads the result 0 of
`deallocuvm` as a failure, although it is the size that was asked for when everything is given back;
and a request below 0 wraps around, `deallocuvm` then sees nothing to do and the call succeeds. Between
the two, pages are freed without asking who else maps them, which shared memory does (`SbrkSafe`).
-/
import Xv6.Vm.Returns
import Xv6.Vm.Safety

namespace Xv6.Vm
open Lib
set_option autoImplicit false

/-- The size is now `sz' = sz + n`, and so are the pages. -/
structure Exact (sz : Nat) (n : Int) (s : Space) (sz' : Nat) (s' : Space) : Prop where
  size : (sz' : Int) = sz + n
  bound : sz' < KERNBASE
  mapped : Exactly sz' s'.dir
  /-- the new pages are zeroed -/
  fresh : ∀ v x, pages sz ≤ v → v < pages sz' → pageAt s'.dir v = some x →
    ∀ j, s'.mem.bytes x j = 0
  /-- the others are where they were, still allocated, with the bytes they had -/
  entries : ∀ v, v < pages sz → v < pages sz' → entryAt s'.dir v = entryAt s.dir v
  kept : ∀ v x, v < pages sz → v < pages sz' → pageAt s'.dir v = some x →
    x ∉ s'.mem.free ∧ s'.mem.bytes x = s.mem.bytes x

/-- The mappings are as before, and no page is gone but for page tables. -/
structure NoOp (s s' : Space) : Prop where
  entries : ∀ v, v < KERNPAGE → entryAt s'.dir v = entryAt s.dir v
  returned : ∀ y ∈ s.mem.free, y ∈ s'.mem.free ∨ TablePage s'.dir y

/-- What `sbrk` promises of process `i`, whose address space is `s`. -/
def SbrkLaw (k : Kernel) (i : Slot) (n : Int) (s : Space) : Prop :=
  ∃ r k' d, growproc k i n = .ok (r, k') ∧ (k'.procs i).pgdir = some d ∧
    (r = 0 ∧ Exact (k.procs i).sz n s (k'.procs i).sz ⟨d, k'.mem⟩ ∨
      r = -1 ∧ (k'.procs i).sz = (k.procs i).sz ∧ NoOp s ⟨d, k'.mem⟩)

/-- A process that shrinks keeps at least one byte, and the pages it gives up are pages of `kalloc`'s
that it does not map a second time below its new size. A process of size 0 has nothing to lose. -/
def SbrkSafe (sz : Nat) (n : Int) (s : Space) : Prop :=
  n < 0 → sz = 0 ∨ 0 < sz + n ∧ ∀ u x, pages (sz + n).toNat ≤ u → u < pages sz →
    pageAt s.dir u = some x → Usable s.mem.layout x ∧ ∀ v, v < pages (sz + n).toNat →
      pageAt s.dir v ≠ some x

/-- The allocator's part: what is free is its own, and nothing that is mapped is free. -/
structure Fit (s : Space) : Prop where
  linked : s.mem.layout.Ok
  free : ∀ x ∈ s.mem.free, Usable s.mem.layout x
  apart : ∀ v x, v < KERNPAGE → pageAt s.dir v = some x → x ∉ s.mem.free

/-! ## Growing -/

section Growing

variable {s s' : Space}

theorem Grown.exact {sz sz' : Nat} {n : Int} (fit : Fit s) (mapped : Exactly sz s.dir)
    (size : (sz' : Int) = sz + n) (bound : sz' < KERNBASE) (more : sz ≤ sz')
    (grown : Grown (pages sz) (pages sz' - pages sz) s s') : Exact sz n s sz' s' := by
  have small := kernpage_le_vpages
  have inHalf := pages_le_kernpage bound.le
  refine ⟨size, bound, grown.exactly mapped more, fun v x above below found j => ?_,
    fun v below _ => grown.outside v (by omega) (.inl below), fun v x below later found => ?_⟩
  · obtain ⟨x', entry, zero⟩ := grown.fresh v above (by omega)
    rw [pageAt_eq_map, entry] at found
    cases found
    rw [zero]
  · rw [grown.page (by omega) (.inl below)] at found
    have notFree := fit.apart v x (by omega) found
    refine ⟨fun inside => notFree (grown.cleared.free x inside), ?_⟩
    exact (grown.cleared.bytes x).resolve_right fun zero => notFree zero.1

theorem Fit.backed {lo : Nat} (fit : Fit s)
    (above : ∀ v, lo ≤ v → v < KERNPAGE → pageAt s.dir v = none) :
    Backed s.mem.layout lo (· ∈ s.mem.free) s := by
  refine ⟨rfl, fit.linked, fit.free, fun v x low high found => ?_, fun y inside => .inl inside⟩
  rw [above v low high] at found
  cases found

/-- `allocuvm` returns; it grows the image as asked, or fails and leaves nothing behind. -/
theorem allocuvm_exact {sz : Nat} {n : Int} (fit : Fit s) (bound : sz < KERNBASE)
    (mapped : Exactly sz s.dir) (more : 0 < n) (high : n < 2 ^ 31) :
    ∃ r s', allocuvm sz (addSigned sz n) s = .ok (r, s') ∧
      (r ≠ 0 ∧ Exact sz n s r s' ∨ r = 0 ∧ NoOp s s') := by
  have absent := mapped.above
  obtain ⟨r, s', ran, backed⟩ := allocuvm_backed (addSigned sz n) (fit.backed absent) le_rfl
    bound.le absent
  refine ⟨r, s', ran, ?_⟩
  have small := kernpage_le_vpages
  by_cases failed : r = 0
  · subst failed
    have entries : ∀ v, v < KERNPAGE → entryAt s'.dir v = entryAt s.dir v := by
      intro v inV
      rcases allocuvm_failed ran (inV.trans_le small) with same | ⟨above, -, none'⟩
      · exact same
      · rw [none', entryAt_eq_none.mpr (absent v above inV)]
    refine .inr ⟨rfl, entries, fun y inside => ?_⟩
    rcases backed.all y inside with stillFree | isTable | ⟨v, above, inV, found⟩
    · exact .inl stillFree
    · exact .inr isTable
    · rw [pageAt_eq_map, entries v inV, ← pageAt_eq_map, absent v above inV] at found
      cases found
  · -- the sum does not wrap
    have sum : (addSigned sz n : Int) = sz + n := by
      simp only [addSigned, KERNBASE] at *
      omega
    obtain ⟨low, rfl, grown⟩ := allocuvm_grown bound.le ran failed
    refine .inl ⟨failed, grown.exact fit mapped ?_ ?_ ?_⟩ <;> omega

end Growing

/-! ## Shrinking -/

section Shrinking

variable {s s' : Space} {sz newsz : Nat} {n : Int}

/-- Pages above `newsz` were dropped. That is exact unless a kept page is among those freed. -/
theorem dropped_exact_iff (fit : Fit s) (bound : sz < KERNBASE) (mapped : Exactly sz s.dir)
    (size : (newsz : Int) = sz + n) (less : newsz < sz) (dropped : Dropped sz (pages newsz) s s') :
    Exact sz n s newsz s' ↔ ∀ u x, pages newsz ≤ u → u < pages sz → pageAt s.dir u = some x →
      ∀ v, v < pages newsz → pageAt s.dir v ≠ some x := by
  have small := kernpage_le_vpages
  have inHalf := pages_le_kernpage bound.le
  have first := pages_mono less.le
  have below : ∀ v, v < pages newsz → pageAt s'.dir v = pageAt s.dir v := by
    intro v inV
    rw [dropped.pageAt (by omega), if_neg (by omega)]
  constructor
  · intro exact' u x above inU found v inV found'
    refine (exact'.kept v x (by omega) inV ((below v inV).trans found')).1 ?_
    exact (dropped.free x).mpr (.inr ⟨u, above, inU, found⟩)
  · intro once
    have alone : ∀ v x, v < pages newsz → pageAt s.dir v = some x →
        ∀ u, pages newsz ≤ u → u < pages sz → pageAt s.dir u ≠ some x :=
      fun v x inV found u above inU found' => once u x above inU found' v inV found
    refine ⟨size, by omega, fun v inV => ?_, fun v x above inV => by omega, fun v _ inV => ?_,
      fun v x _ inV found => ?_⟩
    · rw [dropped.pageAt (by omega)]
      split
      · simp only [ne_eq, not_true_eq_false, false_iff]
        omega
      · rw [mapped v inV]
        omega
    · rw [dropped.entries v (by omega), if_neg (by omega)]
    · rw [below v inV] at found
      refine ⟨fun inside => ?_, dropped.bytes x (alone v x inV found)⟩
      rcases (dropped.free x).mp inside with stillFree | ⟨u, above, inU, found'⟩
      · exact fit.apart v x (by omega) found stillFree
      · exact alone v x inV found u above inU found'

/-- Everything was dropped: that is not nothing. -/
theorem Dropped.not_noOp (bound : sz < KERNBASE) (mapped : Exactly sz s.dir) (some_ : 0 < sz)
    (dropped : Dropped sz (pages 0) s s') : ¬NoOp s s' := by
  have first : 0 < pages sz := by
    simp only [pages, PGSIZE]
    omega
  have inHalf := pages_le_kernpage bound.le
  intro noOp
  have gone := noOp.entries 0 (by decide)
  rw [dropped.entries 0 (by decide), if_pos ⟨Nat.zero_le _, first⟩] at gone
  exact (mapped 0 (by decide)).mpr first (entryAt_eq_none.mp gone.symm)

end Shrinking

/-! ## growproc -/

section Growproc

variable {k : Kernel} {i : Slot} {n : Int} {d : PgDir}

/-- The law, over what `allocuvm` or `deallocuvm` returns. -/
theorem sbrkLaw_iff (hasDir : (k.procs i).pgdir = some d) :
    SbrkLaw k i n ⟨d, k.mem⟩ ↔ ∃ r s', resize (k.procs i).sz n ⟨d, k.mem⟩ = .ok (r, s') ∧
      (¬(n ≠ 0 ∧ r = 0) ∧ Exact (k.procs i).sz n ⟨d, k.mem⟩ r s' ∨
        (n ≠ 0 ∧ r = 0) ∧ NoOp ⟨d, k.mem⟩ s') := by
  have unfolded := growproc_eq hasDir n
  constructor
  · rintro ⟨r, k', d', ran, hasDir', law⟩
    obtain ⟨⟨newsz, s'⟩, resized, rest⟩ := bind_eq_ok (unfolded.symm.trans ran)
    refine ⟨newsz, s', resized, ?_⟩
    split at rest
    · rename_i zero
      cases rest
      simp only [Kernel.setSpace, Kernel.setProc, Function.update_self, Option.some.injEq] at hasDir' law
      subst hasDir'
      rcases law with ⟨bad, -⟩ | ⟨-, -, noOp⟩
      · cases bad
      · exact .inr ⟨zero, noOp⟩
    · rename_i nonzero
      cases rest
      simp only [Kernel.setSpace, Kernel.setProc, Function.update_self, Option.some.injEq] at hasDir' law
      subst hasDir'
      rcases law with ⟨-, exact'⟩ | ⟨bad, -⟩
      · exact .inl ⟨nonzero, exact'⟩
      · cases bad
  · rintro ⟨newsz, s', resized, law⟩
    rw [resized, ok_bind] at unfolded
    rcases law with ⟨nonzero, exact'⟩ | ⟨zero, noOp⟩
    · refine ⟨0, _, s'.dir, unfolded.trans (if_neg nonzero), ?_, .inl ⟨rfl, ?_⟩⟩
      · simp [Kernel.setSpace, Kernel.setProc]
      · simpa [Kernel.setSpace, Kernel.setProc] using exact'
    · refine ⟨-1, _, s'.dir, unfolded.trans (if_pos zero), ?_, .inr ⟨rfl, ?_, ?_⟩⟩
      · simp [Kernel.setSpace, Kernel.setProc]
      · simp [Kernel.setSpace, Kernel.setProc]
      · simpa [Kernel.setSpace, Kernel.setProc] using noOp

/-- A request that does not shrink is met, or refused without a trace. -/
theorem sbrkLaw_grow (hasDir : (k.procs i).pgdir = some d) (bound : (k.procs i).sz < KERNBASE)
    (mapped : Exactly (k.procs i).sz d) (fit : Fit ⟨d, k.mem⟩) (more : 0 ≤ n) (high : n < 2 ^ 31) :
    SbrkLaw k i n ⟨d, k.mem⟩ := by
  rw [sbrkLaw_iff hasDir]
  rcases more.eq_or_lt with rfl | more
  · refine ⟨_, _, rfl, .inl ⟨by simp, by simp, bound, mapped, fun v x above below => by omega,
      fun _ _ _ => rfl, fun v x below _ found => ⟨fit.apart v x ?_ found, rfl⟩⟩⟩
    exact below.trans_le (pages_le_kernpage bound.le)
  · obtain ⟨r, s', ran, cases'⟩ := allocuvm_exact fit bound mapped more high
    refine ⟨r, s', by rw [resize, if_pos more, ran], ?_⟩
    rcases cases' with ⟨nonzero, exact'⟩ | ⟨zero, noOp⟩
    · exact .inl ⟨fun both => nonzero both.2, exact'⟩
    · exact .inr ⟨⟨more.ne', zero⟩, noOp⟩

theorem sbrkLaw_shrink_iff (hasDir : (k.procs i).pgdir = some d) (bound : (k.procs i).sz < KERNBASE)
    (mapped : Exactly (k.procs i).sz d) (fit : Fit ⟨d, k.mem⟩) (less : n < 0) (low : -2 ^ 31 ≤ n) :
    SbrkLaw k i n ⟨d, k.mem⟩ ↔ SbrkSafe (k.procs i).sz n ⟨d, k.mem⟩ := by
  rw [sbrkLaw_iff hasDir, resize, if_neg (by omega), if_pos less]
  generalize (k.procs i).sz = sz at *
  simp only [SbrkSafe, less, true_implies]
  by_cases wraps : sz + n < 0
  · -- `sz + n` is above `sz` as a `uint`, so there is nothing to do
    have above : sz ≤ addSigned sz n := by
      simp only [addSigned, KERNBASE] at *
      omega
    rw [deallocuvm, if_pos above]
    constructor
    · rintro ⟨r, s', ran, ⟨-, exact'⟩ | ⟨⟨-, rfl⟩, -⟩⟩
      · have size := exact'.size
        omega
      · cases ran
        exact .inl rfl
    · rintro (rfl | ⟨more, -⟩)
      · exact ⟨0, _, rfl, .inr ⟨⟨less.ne, rfl⟩, fun _ _ => rfl, fun y inside => .inl inside⟩⟩
      · omega
  have sum : (addSigned sz n : Int) = sz + n := by
    simp only [addSigned, KERNBASE] at *
    omega
  have new : (sz + n).toNat = addSigned sz n := by omega
  have shrinks : addSigned sz n < sz := by omega
  rw [new]
  constructor
  · rintro ⟨r, s', ran, law⟩
    obtain ⟨rfl, dropped⟩ := deallocuvm_dropped bound.le shrinks ran
    right
    rcases law with ⟨nonzero, exact'⟩ | ⟨⟨-, zero⟩, noOp⟩
    · have once := (dropped_exact_iff fit bound mapped sum shrinks dropped).mp exact'
      refine ⟨?_, fun u x above below found => ⟨dropped.usable u x above below found,
        once u x above below found⟩⟩
      by_contra
      exact nonzero ⟨less.ne, by omega⟩
    · rw [zero] at dropped
      exact absurd noOp (dropped.not_noOp bound mapped (by omega))
  · rintro (zero | ⟨more, once⟩)
    · omega
    obtain ⟨s', ran⟩ := deallocuvm_ok (s := ⟨d, k.mem⟩) bound.le shrinks fit.linked
      fun u x above below found => (once u x above below found).1
    have dropped := (deallocuvm_dropped bound.le shrinks ran).2
    refine ⟨_, s', ran, .inl ⟨fun both => by omega, ?_⟩⟩
    exact (dropped_exact_iff fit bound mapped sum shrinks dropped).mpr fun u x above below found =>
      (once u x above below found).2

/-- `growproc` is exact or does nothing, just when the request does not give up the whole image, or
more, nor a page that is not the process's to give. -/
theorem growproc_exact_or_noOp_iff (hasDir : (k.procs i).pgdir = some d)
    (bound : (k.procs i).sz < KERNBASE) (mapped : Exactly (k.procs i).sz d) (fit : Fit ⟨d, k.mem⟩)
    (low : -2 ^ 31 ≤ n) (high : n < 2 ^ 31) :
    SbrkLaw k i n ⟨d, k.mem⟩ ↔ SbrkSafe (k.procs i).sz n ⟨d, k.mem⟩ := by
  rcases Int.lt_or_le n 0 with less | more
  · exact sbrkLaw_shrink_iff hasDir bound mapped fit less low
  · refine ⟨fun _ less => ?_, fun _ => sbrkLaw_grow hasDir bound mapped fit more high⟩
    exact absurd less (by omega)

/-- The first process is as the law wants it. -/
theorem First.space {k : Kernel} (first : First k) : ∃ d, (k.procs 0).pgdir = some d ∧
    Exactly (k.procs 0).sz d ∧ Fit ⟨d, k.mem⟩ := by
  obtain ⟨state, size, -⟩ := first.first
  have used : (k.procs 0).state ≠ .UNUSED := by simp [state]
  obtain ⟨d, hasDir⟩ := Option.ne_none_iff_exists'.mp ((first.inv.procs 0).used used)
  have sized := (first.inv.procs 0).sized d hasDir
  refine ⟨d, hasDir, fun v inV => ⟨fun present => ?_, first.full 0 d hasDir v⟩,
    first.inv.sound.linked, first.range, fun v x inV found => ?_⟩
  · by_contra above
    exact present (sized.above v (by omega) inV)
  · refine first.inv.pageSafe.mapped 0 v x ?_
    rw [Kernel.page, if_pos inV, hasDir]
    exact found

end Growproc

/-- The first process asks for a page. -/
theorem growproc_exact_first : ∃ k d, Start k ∧ (k.procs 0).pgdir = some d ∧
    SbrkLaw k 0 4096 ⟨d, k.mem⟩ := by
  obtain ⟨k, start, first⟩ := exists_first
  obtain ⟨d, hasDir, mapped, fit⟩ := first.space
  have bound : (k.procs 0).sz < KERNBASE := by
    rw [first.first.2.1]
    decide
  refine ⟨k, d, start, hasDir, ?_⟩
  refine (growproc_exact_or_noOp_iff hasDir bound mapped fit (by decide) (by decide)).mpr ?_
  intro less
  exact absurd less (by decide)

/-- The first process gives back its only page: it is freed, and the call fails. -/
theorem growproc_gives_all : ∃ k d, Start k ∧ (k.procs 0).pgdir = some d ∧ (k.procs 0).sz = 4096 ∧
    Exactly (k.procs 0).sz d ∧ Fit ⟨d, k.mem⟩ ∧ ¬SbrkLaw k 0 (-4096) ⟨d, k.mem⟩ := by
  obtain ⟨k, start, first⟩ := exists_first
  obtain ⟨d, hasDir, mapped, fit⟩ := first.space
  have size : (k.procs 0).sz = 4096 := first.first.2.1
  have bound : (k.procs 0).sz < KERNBASE := by
    rw [size]
    decide
  refine ⟨k, d, start, hasDir, size, mapped, fit, fun law => ?_⟩
  rw [sbrkLaw_shrink_iff hasDir bound mapped fit (by decide) (by decide), size] at law
  rcases law (by decide) with zero | ⟨more, -⟩
  · exact absurd zero (by decide)
  · exact absurd more (by decide)

end Xv6.Vm
