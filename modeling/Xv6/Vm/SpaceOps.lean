/-
# Xv6.Vm.SpaceOps -- vm.c keeps the books

Each function of `vm.c` that works on an address space, from `deallocuvm` to `copyuvm`, keeps the
books sound and every mapping it is allowed to make or undo alone with its page. The lemmas also
say which virtual pages are mapped when a function returned successfully.
-/
import Xv6.Vm.Accounting
import Xv6.Vm.Ranges

namespace Xv6.Vm
open Lib
set_option autoImplicit false

variable {E : Env} {w : Who} {lo : Nat} {A : User → Prop} {base : Nat → Option Nat}
  {s s' : Space} {m m' : Mem} {v x : Nat}

/-! ## deallocuvm -/

variable {oldsz n newsz r u : Nat} {d : PgDir}

theorem deallocLoop_good (bound : oldsz ≤ KERNBASE) (above : lo ≤ v) (good : Good E w lo A base s)
    (ran : deallocLoop oldsz n v s = .ok s') : Good E w lo A base s' := by
  induction n generalizing v s with
  | zero =>
    cases ran
    exact good
  | succ n ih =>
    rw [deallocLoop] at ran
    split at ran
    · have inV : v < KERNPAGE := by
        simp only [KERNPAGE, KERNBASE, PGSIZE] at *
        omega
      split at ran
      · have forward := lt_skip inV
        exact ih (by omega) good ran
      · rename_i pte walked
        split at ran
        · rename_i present
          split at ran
          · cases ran
          · obtain ⟨m, freed, rest⟩ := bind_eq_ok ran
            have mapped : pageAt s.dir v = some pte.ppn := by
              simp [pageAt, walked, present]
            exact ih (by omega) (good.reap above inV mapped freed) rest
        · exact ih (by omega) good ran
    · cases ran
      exact good

theorem deallocuvm_good (bound : oldsz ≤ KERNBASE) (above : lo ≤ pgroundup newsz / PGSIZE)
    (good : Good E w lo A base s) (ran : deallocuvm oldsz newsz s = .ok (r, s')) :
    Good E w lo A base s' := by
  unfold deallocuvm at ran
  split at ran
  · cases ran
    exact good
  · obtain ⟨t, loop, rest⟩ := bind_eq_ok ran
    cases pure_eq_ok rest
    exact deallocLoop_good bound above good loop

/-! ## allocuvm -/

/-- Mapping the page in the hand: it is mapped, or it is still in the hand. -/
theorem mapOne_good {perm : Perm} {done : Bool} (above : lo ≤ v) (inV : v < KERNPAGE)
    (others : ∀ u, A u → u.1 ≠ w) (good : Good (E.withHand (some x)) w lo A base s)
    (ran : mappages (v * PGSIZE) PGSIZE (x * PGSIZE) perm s = .ok (done, s')) :
    (done = true ∧ Good (E.withHand none) w lo A base s' ∧
        ∀ u, u < VPAGES → pageAt s'.dir u = if u = v then some x else pageAt s.dir u) ∨
      (done = false ∧ Good (E.withHand (some x)) w lo A base s') := by
  have small := kernpage_le_vpages
  rw [mappages_one (inV.trans_le small)] at ran
  rcases mapOne_eq_ok ran with ⟨rfl, rfl, -⟩ | ⟨rfl, t, walked, -, rfl⟩
  · exact .inr ⟨rfl, good⟩
  · have there := walkpgdirAlloc_isSome walked
    refine .inl ⟨rfl, ?_, ?_⟩
    · refine (good.walkpgdirAlloc walked).mapHand above inV there ?_ perm
      intro u inA same
      exact others u inA (congrArg Prod.fst same)
    · exact fun u inU => pageAt_map walked inU (inV.trans_le small) rfl

theorem allocLoop_good (empty : E.hand = none) (others : ∀ u, A u → u.1 ≠ w)
    (start : lo ≤ pgroundup oldsz / PGSIZE) (bound : newsz ≤ KERNBASE) (above : lo ≤ v)
    (last : v + n ≤ KERNPAGE) (good : Good E w lo A base s)
    (ran : allocLoop oldsz newsz n v s = .ok (r, s')) : Good E w lo A base s' := by
  induction n generalizing v s with
  | zero =>
    cases ran
    exact good
  | succ n ih =>
    rw [allocLoop] at ran
    split at ran
    · obtain ⟨⟨r', t⟩, freed, rest⟩ := bind_eq_ok ran
      cases pure_eq_ok rest
      exact deallocuvm_good bound start good freed
    · rename_i y m taken
      have held := good.kalloc empty taken
      have zeroed : Good (E.withHand (some y)) w lo A base ⟨s.dir, m.fill y 0⟩ :=
        held.bytes rfl rfl rfl rfl
      obtain ⟨⟨done, t⟩, mapped, rest⟩ := bind_eq_ok ran
      rcases mapOne_good above (by omega) others zeroed mapped with
        ⟨rfl, mappedGood, -⟩ | ⟨rfl, stillHeld⟩
      · rw [Env.withHand_self none empty] at mappedGood
        exact ih (by omega) (by omega) mappedGood rest
      · obtain ⟨⟨r', t'⟩, freed, rest⟩ := bind_eq_ok rest
        obtain ⟨m', given, rest⟩ := bind_eq_ok rest
        cases pure_eq_ok rest
        have torn := deallocuvm_good bound start stillHeld freed
        have back := torn.giveHand given
        rwa [Env.withHand_self none empty] at back

/-- Below `KERNBASE` rounding up does not wrap. -/
theorem allocuvm_good (empty : E.hand = none) (others : ∀ u, A u → u.1 ≠ w)
    (start : lo ≤ pages oldsz) (good : Good E w lo A base s)
    (ran : allocuvm oldsz newsz s = .ok (r, s')) : Good E w lo A base s' := by
  unfold allocuvm at ran
  split at ran
  · cases ran
    exact good
  split at ran
  · cases ran
    exact good
  · have bound : newsz < KERNBASE := by omega
    have round := pgroundup_div (show oldsz ≤ KERNBASE by omega)
    have first := pages_mono (show oldsz ≤ newsz by omega)
    have last := pages_le_kernpage bound.le
    simp only [round] at ran
    exact allocLoop_good empty others (round ▸ start) bound.le start (by omega) good ran

/-! ### What was mapped -/

/-- The user pages that `d` maps are those below `sz`. -/
def Exactly (sz : Nat) (d : PgDir) : Prop := ∀ v, v < KERNPAGE → (pageAt d v ≠ none ↔ v < pages sz)

/-- `n` zeroed pages were mapped from `v` on. -/
structure Grown (v n : Nat) (s s' : Space) : Prop where
  cleared : Cleared s.mem s'.mem
  outside : ∀ u, u < VPAGES → u < v ∨ v + n ≤ u → entryAt s'.dir u = entryAt s.dir u
  fresh : ∀ u, v ≤ u → u < v + n → ∃ x, entryAt s'.dir u = some ⟨x, true, userPerm.w, userPerm.u⟩ ∧
    s'.mem.bytes x = fun _ => 0

section Growing

variable {t : Space} {n : Nat}

/-- One page, and then the rest. -/
theorem Grown.cons (inV : v < VPAGES) (taken : kalloc s.mem = some (x, m))
    (walked : walkpgdirAlloc v ⟨s.dir, m.fill x 0⟩ = some t)
    (rest : Grown (v + 1) n (t.store v ⟨x, true, userPerm.w, userPerm.u⟩) s') :
    Grown v (n + 1) s s' := by
  have before : ∀ u, u < VPAGES → u < v + 1 ∨ v + 1 + n ≤ u → entryAt s'.dir u =
      if u = v then some ⟨x, true, userPerm.w, userPerm.u⟩ else entryAt s.dir u := by
    intro u inU side
    rw [rest.outside u inU side, entryAt_map walked inU inV rfl]
  have zeroed := walkpgdirAlloc_cleared walked
  refine ⟨((kalloc_cleared taken).trans zeroed).trans rest.cleared, fun u inU side => ?_,
    fun u above below => ?_⟩
  · rw [before u inU (by omega), if_neg (by omega)]
  · by_cases first : u = v
    · subst first
      refine ⟨x, by rw [before u inV (by omega), if_pos rfl], rest.cleared.zero (zeroed.zero ?_)⟩
      simp [Mem.fill, Mem.setPage]
    · exact rest.fresh u (by omega) (by omega)

theorem allocLoop_grown (last : v + n ≤ KERNPAGE) (ran : allocLoop oldsz newsz n v s = .ok (r, s'))
    (nonzero : r ≠ 0) : r = newsz ∧ Grown v n s s' := by
  induction n generalizing v s with
  | zero =>
    cases ran
    exact ⟨rfl, .refl _, fun _ _ _ => rfl, fun u above below => by omega⟩
  | succ n ih =>
    have small := kernpage_le_vpages
    rw [allocLoop] at ran
    split at ran
    · obtain ⟨⟨r', t⟩, -, rest⟩ := bind_eq_ok ran
      cases pure_eq_ok rest
      exact absurd rfl nonzero
    · rename_i x m taken
      obtain ⟨⟨done, t⟩, mapped, rest⟩ := bind_eq_ok ran
      rw [mappages_one (by omega)] at mapped
      rcases mapOne_eq_ok mapped with ⟨rfl, rfl, -⟩ | ⟨rfl, t', walked, -, rfl⟩
      · obtain ⟨⟨r', t⟩, -, rest⟩ := bind_eq_ok rest
        obtain ⟨m', -, rest⟩ := bind_eq_ok rest
        cases pure_eq_ok rest
        exact absurd rfl nonzero
      · obtain ⟨size, grown⟩ := ih (by omega) rest
        exact ⟨size, .cons (by omega) taken walked grown⟩

variable {sz : Nat}

/-- `allocuvm` goes up to the larger of the two sizes. -/
theorem allocuvm_grown (bound : sz ≤ KERNBASE) (ran : allocuvm sz newsz s = .ok (r, s'))
    (nonzero : r ≠ 0) :
    newsz < KERNBASE ∧ r = max sz newsz ∧ Grown (pages sz) (pages r - pages sz) s s' := by
  rw [allocuvm] at ran
  split at ran
  · cases ran
    exact absurd rfl nonzero
  split at ran
  · cases ran
    refine ⟨by omega, by omega, ?_⟩
    exact ⟨.refl _, fun _ _ _ => rfl, fun u above below => by omega⟩
  · have inHalf := pages_le_kernpage (show newsz ≤ KERNBASE by omega)
    have first := pages_le_kernpage bound
    simp only [pgroundup_div bound] at ran
    obtain ⟨rfl, grown⟩ := allocLoop_grown (by omega) ran nonzero
    exact ⟨by omega, by omega, grown⟩

theorem Grown.page (grown : Grown v n s s') (inU : u < VPAGES) (side : u < v ∨ v + n ≤ u) :
    pageAt s'.dir u = pageAt s.dir u := by
  rw [pageAt_eq_map, grown.outside u inU side, ← pageAt_eq_map]

theorem Grown.mapped (grown : Grown v n s s') (above : v ≤ u) (below : u < v + n) :
    pageAt s'.dir u ≠ none := by
  obtain ⟨x, found, -⟩ := grown.fresh u above below
  simp [pageAt_eq_map, found]

theorem Grown.exactly {sz' : Nat} (mapped : Exactly sz s.dir) (more : sz ≤ sz')
    (grown : Grown (pages sz) (pages sz' - pages sz) s s') : Exactly sz' s'.dir := by
  have small := kernpage_le_vpages
  have first := pages_mono more
  intro v inV
  by_cases new : pages sz ≤ v ∧ v < pages sz'
  · exact iff_of_true (grown.mapped new.1 (by omega)) new.2
  · rw [grown.page (by omega) (by omega), mapped v inV]
    omega

theorem Exactly.above (mapped : Exactly sz d) :
    ∀ v, pages sz ≤ v → v < KERNPAGE → pageAt d v = none := by
  intro v above inV
  by_contra present
  have := (mapped v inV).mp present
  omega

end Growing

/-! ## freevm -/

/-- What `deallocuvm` did from page `v` up to `oldsz`: the entries there are gone, their pages are free
and overwritten, and nothing else has changed. -/
structure Dropped (oldsz v : Nat) (s s' : Space) : Prop where
  layout : s'.mem.layout = s.mem.layout
  page : s'.dir.page = s.dir.page
  tabs : ∀ i, (s'.dir.tab i).map PageTable.page = (s.dir.tab i).map PageTable.page
  entries : ∀ u, u < VPAGES →
    entryAt s'.dir u = if v ≤ u ∧ u < pages oldsz then none else entryAt s.dir u
  usable : ∀ u x, v ≤ u → u < pages oldsz → pageAt s.dir u = some x → Usable s.mem.layout x
  free : ∀ y, y ∈ s'.mem.free ↔ y ∈ s.mem.free ∨
    ∃ u, v ≤ u ∧ u < pages oldsz ∧ pageAt s.dir u = some y
  bytes : ∀ y, (∀ u, v ≤ u → u < pages oldsz → pageAt s.dir u ≠ some y) →
    s'.mem.bytes y = s.mem.bytes y

section Dropped

variable {oldsz : Nat}

theorem Dropped.pageAt (dropped : Dropped oldsz v s s') (inU : u < VPAGES) :
    Vm.pageAt s'.dir u = if v ≤ u ∧ u < pages oldsz then none else Vm.pageAt s.dir u := by
  rw [pageAt_eq_map, dropped.entries u inU, pageAt_eq_map]
  split <;> rfl

theorem Reaped.dropped (reaped : Reaped v (pages oldsz - v) s s') : Dropped oldsz v s s' := by
  have inside : ∀ y, y ∈ pagesIn s.dir v (pages oldsz - v) ↔
      ∃ u, v ≤ u ∧ u < pages oldsz ∧ Vm.pageAt s.dir u = some y := by
    intro y
    rw [mem_pagesIn]
    refine exists_congr fun u => and_congr_right fun above => ?_
    rw [show u < v + (pages oldsz - v) ↔ u < pages oldsz by omega]
  refine ⟨reaped.freed.layout, reaped.page, reaped.tabs, fun u inU => ?_, fun u x above below found => ?_,
    fun y => ?_, fun y other => ?_⟩
  · split
    · rename_i gone
      by_cases absent : Vm.pageAt s.dir u = none
      · rw [entryAt, reaped.kept u inU (.inr (.inr absent)), ← entryAt, entryAt_eq_none.mpr absent]
      · rw [entryAt, reaped.cleared u gone.1 (by omega) absent]
        rfl
    · rw [entryAt, reaped.kept u inU (by omega), entryAt]
  · exact (reaped.usable x ((inside x).mpr ⟨u, above, below, found⟩)).2
  · rw [reaped.freed.free, List.mem_append, List.mem_reverse, inside, or_comm]
  · refine reaped.freed.bytes y fun gone => ?_
    obtain ⟨u, above, below, found⟩ := (inside y).mp gone
    exact other u above below found

end Dropped

theorem deallocuvm_dropped (bound : oldsz ≤ KERNBASE) (shrinks : newsz < oldsz)
    (ran : deallocuvm oldsz newsz s = .ok (r, s')) :
    r = newsz ∧ Dropped oldsz (pages newsz) s s' := by
  rcases deallocuvm_spec s newsz bound with ⟨t, ran', reaped⟩ | ⟨ran', -⟩
  · rw [ran'] at ran
    cases ran
    exact ⟨min_eq_right shrinks.le, reaped.dropped⟩
  · rw [ran'] at ran
    cases ran

/-- `deallocuvm` returns if the pages it frees are `kalloc`'s. -/
theorem deallocuvm_ok (bound : oldsz ≤ KERNBASE) (shrinks : newsz < oldsz)
    (linked : s.mem.layout.Ok) (usable : ∀ u x, pages newsz ≤ u → u < pages oldsz →
      pageAt s.dir u = some x → Usable s.mem.layout x) :
    ∃ s', deallocuvm oldsz newsz s = .ok (newsz, s') := by
  rcases deallocuvm_spec s newsz bound with ⟨s', ran, -⟩ | ⟨-, x, inside, refused⟩
  · exact ⟨s', ran.trans (by rw [min_eq_right shrinks.le])⟩
  · obtain ⟨u, above, below, found⟩ := mem_pagesIn.mp inside
    have fine := usable u x above (by omega) found
    exact absurd ⟨fine.ne_zero linked, fine⟩ refused

/-- When `allocuvm` runs out of memory nothing is left between the old and the new size. -/
theorem allocLoop_failed (bound : newsz ≤ KERNBASE) (some_ : newsz ≠ 0) (above : pages oldsz ≤ v)
    (last : v + n = pages newsz) (ran : allocLoop oldsz newsz n v s = .ok (0, s'))
    (inU : u < VPAGES) :
    entryAt s'.dir u = if pages oldsz ≤ u ∧ u < pages newsz then none else entryAt s.dir u := by
  induction n generalizing v s with
  | zero =>
    cases ran
    exact absurd rfl some_
  | succ n ih =>
    have inHalf := pages_le_kernpage bound
    have small := kernpage_le_vpages
    have more : oldsz < newsz := by
      by_contra less
      have := pages_mono (Nat.not_lt.mp less)
      omega
    rw [allocLoop] at ran
    split at ran
    · obtain ⟨⟨r', t⟩, freed, rest⟩ := bind_eq_ok ran
      cases pure_eq_ok rest
      exact (deallocuvm_dropped bound more freed).2.entries u inU
    · obtain ⟨⟨done, t⟩, mapped, rest⟩ := bind_eq_ok ran
      rw [mappages_one (by omega)] at mapped
      rcases mapOne_eq_ok mapped with ⟨rfl, rfl, -⟩ | ⟨rfl, t', walked, -, rfl⟩
      · obtain ⟨⟨r', t⟩, freed, rest⟩ := bind_eq_ok rest
        obtain ⟨m', given, rest⟩ := bind_eq_ok rest
        cases pure_eq_ok rest
        exact (deallocuvm_dropped bound more freed).2.entries u inU
      · rw [ih (by omega) (by omega) rest, entryAt_map walked inU (by omega) rfl]
        by_cases first : u = v
        · simp [first, above, show v < pages newsz by omega]
        · rw [if_neg first]

theorem allocuvm_failed (ran : allocuvm oldsz newsz s = .ok (0, s')) (inU : u < VPAGES) :
    entryAt s'.dir u = entryAt s.dir u ∨
      pages oldsz ≤ u ∧ u < KERNPAGE ∧ entryAt s'.dir u = none := by
  unfold allocuvm at ran
  split at ran
  · cases ran
    exact .inl rfl
  split at ran
  · cases ran
    exact .inl rfl
  have bound : newsz < KERNBASE := by omega
  have round := pgroundup_div (show oldsz ≤ KERNBASE by omega)
  have first := pages_mono (show oldsz ≤ newsz by omega)
  have inHalf := pages_le_kernpage bound.le
  simp only [round] at ran
  by_cases zero : newsz = 0
  · -- nothing was asked for
    have old : oldsz = 0 := by omega
    subst zero old
    cases ran
    exact .inl rfl
  · rw [allocLoop_failed bound.le zero le_rfl (by omega) ran inU]
    split
    · exact .inr ⟨by omega, by omega, rfl⟩
    · exact .inl rfl

/-- Sound books in which the mappings in `A` are alone. -/
structure Kept (E : Env) (A : User → Prop) : Prop where
  sound : E.Sound
  alone : ∀ u, A u → E.books.Alone u

theorem Good.toKept (good : Good E w lo A base s) : Kept (E.place w s) A :=
  ⟨good.sound, good.kept⟩

/-- Space `s` of `w` has no user page. -/
structure Bare (E : Env) (w : Who) (A : User → Prop) (s : Space) : Prop where
  kept : Kept (E.place w s) A
  empty : ∀ v, v < KERNPAGE → pageAt s.dir v = none

/-- The books once `w` has no directory. -/
def Env.remove (E : Env) (w : Who) (m : Mem) : Env :=
  { E with
    layout := m.layout
    free := m.free
    doubled := m.doubled
    dirs := Function.update E.dirs w none }

theorem Env.user_remove (m : Mem) (u : User) :
    (E.remove w m).user u = if u.1 = w then none else E.user u := by
  by_cases same : u.1 = w
  · simp [Env.user, Env.remove, same]
  · simp [Env.user, Env.remove, same]

theorem Bare.user_eq (empty : ∀ v, v < KERNPAGE → pageAt s.dir v = none) (m : Mem) :
    (E.place w s).user = (E.remove w m).user := by
  funext place
  obtain ⟨w', u⟩ := place
  rw [Env.user_remove]
  by_cases same : w' = w
  · subst same
    rw [Env.place_user, if_pos rfl]
    split
    · exact empty u ‹_›
    · rfl
  · rw [Env.place_user_other same, if_neg same]

/-- Books with the same users, in which one owner has given its page back and others may have
gone. -/
theorem Kept.give {F : Env} {o : Owner} (kept : Kept E A) (owned : E.own o = some x)
    (freed : kfree x m = .ok m') (list : m.free = E.free) (clean : m.doubled = E.doubled)
    (linked : m.layout = E.layout)
    (fields : F = { E with
      layout := m'.layout, free := m'.free, doubled := m'.doubled, kstack := F.kstack, dirs := F.dirs })
    (owners : ∀ o' y, F.own o' = some y → o' ≠ o ∧ E.own o' = some y) (users : F.user = E.user) :
    Kept F A := by
  obtain ⟨list', doubled, layout⟩ := kfree_eq_ok freed
  have notFree : x ∉ E.free := kept.sound.books.own_not_free owned
  have free : F.free = x :: E.free := by
    rw [fields, ← list]
    exact list'
  have record : F.record = E.record := by
    rw [fields]
  have books : F.books =
      { E.books with free := x :: E.books.free, own := F.own, user := F.user } := by
    ext1
    · exact free
    · rfl
    · rfl
    · exact record
  refine ⟨⟨?_, ?_, ?_, ?_⟩, ?_⟩
  · rw [books]
    refine (kept.sound.books.give owned).mono ?_ ?_
    · intro o' y owns
      obtain ⟨other, before⟩ := owners o' y owns
      exact (Function.update_of_ne other _ _).trans before
    · intro u y uses
      rw [users] at uses
      exact uses
  · have now : F.doubled = m'.doubled := by
      rw [fields]
    rw [now, doubled, clean, kept.sound.clean, list]
    simp [notFree]
  · have now : F.layout = m'.layout := by
      rw [fields]
    rw [now, layout, linked]
    exact kept.sound.linked
  · have now : F.sharing = E.sharing := by
      rw [fields]
    rw [users, record, now]
    exact kept.sound.shared
  · intro u inA
    refine (kept.alone u inA).mono ?_ record
    intro u' y uses
    have before : E.user u' = some y := users ▸ (show F.user u' = some y from uses)
    exact before

/-- A directory without one of its page tables. -/
def PgDir.dropTable (d : PgDir) (i : Nat) : PgDir := { d with tab := Function.update d.tab i none }

theorem pageAt_dropTable {i : Nat} (unmapped : pageAt d u = none) :
    pageAt (d.dropTable i) u = none := by
  by_cases index : pdx u = i
  · simp [pageAt, walkpgdir, PgDir.dropTable, index]
  · simpa [pageAt, walkpgdir, PgDir.dropTable, index] using unmapped

/-- A page table is given back. -/
theorem Bare.dropTable {i : Nat} {t : PageTable} (bare : Bare E w A s) (inI : i < NPDENTRIES)
    (found : s.dir.tab i = some t) (freed : kfree t.page s.mem = .ok m) :
    Bare E w A ⟨s.dir.dropTable i, m⟩ := by
  have empty : ∀ v, v < KERNPAGE → pageAt (s.dir.dropTable i) v = none :=
    fun v inV => pageAt_dropTable (bare.empty v inV)
  have owned : (E.place w s).own (.table w ⟨i, inI⟩) = some t.page := by
    simp [Env.own, Env.place, found]
  refine ⟨bare.kept.give owned freed rfl rfl rfl rfl ?_ ?_, empty⟩
  · intro o y owns
    cases o with
    | hand | kstack j => exact ⟨by simp, owns⟩
    | dir w' =>
      refine ⟨by simp, ?_⟩
      by_cases same : w' = w
      · simpa [Env.own, Env.place, same, PgDir.dropTable] using owns
      · simpa [Env.own, Env.place, same] using owns
    | table w' j =>
      by_cases same : w' = w
      · by_cases index : (j : Nat) = i
        · simp [Env.own, Env.place, same, index, PgDir.dropTable] at owns
        · refine ⟨?_, ?_⟩
          · intro eq
            injection eq with _ eq
            exact index (congrArg Fin.val eq)
          · simpa [Env.own, Env.place, same, index, PgDir.dropTable] using owns
      · refine ⟨?_, ?_⟩
        · intro eq
          injection eq with eq
          exact same eq
        · simpa [Env.own, Env.place, same] using owns
  · rw [Bare.user_eq empty m, Bare.user_eq bare.empty m]

/-- The tables of a directory are given back one by one. Those still listed are untouched. -/
theorem freeTables_bare {list : List Nat} (nodup : list.Nodup) (range : ∀ i ∈ list, i < NPDENTRIES)
    (left : ∀ i ∈ list, s.dir.tab i = d.tab i) (bare : Bare E w A s)
    (ran : freeTables d list s.mem = .ok m) : ∃ d', Bare E w A ⟨d', m⟩ ∧ d'.page = s.dir.page := by
  induction list generalizing s with
  | nil =>
    cases ran
    exact ⟨s.dir, bare, rfl⟩
  | cons i rest ih =>
    obtain ⟨notAgain, nodup⟩ := List.nodup_cons.mp nodup
    have inI : i < NPDENTRIES := range i (by simp)
    have range : ∀ j ∈ rest, j < NPDENTRIES := fun j inside => range j (by simp [inside])
    have first : s.dir.tab i = d.tab i := left i (by simp)
    have left : ∀ j ∈ rest, s.dir.tab j = d.tab j := fun j inside => left j (by simp [inside])
    rw [freeTables] at ran
    split at ran
    · exact ih nodup range left bare ran
    · rename_i t found
      obtain ⟨m', freed, rest'⟩ := bind_eq_ok ran
      refine ih (s := ⟨s.dir.dropTable i, m'⟩) nodup range ?_
        (bare.dropTable inI (first.trans found) freed) rest'
      intro j inside
      have other : j ≠ i := fun same => notAgain (same ▸ inside)
      simpa [PgDir.dropTable, other] using left j inside

/-- The directory's own page is given back, and the directory is no more. -/
theorem Bare.remove (bare : Bare E w A s) (freed : kfree s.dir.page s.mem = .ok m) :
    Kept (E.remove w m) A := by
  have owned : (E.place w s).own (.dir w) = some s.dir.page := by
    simp [Env.own, Env.place]
  refine bare.kept.give owned freed rfl rfl rfl rfl ?_ (Bare.user_eq bare.empty m).symm
  intro o y owns
  cases o with
  | hand | kstack j => exact ⟨by simp, owns⟩
  | dir w' =>
    by_cases same : w' = w
    · simp [Env.own, Env.remove, same] at owns
    · refine ⟨?_, ?_⟩
      · intro eq
        injection eq with eq
        exact same eq
      · simpa [Env.own, Env.place, Env.remove, same] using owns
  | table w' j =>
    refine ⟨by simp, ?_⟩
    by_cases same : w' = w
    · simp [Env.own, Env.remove, same] at owns
    · simpa [Env.own, Env.place, Env.remove, same] using owns

/-- `freevm` takes a directory down whose every user mapping is alone with its page. -/
theorem freevm_kept (good : Good E w 0 A base s) (ran : freevm s = .ok m) :
    Kept (E.remove w m) A := by
  obtain ⟨⟨r, t⟩, cleared, ran⟩ := bind_eq_ok ran
  obtain ⟨m', tables, freed⟩ := bind_eq_ok ran
  have torn := deallocuvm_good le_rfl (Nat.zero_le _) good cleared
  have bare : Bare E w A t := by
    refine ⟨torn.toKept, fun v inV => ?_⟩
    have small := kernpage_le_vpages
    obtain ⟨-, gone⟩ := deallocuvm_dropped le_rfl (by decide) cleared
    have whole : pages 0 ≤ v ∧ v < pages KERNBASE := by
      simp only [pages, PGSIZE, KERNBASE, KERNPAGE] at *
      omega
    rw [gone.pageAt (by omega), if_pos whole]
  obtain ⟨d', bare', page⟩ := freeTables_bare List.nodup_range (by simp) (fun _ _ => rfl) bare tables
  exact bare'.remove (s := ⟨d', m'⟩) (page ▸ freed)

end Xv6.Vm
