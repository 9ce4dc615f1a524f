/-
# Xv6.Vm.Construction -- building an address space

`setupkvm` makes a directory without user pages, `copyuvm` fills one from another, and `exec` fills
one from a file. All of them take pages from the free list, map each at most once, and give back what
they took when they fail. So the books stay sound, every user mapping of the new directory is alone
with its page, and nobody else's mappings change.
-/
import Xv6.Vm.SpaceOps

namespace Xv6.Vm
open Lib List
set_option autoImplicit false

variable {E : Env} {w : Who} {lo : Nat} {A : User → Prop} {base : Nat → Option Nat}
  {s s' : Space} {m m' : Mem} {v x : Nat}

/-! ## setupkvm -/

/-- Books that say the same. -/
theorem Kept.congr {F : Env} (kept : Kept E A) (books : F.books = E.books)
    (clean : F.doubled = E.doubled) (linked : F.layout = E.layout) (sharing : F.sharing = E.sharing) :
    Kept F A := by
  have users : F.user = E.user := congrArg Ledger.user books
  have record : F.record = E.record := congrArg Ledger.record books
  refine ⟨⟨?_, ?_, ?_, ?_⟩, ?_⟩
  · rw [books]
    exact kept.sound.books
  · rw [clean]
    exact kept.sound.clean
  · rw [linked]
    exact kept.sound.linked
  · rw [users, record, sharing]
    exact kept.sound.shared
  · rw [books]
    exact kept.alone

/-- Nothing below `KERNBASE` is mapped, so everything that is, is alone. -/
theorem Bare.toGood (bare : Bare E w A s) : Good E w 0 A (pageAt s.dir) s := by
  refine ⟨bare.kept.sound, ?_, bare.kept.alone, fun _ _ _ => rfl⟩
  intro u _ y uses
  have none_ : (E.place w s).user (w, u) = none := by
    rw [Env.place_user]
    split
    · exact bare.empty u ‹_›
    · rfl
  exact absurd (none_.symm.trans uses) (by simp)

theorem Bare.walkpgdirAlloc (bare : Bare E w A s) (walked : walkpgdirAlloc v s = some s') :
    Bare E w A s' := by
  refine ⟨(bare.toGood.walkpgdirAlloc walked).toKept, fun u inU => ?_⟩
  rw [walkpgdirAlloc_pageAt walked]
  exact bare.empty u inU

/-- An entry of the kernel's half is set. -/
theorem Bare.map {t : Space} (bare : Bare E w A s) (kernel : KERNPAGE ≤ v) (inV : v < VPAGES)
    (walked : Vm.walkpgdirAlloc v s = some t) (pte : Pte) : Bare E w A (t.store v pte) := by
  have bare := bare.walkpgdirAlloc walked
  refine ⟨bare.kept.congr ?_ rfl rfl rfl, fun u inU => ?_⟩
  · ext1
    · rfl
    · exact Env.own_store
    · exact Env.user_store_kernel inV kernel
    · rfl
  · rw [Space.store, pageAt_store (by omega) inV (walkpgdirAlloc_isSome walked), if_neg (by omega)]
    exact bare.empty u inU

/-- How many pages `mappages` maps. -/
def rounds (va size : Nat) : Nat :=
  ((va + size + 2 ^ 32 - 1) % 2 ^ 32 / PGSIZE + 2 ^ 20 - va / PGSIZE) % 2 ^ 20 + 1

def KMap.size (k : KMap) : Nat := (k.physEnd + 2 ^ 32 - k.physStart) % 2 ^ 32

/-- A row of `kmap` that stays in the kernel's half. -/
structure KMap.Upper (k : KMap) : Prop where
  kernel : KERNPAGE ≤ k.virt / PGSIZE
  last : k.virt / PGSIZE + rounds k.virt k.size ≤ VPAGES

variable {l : Layout} {src : PgDir} {offset : Nat} {pte : Pte}

theorem kmap_upper (linked : l.Ok) : ∀ k ∈ kmap l, k.Upper := by
  obtain ⟨text, data, kernEnd, aligned⟩ := linked
  intro k inside
  simp only [kmap, mem_cons, not_mem_nil, or_false] at inside
  simp only [EXTMEM, PHYSTOP, PGSIZE] at text data kernEnd aligned
  rcases inside with rfl | rfl | rfl | rfl
  · exact ⟨by decide, by decide⟩
  all_goals
    constructor <;>
      simp only [KMap.size, rounds, KERNLINK, KERNBASE, KERNPAGE, EXTMEM, PHYSTOP, DEVSPACE, PGSIZE,
        VPAGES] <;>
      omega

theorem kmap_low (linked : l.Ok) : ∀ k ∈ kmap l, k.physStart / PGSIZE < 2 ^ 20 := by
  have high := linked.data.trans_le linked.kernEnd
  simp only [PHYSTOP] at high
  simp only [kmap, forall_mem_cons, EXTMEM, DEVSPACE, PGSIZE]
  refine ⟨?_, ?_, ?_, ?_, by simp⟩ <;> omega

variable {done : Bool} {n sz r : Nat} {d : PgDir} {file : File} {argv : List (List Byte)}

/-- What every round keeps, the mapping of the kernel keeps. -/
theorem mapKernel_keeps {P : Space → Prop} {list : List KMap} (upper : ∀ k ∈ list, k.Upper)
    (round : ∀ perm v x s t, KERNPAGE ≤ v → v < VPAGES → P s → walkpgdirAlloc v s = some t →
      pageAt s.dir v = none → P (t.store v ⟨x, true, Perm.w perm, Perm.u perm⟩)) (start : P s)
    (ran : mapKernel list s = .ok (done, s')) : P s' := by
  induction list generalizing s with
  | nil =>
    cases ran
    exact start
  | cons k rest ih =>
    obtain ⟨kernel, last⟩ := upper k mem_cons_self
    obtain ⟨⟨mapped, t⟩, row, ran⟩ := bind_eq_ok ran
    have first := mapLoop_keeps (round k.perm) kernel last start row
    cases mapped with
    | false =>
      cases pure_eq_ok ran
      exact first
    | true => exact ih (fun j inside => upper j (mem_cons_of_mem k inside)) first ran

/-- The rows of `list` are mapped. -/
def Rows (list : List KMap) (d : PgDir) : Prop :=
  ∀ k ∈ list, ∀ i, i < rounds k.virt k.size → entryAt d (k.virt / PGSIZE + i) =
    some ⟨(k.physStart / PGSIZE + i) % 2 ^ 20, true, k.perm.w, k.perm.u⟩

theorem mapKernel_rows {list : List KMap} (upper : ∀ k ∈ list, k.Upper)
    (low : ∀ k ∈ list, k.physStart / PGSIZE < 2 ^ 20) (ran : mapKernel list s = .ok (true, s')) :
    Rows list s'.dir := by
  induction list generalizing s with
  | nil => exact fun k inside => absurd inside not_mem_nil
  | cons k rest ih =>
    rw [forall_mem_cons] at upper low
    obtain ⟨⟨mapped, t⟩, row, ran⟩ := bind_eq_ok ran
    cases mapped with
    | false => cases pure_eq_ok ran
    | true =>
      refine forall_mem_cons.mpr ⟨fun i inside => ?_, ih upper.2 low.2 ran⟩
      obtain ⟨n, mapped, rfl⟩ := mapLoop_mapped upper.1.last low.1 row
      -- a page that is there is not mapped again
      refine mapKernel_keeps (P := fun s => entryAt s.dir (k.virt / PGSIZE + i) = _) upper.2
        (fun perm v x s t _ inV there walked absent => ?_) ?_ ran
      rotate_left
      · rw [entryAt, mapped.walk i inside]
        rfl
      have other : k.virt / PGSIZE + i ≠ v := by
        rintro rfl
        rw [entryAt_eq_none.mpr absent] at there
        cases there
      rw [entryAt_map walked ((Nat.add_lt_add_left inside _).trans_le upper.1.last) inV rfl,
        if_neg other, there]

/-- The first page after those a row maps. -/
def KMap.next (k : KMap) : Nat := k.virt / PGSIZE + rounds k.virt k.size

theorem kmap_ordered (linked : l.Ok) : (kmap l).Pairwise fun a b => a.next ≤ b.virt / PGSIZE := by
  obtain ⟨text, data, kernEnd, aligned⟩ := linked
  simp only [EXTMEM, PHYSTOP, PGSIZE] at text data kernEnd aligned
  simp only [kmap, pairwise_cons, mem_cons, not_mem_nil, or_false, forall_eq_or_imp,
    forall_eq, KMap.next, KMap.size, rounds, KERNLINK, KERNBASE, EXTMEM, PHYSTOP, DEVSPACE, PGSIZE,
    List.Pairwise.nil, and_true, false_implies, implies_true]
  refine ⟨⟨?_, ?_, ?_⟩, ⟨?_, ?_⟩, ?_⟩ <;> omega

/-- Rows that are apart and not there yet are mapped, or memory runs out. -/
theorem mapKernel_returns {list : List KMap} (upper : ∀ k ∈ list, k.Upper)
    (low : ∀ k ∈ list, k.physStart / PGSIZE < 2 ^ 20)
    (ordered : list.Pairwise fun a b => a.next ≤ b.virt / PGSIZE)
    (absent : ∀ k ∈ list, ∀ u, k.virt / PGSIZE ≤ u → u < k.next → pageAt s.dir u = none) :
    ∃ done s', mapKernel list s = .ok (done, s') := by
  induction list generalizing s with
  | nil => exact ⟨true, s, rfl⟩
  | cons k rest ih =>
    rw [forall_mem_cons] at upper low absent
    obtain ⟨later, ordered⟩ := pairwise_cons.mp ordered
    cases row : mapLoop k.perm (rounds k.virt k.size) (k.virt / PGSIZE) (k.physStart / PGSIZE) s with
    | error f =>
      obtain ⟨-, i, t, inside, -, there⟩ := (mapLoop_error_iff upper.1.last low.1 f).mp row
      exact absurd (absent.1 _ (Nat.le_add_right _ i) (Nat.add_lt_add_left inside _)) there
    | ok r =>
      have ran : mapKernel (k :: rest) s =
          if r.1 then mapKernel rest r.2 else pure (false, r.2) := by
        change (mapLoop k.perm (rounds k.virt k.size) (k.virt / PGSIZE) (k.physStart / PGSIZE) s >>=
          fun r => if r.1 then mapKernel rest r.2 else pure (false, r.2)) = _
        rw [row, ok_bind]
      obtain ⟨mapped, t⟩ := r
      cases mapped with
      | false => exact ⟨false, t, ran⟩
      | true =>
        rw [ran]
        obtain ⟨n, mapped, rfl⟩ := mapLoop_mapped upper.1.last low.1 row
        refine ih upper.2 low.2 ordered fun j inside u above below => ?_
        have after := later j inside
        have last := (upper.2 j inside).last
        unfold KMap.next at after below
        rw [pageAt_eq_map, mapped.other u (by omega) (by omega), ← pageAt_eq_map]
        exact absent.2 j inside u above below

/-- A new directory takes its page from the free list. -/
theorem Kept.newDir (kept : Kept (E.remove w m) A) (taken : kalloc m = some (x, m')) :
    Bare E w A ⟨⟨x, fun _ => none⟩, m'.fill x 0⟩ := by
  obtain ⟨list, fields⟩ := kalloc_eq_some taken
  have empty : ∀ v, v < KERNPAGE → pageAt ⟨x, fun _ => none⟩ v = none := fun _ _ => rfl
  have users := Bare.user_eq (E := E) (w := w) (s := ⟨⟨x, fun _ => none⟩, m'.fill x 0⟩) empty m
  have vacant : (E.remove w m).books.own (.dir w) = none := by
    simp [Env.books, Env.own, Env.remove]
  have owners : (E.place w ⟨⟨x, fun _ => none⟩, m'.fill x 0⟩).own =
      Function.update (E.remove w m).own (.dir w) (some x) := by
    funext o
    cases o with
    | hand => rfl
    | kstack i => rfl
    | dir w' =>
      by_cases same : w' = w
      · simp [Env.own, Env.place, same]
      · simp [Env.own, Env.place, Env.remove, same]
    | table w' i =>
      by_cases same : w' = w
      · simp [Env.own, Env.place, Env.remove, same]
      · simp [Env.own, Env.place, Env.remove, same]
  have books : (E.place w ⟨⟨x, fun _ => none⟩, m'.fill x 0⟩).books =
      { (E.remove w m).books with
        free := m'.free
        own := Function.update (E.remove w m).books.own (.dir w) (some x) } := by
    ext1
    · rfl
    · exact owners
    · exact users
    · rfl
  refine ⟨⟨⟨?_, ?_, ?_, ?_⟩, ?_⟩, empty⟩
  · rw [books]
    exact kept.sound.books.take list vacant
  · rw [fields]
    exact kept.sound.clean
  · rw [fields]
    exact kept.sound.linked
  · rw [users]
    exact kept.sound.shared
  · rw [books]
    exact kept.alone

/-- What `setupkvm` and `copyuvm` return: nothing, and all pages are back, or a directory. -/
inductive Made (E : Env) (w : Who) (A : User → Prop) (fine : PgDir → Prop) (m : Mem) :
    Option PgDir → Prop where
  | none (kept : Kept (E.remove w m) A) : Made E w A fine m none
  | some (d : PgDir) (good : Good E w 0 A (pageAt d) ⟨d, m⟩) (ok : fine d) :
      Made E w A fine m (some d)

/-- No user page, and the kernel at its place. -/
structure KernelOnly (d : PgDir) : Prop where
  empty : ∀ v, v < KERNPAGE → pageAt d v = none
  kernel : pageAt d KERNPAGE ≠ none

theorem setupkvm_made {made : Option PgDir} (kept : Kept (E.remove w m) A)
    (ran : setupkvm m = .ok (made, m')) : Made E w A KernelOnly m' made := by
  unfold setupkvm at ran
  split at ran
  · cases ran
    exact .none kept
  · rename_i x m₁ taken
    obtain ⟨⟨mapped, s⟩, rows, ran⟩ := bind_eq_ok ran
    have linked : m₁.layout.Ok := by
      rw [(kalloc_eq_some taken).2]
      exact kept.sound.linked
    have bare := mapKernel_keeps (kmap_upper linked)
      (fun perm v x s t kernel inV bare walked _ => Bare.map bare kernel inV walked _)
      (kept.newDir taken) rows
    cases mapped with
    | false =>
      obtain ⟨m₂, freed, ran⟩ := bind_eq_ok ran
      cases pure_eq_ok ran
      exact .none (freevm_kept bare.toGood freed)
    | true =>
      cases pure_eq_ok ran
      refine .some s.dir bare.toGood ⟨bare.empty, ?_⟩
      have there : entryAt s.dir KERNPAGE = some ⟨0, true, true, false⟩ :=
        mapKernel_rows (kmap_upper linked) (kmap_low linked) rows
          ⟨KERNBASE, 0, EXTMEM, ⟨true, false⟩⟩ mem_cons_self 0 (Nat.succ_pos _)
      simp [pageAt_eq_map, there]

/-! ## copyuvm -/

theorem copyLoop_good {copied : Bool} (empty : E.hand = none) (others : ∀ u, A u → u.1 ≠ w)
    (above : lo ≤ v) (last : v + n ≤ KERNPAGE) (good : Good E w lo A base s)
    (ran : copyLoop src n v s = .ok (copied, s')) :
    Good E w lo A base s' ∧ (copied = true → ∀ u, u < VPAGES →
      (v ≤ u → u < v + n → pageAt s'.dir u ≠ none) ∧
      (u < v ∨ v + n ≤ u → pageAt s'.dir u = pageAt s.dir u)) := by
  induction n generalizing v s with
  | zero =>
    cases ran
    refine ⟨good, fun _ u _ => ⟨?_, fun _ => rfl⟩⟩
    intro aboveU belowU
    omega
  | succ n ih =>
    rw [copyLoop] at ran
    split at ran
    · cases ran
    · rename_i pte walked
      split at ran
      · split at ran
        · cases ran
          exact ⟨good, fun isCopied => by cases isCopied⟩
        · rename_i y m taken
          have held : Good (E.withHand (some y)) w lo A base
              ⟨s.dir, m.setPage y (m.bytes pte.ppn)⟩ :=
            (good.kalloc empty taken).bytes rfl rfl rfl rfl
          obtain ⟨⟨done, t⟩, mapped, rest⟩ := bind_eq_ok ran
          rcases mapOne_good above (by omega) others held mapped with
            ⟨rfl, mappedGood, pages⟩ | ⟨rfl, stillHeld⟩
          · rw [Env.withHand_self none empty] at mappedGood
            obtain ⟨finalGood, success⟩ := ih (by omega) (by omega) mappedGood rest
            refine ⟨finalGood, fun isCopied u inU => ?_⟩
            obtain ⟨later, same⟩ := success isCopied u inU
            refine ⟨fun aboveU belowU => ?_, fun outside => ?_⟩
            · by_cases first : u = v
              · rw [same (by omega), pages u inU, if_pos first]
                simp
              · exact later (by omega) (by omega)
            · rw [same (by omega), pages u inU, if_neg (by omega)]
          · obtain ⟨m', given, rest⟩ := bind_eq_ok rest
            cases pure_eq_ok rest
            have back := stillHeld.giveHand given
            rw [Env.withHand_self none empty] at back
            exact ⟨back, fun isCopied => by cases isCopied⟩
      · cases ran

/-- A directory for a process of size `sz`: nothing is mapped between `sz` and the kernel, and the
kernel is there. -/
structure Sized (sz : Nat) (d : PgDir) : Prop where
  bound : sz ≤ KERNBASE
  above : ∀ v, pages sz ≤ v → v < KERNPAGE → pageAt d v = none
  kernel : pageAt d KERNPAGE ≠ none

/-- Every page below `sz` is mapped. -/
def Full (sz : Nat) (d : PgDir) : Prop := ∀ v, v < pages sz → pageAt d v ≠ none

/-- A directory that holds an image of `sz` bytes. -/
structure Image (sz : Nat) (d : PgDir) : Prop where
  sized : Sized sz d
  full : Full sz d

theorem copyuvm_made {made : Option PgDir} (empty : E.hand = none) (others : ∀ u, A u → u.1 ≠ w)
    (bound : sz ≤ KERNBASE) (kept : Kept (E.remove w m) A) (ran : copyuvm src sz m = .ok (made, m')) :
    Made E w A (Image sz) m' made := by
  obtain ⟨⟨fresh, m₁⟩, setup, ran⟩ := bind_eq_ok ran
  cases setupkvm_made kept setup with
  | none kept =>
    cases pure_eq_ok ran
    exact .none kept
  | some d good ok =>
    obtain ⟨⟨copied, s⟩, loop, ran⟩ := bind_eq_ok ran
    have small := kernpage_le_vpages
    have inHalf := pages_le_kernpage bound
    obtain ⟨good', success⟩ :=
      copyLoop_good empty others (Nat.zero_le _) (by omega) good loop
    cases copied with
    | false =>
      obtain ⟨m₂, freed, ran⟩ := bind_eq_ok ran
      cases pure_eq_ok ran
      exact .none (freevm_kept good' freed)
    | true =>
      cases pure_eq_ok ran
      have there := success rfl
      refine .some s.dir ⟨good'.sound, good'.fresh, good'.kept, fun _ _ _ => rfl⟩
        ⟨⟨bound, ?_, ?_⟩, ?_⟩
      · intro v above inV
        rw [(there v (by omega)).2 (by omega)]
        exact ok.empty v inV
      · rw [(there KERNPAGE (by decide)).2 (by omega)]
        exact ok.kernel
      · intro v below
        exact (there v (by omega)).1 (by omega) (by omega)

/-! ## The image of a program -/

/-- Only bytes differ. -/
structure SameBooks (m m' : Mem) : Prop where
  layout : m'.layout = m.layout
  free : m'.free = m.free
  doubled : m'.doubled = m.doubled

theorem SameBooks.refl (m : Mem) : SameBooks m m := ⟨rfl, rfl, rfl⟩

theorem SameBooks.trans {m₁ m₂ m₃ : Mem} (first : SameBooks m₁ m₂) (second : SameBooks m₂ m₃) :
    SameBooks m₁ m₃ :=
  ⟨second.layout.trans first.layout, second.free.trans first.free,
    second.doubled.trans first.doubled⟩

theorem SameBooks.write (m : Mem) (x start : Nat) (text : List Byte) :
    SameBooks m (m.write x start text) := ⟨rfl, rfl, rfl⟩

theorem loadLoop_books {addr i : Nat} (ran : loadLoop d file addr offset sz n i m = .ok (done, m')) :
    SameBooks m m' := by
  induction n generalizing i m with
  | zero =>
    cases ran
    exact .refl _
  | succ n ih =>
    rw [loadLoop] at ran
    split at ran
    · cases ran
    · rename_i pte _
      dsimp only at ran
      split at ran
      · cases ran
        exact .refl _
      · rename_i text _
        have written := SameBooks.write m pte.ppn 0 text
        split at ran
        · exact written.trans (ih ran)
        · cases ran
          exact written

theorem loaduvm_books {addr : Nat} (ran : loaduvm d file addr offset sz m = .ok (done, m')) :
    SameBooks m m' := by
  unfold loaduvm at ran
  split at ran
  · cases ran
  · exact loadLoop_books ran

theorem copyoutLoop_books {va : Nat} {buf : List Byte}
    (ran : copyoutLoop d n va buf m = .ok (done, m')) : SameBooks m m' := by
  induction n generalizing va buf m with
  | zero =>
    cases ran
    exact .refl _
  | succ n ih =>
    rw [copyoutLoop] at ran
    split at ran
    · cases ran
      exact .refl _
    · obtain ⟨page, -, ran⟩ := bind_eq_ok ran
      cases page with
      | none =>
        cases pure_eq_ok ran
        exact .refl _
      | some x => exact (SameBooks.write _ _ _ _).trans (ih ran)

theorem pushArgs_books {argc sp : Nat} {strings : List Nat} {r : Option (Nat × List Nat)}
    (ran : pushArgs d argv argc sp strings m = .ok (r, m')) : SameBooks m m' := by
  induction argv generalizing argc sp strings m with
  | nil =>
    cases ran
    exact .refl _
  | cons arg rest ih =>
    rw [pushArgs] at ran
    split at ran
    · cases ran
      exact .refl _
    · obtain ⟨⟨copied, m₁⟩, out, ran⟩ := bind_eq_ok ran
      have written : SameBooks m m₁ := copyoutLoop_books out
      cases copied with
      | false =>
        cases pure_eq_ok ran
        exact written
      | true => exact written.trans (ih ran)

theorem buildStack_books {r : Option Nat} (ran : buildStack d argv sz m = .ok (r, m')) :
    SameBooks m m' := by
  obtain ⟨⟨pushed, m₁⟩, args, ran⟩ := bind_eq_ok ran
  have written := pushArgs_books args
  cases pushed with
  | none =>
    cases pure_eq_ok ran
    exact written
  | some result =>
    obtain ⟨⟨copied, m₂⟩, out, ran⟩ := bind_eq_ok ran
    have stack : SameBooks m₁ m₂ := copyoutLoop_books out
    cases copied with
    | false | true =>
      cases pure_eq_ok ran
      exact written.trans stack

theorem Good.sameBooks (good : Good E w lo A base s) (same : SameBooks s.mem m) :
    Good E w lo A base ⟨s.dir, m⟩ :=
  good.bytes rfl same.layout same.free same.doubled

/-- A store that changes only permissions. -/
theorem pageAt_reflag {u : Nat} {pte' : Pte} (walked : walkpgdir d v = some pte)
    (present : pte'.p = pte.p) (page : pte'.ppn = pte.ppn) (inU : u < VPAGES) (inV : v < VPAGES) :
    pageAt (d.store v pte') u = pageAt d u := by
  have there : (d.tab (pdx v)).isSome := by
    rw [← walkpgdir_isSome, walked]
    rfl
  rw [pageAt_store inU inV there]
  split
  · rename_i same
    simp [pageAt, same, walked, present, page]
  · rfl

theorem Good.reflag (good : Good E w lo A base s) (pte' : Pte)
    (walked : walkpgdir s.dir v = some pte) (present : pte'.p = pte.p) (page : pte'.ppn = pte.ppn)
    (inV : v < VPAGES) : Good E w lo A base (s.store v pte') := by
  have small := kernpage_le_vpages
  have users : (E.place w (s.store v pte')).user = (E.place w s).user := by
    funext place
    obtain ⟨w', u⟩ := place
    by_cases same : w' = w
    · subst same
      rw [Env.place_user, Env.place_user]
      split
      · exact pageAt_reflag walked present page (by omega) inV
      · rfl
    · rw [Env.place_user_other same, Env.place_user_other same]
  have books : (E.place w (s.store v pte')).books = (E.place w s).books := by
    ext1
    · rfl
    · exact Env.own_store
    · exact users
    · rfl
  refine ⟨(good.toKept.congr books rfl rfl rfl).sound, ?_, ?_, ?_⟩
  · rw [books]
    exact good.fresh
  · rw [books]
    exact good.kept
  · intro u inU where_
    rw [Space.store, pageAt_reflag walked present page inU inV]
    exact good.same u inU where_

theorem clearpteu_good (good : Good E w lo A base s) (inV : v < VPAGES)
    (ran : clearpteu v s.dir = .ok d) :
    Good E w lo A base ⟨d, s.mem⟩ ∧ ∀ u, u < VPAGES → pageAt d u = pageAt s.dir u := by
  unfold clearpteu at ran
  split at ran
  · cases ran
  · rename_i pte walked
    cases ran
    refine ⟨good.reflag { pte with u := false } walked rfl rfl inV, fun u inU => ?_⟩
    exact pageAt_reflag walked rfl rfl inU inV

theorem KernelOnly.image (only : KernelOnly d) : Image 0 d := by
  refine ⟨⟨Nat.zero_le _, fun v _ inV => only.empty v inV, only.kernel⟩, ?_⟩
  intro v below
  exact absurd below (Nat.not_lt_zero v)

theorem Image.congr {d' : PgDir} (image : Image sz d)
    (same : ∀ u, u < VPAGES → pageAt d' u = pageAt d u) : Image sz d' := by
  have small := kernpage_le_vpages
  have inHalf := pages_le_kernpage image.sized.bound
  refine ⟨⟨image.sized.bound, ?_, ?_⟩, ?_⟩
  · intro v above inV
    rw [same v (by omega)]
    exact image.sized.above v above inV
  · rw [same KERNPAGE (by decide)]
    exact image.sized.kernel
  · intro v below
    rw [same v (by omega)]
    exact image.full v below

/-- The size of an image may be rounded up. -/
theorem Image.round (image : Image sz d) : Image (pgroundup sz) d := by
  have eq := pgroundup_eq image.sized.bound
  have same : pages (pgroundup sz) = pages sz := by
    rw [eq]
    simp only [pages, PGSIZE]
    omega
  have bound : pgroundup sz ≤ KERNBASE := by
    have inHalf := pages_le_kernpage image.sized.bound
    rw [eq]
    simp only [KERNPAGE, KERNBASE, PGSIZE] at *
    omega
  refine ⟨⟨bound, ?_, image.sized.kernel⟩, ?_⟩
  · rw [same]
    exact image.sized.above
  · intro v below
    exact image.full v (same ▸ below)

theorem Grown.sized (grown : Grown (pages sz) (pages r - pages sz) s s') (more : sz ≤ r)
    (bound : r ≤ KERNBASE) (sized : Sized sz s.dir) : Sized r s'.dir := by
  have small : KERNPAGE < VPAGES := by decide
  have mono := pages_mono more
  have inHalf := pages_le_kernpage bound
  refine ⟨bound, fun v above inV => ?_, ?_⟩
  · rw [grown.page (by omega) (by omega)]
    exact sized.above v (by omega) inV
  · rw [grown.page small (by omega)]
    exact sized.kernel

theorem Grown.full (grown : Grown (pages sz) (pages r - pages sz) s s') (bound : sz ≤ KERNBASE)
    (full : Full sz s.dir) : Full r s'.dir := by
  have small := kernpage_le_vpages
  have inHalf := pages_le_kernpage bound
  intro v below
  by_cases old : v < pages sz
  · rw [grown.page (by omega) (.inl old)]
    exact full v old
  · exact grown.mapped (by omega) (by omega)

theorem Image.grown {newsz : Nat} (image : Image sz s.dir) (ran : allocuvm sz newsz s = .ok (r, s'))
    (nonzero : r ≠ 0) : Image r s'.dir := by
  have bound := image.sized.bound
  obtain ⟨low, size, grown⟩ := allocuvm_grown bound ran nonzero
  exact ⟨grown.sized (by omega) (by omega) image.sized, grown.full bound image.full⟩

theorem loadSegments_good {off : Nat} {r : Option Nat} (empty : E.hand = none)
    (others : ∀ u, A u → u.1 ≠ w) (good : Good E w 0 A base s) (image : Image sz s.dir)
    (ran : loadSegments file n off sz s = .ok (r, s')) :
    Good E w 0 A base s' ∧ ∀ sz', r = some sz' → Image sz' s'.dir := by
  induction n generalizing off sz s with
  | zero =>
    cases ran
    refine ⟨good, fun sz' eq => ?_⟩
    cases eq
    exact image
  | succ n ih =>
    rw [loadSegments] at ran
    split at ran
    · cases ran
      exact ⟨good, by simp⟩
    · dsimp only at ran
      -- the checks of one header, in the order of the code
      split at ran
      · cases ran
        exact ⟨good, by simp⟩
      split at ran
      · exact ih good image ran
      split at ran
      · cases ran
        exact ⟨good, by simp⟩
      split at ran
      · cases ran
        exact ⟨good, by simp⟩
      obtain ⟨⟨sz', t⟩, alloc, ran⟩ := bind_eq_ok ran
      have goodT := allocuvm_good empty others (Nat.zero_le _) good alloc
      split at ran
      · cases pure_eq_ok ran
        exact ⟨goodT, by simp⟩
      rename_i nonzero
      have imageT := image.grown alloc nonzero
      split at ran
      · cases pure_eq_ok ran
        exact ⟨goodT, by simp⟩
      obtain ⟨⟨loaded, m⟩, load, ran⟩ := bind_eq_ok ran
      have goodM := goodT.sameBooks (loaduvm_books load)
      cases loaded with
      | false =>
        cases pure_eq_ok ran
        exact ⟨goodM, by simp⟩
      | true => exact ih goodM imageT ran

/-- `exec` up to the point of no return. -/
theorem buildImage_good {elf : List Byte} {r : Option (Nat × Nat)} (empty : E.hand = none)
    (others : ∀ u, A u → u.1 ≠ w) (good : Good E w 0 A base s) (image : Image 0 s.dir)
    (ran : buildImage file elf argv s = .ok (r, s')) :
    Good E w 0 A base s' ∧ ∀ sz sp, r = some (sz, sp) → Image sz s'.dir := by
  obtain ⟨⟨loaded, s₁⟩, segments, ran⟩ := bind_eq_ok ran
  obtain ⟨good₁, image₁⟩ := loadSegments_good empty others good image segments
  cases loaded with
  | none =>
    cases pure_eq_ok ran
    exact ⟨good₁, by simp⟩
  | some sz₁ =>
    obtain ⟨⟨sz₂, s₂⟩, alloc, ran⟩ := bind_eq_ok ran
    have good₂ := allocuvm_good empty others (Nat.zero_le _) good₁ alloc
    dsimp only at ran
    split at ran
    · cases pure_eq_ok ran
      exact ⟨good₂, by simp⟩
    rename_i nonzero
    have image₂ := (image₁ sz₁ rfl).round.grown alloc nonzero
    obtain ⟨d, cleared, ran⟩ := bind_eq_ok ran
    have inV : (sz₂ - 2 * PGSIZE) / PGSIZE < VPAGES := by
      have bound := image₂.sized.bound
      simp only [KERNBASE, PGSIZE, VPAGES] at *
      omega
    obtain ⟨good₃, same⟩ := clearpteu_good good₂ inV cleared
    obtain ⟨⟨stack, m⟩, built, ran⟩ := bind_eq_ok ran
    have good₄ := good₃.sameBooks (buildStack_books built)
    cases stack with
    | none =>
      cases pure_eq_ok ran
      exact ⟨good₄, by simp⟩
    | some sp =>
      cases pure_eq_ok ran
      refine ⟨good₄, fun sz sp' eq => ?_⟩
      cases eq
      exact image₂.congr same

end Xv6.Vm
