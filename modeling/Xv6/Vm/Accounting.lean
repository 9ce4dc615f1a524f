/-
# Xv6.Vm.Accounting -- every page table operation keeps the books

The pages of the machine, as a ledger: the free list; the kernel stacks, page directories and page
tables, which own their pages; the user mappings of every directory; the pages recorded in the
shared-memory table. One page may be in the kernel's hand, between `kalloc` and the store that
maps it. One directory may be under construction, beside those of the processes.

`Good` is what a function that works on one address space keeps: the books are sound, and from some
virtual page on every mapping of this space is the only one of its page. That is what lets
`deallocuvm` give pages back. None of these functions changes who maps a recorded page.
-/
import Xv6.Vm.Kernel
import Xv6.Vm.Tables
import Xv6.Lib.Ledger

namespace Xv6.Vm
open Lib Function
set_option autoImplicit false

/-- A process, or the directory under construction. -/
abbrev Who := Option Slot

inductive Owner where
  | kstack (i : Slot)
  | dir (w : Who)
  | table (w : Who) (i : Fin NPDENTRIES)
  | hand
  deriving DecidableEq

abbrev User := Who × Nat

structure Env where
  layout : Layout
  free : List Nat
  doubled : Bool
  hand : Option Nat
  kstack : Slot → Option Nat
  dirs : Who → Option PgDir
  record : Fin NSHPAGE → Nat
  /-- who maps which recorded page -/
  sharing : User → Fin NSHPAGE → Prop

namespace Env

def own (E : Env) : Owner → Option Nat
  | .kstack i => E.kstack i
  | .dir w => (E.dirs w).map PgDir.page
  | .table w i => (E.dirs w).bind fun d => (d.tab i).map PageTable.page
  | .hand => E.hand

/-- Only the mappings below `KERNBASE` are the user's. -/
def user (E : Env) (u : User) : Option Nat :=
  if u.2 < KERNPAGE then (E.dirs u.1).bind fun d => pageAt d u.2 else none

def books (E : Env) : Ledger Nat Owner User (Fin NSHPAGE) :=
  ⟨E.free, E.own, E.user, E.record⟩

structure Sound (E : Env) : Prop where
  books : E.books.Sound
  clean : E.doubled = false
  linked : E.layout.Ok
  shared : ∀ u r, E.user u = some (E.record r) ↔ E.sharing u r

/-- The space `s` in the place of `w`. -/
def place (E : Env) (w : Who) (s : Space) : Env :=
  { E with
    layout := s.mem.layout
    free := s.mem.free
    doubled := s.mem.doubled
    dirs := update E.dirs w (some s.dir) }

def withHand (E : Env) (h : Option Nat) : Env := { E with hand := h }

variable {E : Env} {w : Who} {s : Space} {v x : Nat} {pte : Pte} (h : Option Nat)

@[simp] theorem place_withHand : (E.withHand h).place w s = (E.place w s).withHand h := rfl

theorem withHand_self (same : E.hand = h) : E.withHand h = E := by
  subst same
  rfl

theorem place_user (v : Nat) :
    (E.place w s).user (w, v) = if v < KERNPAGE then pageAt s.dir v else none := by
  simp [user, place]

theorem place_user_other {u : User} (other : u.1 ≠ w) : (E.place w s).user u = E.user u := by
  simp [user, place, other]

theorem own_withHand : (E.withHand h).own = update E.own .hand h := by
  funext o
  cases o with
  | hand => simp [own, withHand]
  | kstack i => simp [own, withHand]
  | dir w => simp [own, withHand]
  | table w i => simp [own, withHand]

/-- A store does not move the pages the tables are in. -/
theorem own_store : (E.place w (s.store v pte)).own = (E.place w s).own := by
  funext o
  cases o with
  | hand => rfl
  | kstack i => rfl
  | dir w' =>
    by_cases same : w' = w
    · simp [own, place, same, Space.store]
    · simp [own, place, same]
  | table w' i =>
    by_cases same : w' = w
    · simp [own, place, same, Space.store, store_tab_page]
    · simp [own, place, same]

/-- A store below `KERNBASE` changes the mapping of its page. -/
theorem user_store (inV : v < KERNPAGE) (there : (s.dir.tab (pdx v)).isSome) :
    (E.place w (s.store v pte)).user =
      update (E.place w s).user (w, v) (if pte.p then some pte.ppn else none) := by
  have small := kernpage_le_vpages
  funext place
  obtain ⟨w', u⟩ := place
  by_cases same : w' = w
  · subst same
    rw [place_user]
    by_cases inU : u < KERNPAGE
    · rw [if_pos inU, Space.store, pageAt_store (inU.trans_le small) (inV.trans_le small) there]
      by_cases page : u = v
      · simp [page]
      · simp [page, place_user, inU]
    · have page : u ≠ v := fun page => inU (page ▸ inV)
      simp [inU, page, place_user]
  · simp [user, place, same]

/-- A store above `KERNBASE` is no user's business. -/
theorem user_store_kernel (inV : v < VPAGES) (kernel : KERNPAGE ≤ v) :
    (E.place w (s.store v pte)).user = (E.place w s).user := by
  funext place
  obtain ⟨w', u⟩ := place
  by_cases same : w' = w
  · subst same
    rw [place_user, place_user]
    split
    · rename_i inU
      have dirs : pdx u ≠ pdx v := pdx_ne_of_user_kernel inU kernel inV
      unfold Space.store PgDir.store
      cases found : s.dir.tab (pdx v) with
      | none => rfl
      | some t => simp [pageAt, walkpgdir, dirs]
    · rfl
  · simp [user, place, same]

theorem own_addTable (i : Fin NPDENTRIES) (m : Mem) :
    (E.place w ⟨s.dir.addTable i x, m⟩).own =
      update (E.place w s).own (.table w i) (some x) := by
  funext o
  cases o with
  | hand => simp [own, place]
  | kstack i => simp [own, place]
  | dir w' =>
    by_cases same : w' = w
    · simp [own, place, same, PgDir.addTable]
    · simp [own, place, same]
  | table w' j =>
    by_cases same : w' = w
    · by_cases index : j = i
      · simp [own, place, same, index, PgDir.addTable]
      · have : (j : Nat) ≠ i := fun eq => index (Fin.ext eq)
        simp [own, place, same, index, this, PgDir.addTable]
    · simp [own, place, same]

theorem user_addTable {i : Nat} (absent : s.dir.tab i = none) (m : Mem) :
    (E.place w ⟨s.dir.addTable i x, m⟩).user = (E.place w s).user := by
  funext place
  obtain ⟨w', u⟩ := place
  by_cases same : w' = w
  · subst same
    rw [place_user, place_user, pageAt_addTable absent]
  · simp [user, place, same]

/-- A mapping that is alone with its page gets a page that is not recorded, or none. -/
theorem Sound.shared_update (sound : E.Sound) {u : User} {y : Option Nat}
    (alone : E.books.Alone u) (other : ∀ r, y ≠ some (E.record r)) (u' : User) (r : Fin NSHPAGE) :
    update E.user u y u' = some (E.record r) ↔ E.sharing u' r := by
  rw [← sound.shared]
  by_cases same : u' = u
  · subst same
    rw [update_self]
    constructor
    · intro recorded
      exact absurd recorded (other r)
    · intro recorded
      exact absurd rfl ((alone _ recorded).2 r)
  · rw [update_of_ne same]

/-- Owners under new names for their directories. -/
def renameOwner (σ : Equiv.Perm Who) : Equiv.Perm Owner where
  toFun
    | .kstack i => .kstack i
    | .dir w => .dir (σ w)
    | .table w i => .table (σ w) i
    | .hand => .hand
  invFun
    | .kstack i => .kstack i
    | .dir w => .dir (σ.symm w)
    | .table w i => .table (σ.symm w) i
    | .hand => .hand
  left_inv o := by cases o <;> simp
  right_inv o := by cases o <;> simp

/-- Directories change hands. Those who do must not map a recorded page. -/
theorem Sound.rename (sound : E.Sound) (σ : Equiv.Perm Who)
    (unshared : ∀ w v r, σ w ≠ w → ¬E.sharing (w, v) r) :
    { E with dirs := E.dirs ∘ σ }.Sound := by
  have users : ∀ w v, Env.user { E with dirs := E.dirs ∘ σ } (w, v) = E.user (σ w, v) :=
    fun _ _ => rfl
  refine ⟨?_, sound.clean, sound.linked, ?_⟩
  · have books : Env.books { E with dirs := E.dirs ∘ σ } =
        { E.books with
          own := E.books.own ∘ renameOwner σ
          user := E.books.user ∘ Equiv.prodCongr σ (Equiv.refl Nat) } := by
      ext1
      · rfl
      · funext o
        cases o <;> rfl
      · rfl
      · rfl
    rw [books]
    exact sound.books.rename (renameOwner σ) (Equiv.prodCongr σ (Equiv.refl Nat))
  · rintro ⟨w, v⟩ r
    rw [users]
    rw [sound.shared]
    by_cases moved : σ w = w
    · rw [moved]
    · have again : σ (σ w) ≠ σ w := fun same => moved (σ.injective same)
      exact iff_of_false (unshared (σ w) v r again) (unshared w v r moved)

end Env

/-! ## Working on one address space -/

/-- Space `s` of `w` in the books of `E`: the books are sound, every mapping from page `lo` on is
alone with its page, so are the mappings in `A`, and what lies below `lo` and in the kernel's half
translates as `base` says. -/
structure Good (E : Env) (w : Who) (lo : Nat) (A : User → Prop) (base : Nat → Option Nat)
    (s : Space) : Prop where
  sound : (E.place w s).Sound
  fresh : ∀ v, lo ≤ v → (E.place w s).books.Alone (w, v)
  kept : ∀ u, A u → (E.place w s).books.Alone u
  same : ∀ v, v < VPAGES → v < lo ∨ KERNPAGE ≤ v → pageAt s.dir v = base v

section Primitives

variable {E : Env} {w : Who} {lo : Nat} {A : User → Prop} {base : Nat → Option Nat}
  {s s' : Space} {m : Mem} {v x : Nat}

/-- Only bytes have changed. -/
theorem Good.bytes (good : Good E w lo A base s) (dir : s'.dir = s.dir)
    (layout : s'.mem.layout = s.mem.layout) (free : s'.mem.free = s.mem.free)
    (doubled : s'.mem.doubled = s.mem.doubled) : Good E w lo A base s' := by
  have same : E.place w s' = E.place w s := by
    simp only [Env.place, dir, layout, free, doubled]
  refine ⟨?_, ?_, ?_, ?_⟩
  · rw [same]
    exact good.sound
  · rw [same]
    exact good.fresh
  · rw [same]
    exact good.kept
  · rw [dir]
    exact good.same

/-- The first free page comes into the hand. -/
theorem Good.kalloc (good : Good E w lo A base s) (empty : E.hand = none)
    (taken : kalloc s.mem = some (x, m)) : Good (E.withHand (some x)) w lo A base ⟨s.dir, m⟩ := by
  obtain ⟨list, fields⟩ := kalloc_eq_some taken
  have books : ((E.withHand (some x)).place w ⟨s.dir, m⟩).books =
      { (E.place w s).books with
        free := m.free
        own := update (E.place w s).books.own .hand (some x) } := by
    simp only [Env.books, Env.place_withHand, Env.own_withHand]
    rfl
  refine ⟨⟨?_, ?_, ?_, good.sound.shared⟩, ?_, ?_, good.same⟩
  · rw [books]
    exact good.sound.books.take list empty
  · rw [fields]
    exact good.sound.clean
  · rw [fields]
    exact good.sound.linked
  · exact good.fresh
  · exact good.kept

/-- The page in the hand goes back. -/
theorem Good.giveHand (good : Good (E.withHand (some x)) w lo A base s)
    (freed : kfree x s.mem = .ok m) : Good (E.withHand none) w lo A base ⟨s.dir, m⟩ := by
  obtain ⟨list, doubled, layout⟩ := kfree_eq_ok freed
  have owned : ((E.withHand (some x)).place w s).books.own .hand = some x := rfl
  have notFree : x ∉ s.mem.free := good.sound.books.own_not_free owned
  have books : ((E.withHand none).place w ⟨s.dir, m⟩).books =
      { ((E.withHand (some x)).place w s).books with
        free := x :: ((E.withHand (some x)).place w s).books.free
        own := update ((E.withHand (some x)).place w s).books.own .hand none } := by
    simp only [Env.books, Env.place_withHand, Env.own_withHand, update_idem]
    ext1
    · exact list
    · rfl
    · rfl
    · rfl
  refine ⟨⟨?_, ?_, ?_, good.sound.shared⟩, ?_, ?_, good.same⟩
  · rw [books]
    exact good.sound.books.give owned
  · change m.doubled = false
    have clean : s.mem.doubled = false := good.sound.clean
    simp [doubled, clean, notFree]
  · change m.layout.Ok
    rw [layout]
    exact good.sound.linked
  · exact good.fresh
  · exact good.kept

/-- A page table is made where there was none. -/
theorem Good.walkpgdirAlloc (good : Good E w lo A base s)
    (walked : walkpgdirAlloc v s = some s') : Good E w lo A base s' := by
  rcases walkpgdirAlloc_eq_some walked with ⟨rfl, -⟩ | ⟨absent, x, m, taken, rfl⟩
  · exact good
  obtain ⟨list, fields⟩ := kalloc_eq_some taken
  let i : Fin NPDENTRIES := ⟨pdx v, pdx_lt v⟩
  have vacant : (E.place w s).books.own (.table w i) = none := by
    simp [Env.books, Env.own, Env.place, i, absent]
  have books : (E.place w ⟨s.dir.addTable (pdx v) x, m.fill x 0⟩).books =
      { (E.place w s).books with
        free := m.free
        own := update (E.place w s).books.own (.table w i) (some x) } := by
    ext1
    · rfl
    · exact Env.own_addTable i _
    · exact Env.user_addTable absent _
    · rfl
  refine ⟨⟨?_, ?_, ?_, ?_⟩, ?_, ?_, ?_⟩
  · rw [books]
    exact good.sound.books.take list vacant
  · rw [fields]
    exact good.sound.clean
  · rw [fields]
    exact good.sound.linked
  · rw [Env.user_addTable absent]
    exact good.sound.shared
  · rw [books]
    exact good.fresh
  · rw [books]
    exact good.kept
  · intro u inU where_
    rw [pageAt_addTable absent]
    exact good.same u inU where_

theorem Good.same_store {pte : Pte} (good : Good E w lo A base s) (above : lo ≤ v)
    (inV : v < KERNPAGE) (there : (s.dir.tab (pdx v)).isSome) (u : Nat) (inU : u < VPAGES)
    (where_ : u < lo ∨ KERNPAGE ≤ u) : pageAt (s.dir.store v pte) u = base u := by
  have small := kernpage_le_vpages
  rw [pageAt_store inU (inV.trans_le small) there, if_neg (by omega)]
  exact good.same u inU where_

/-- The page in the hand is mapped, at a page from `lo` on. -/
theorem Good.mapHand (good : Good (E.withHand (some x)) w lo A base s) (above : lo ≤ v)
    (inV : v < KERNPAGE) (there : (s.dir.tab (pdx v)).isSome) (others : ∀ u, A u → u ≠ (w, v))
    (perm : Perm) :
    Good (E.withHand none) w lo A base (s.store v ⟨x, true, perm.w, perm.u⟩) := by
  have owned : ((E.withHand (some x)).place w s).books.own .hand = some x := rfl
  have books : ((E.withHand none).place w (s.store v ⟨x, true, perm.w, perm.u⟩)).books =
      { ((E.withHand (some x)).place w s).books with
        own := update ((E.withHand (some x)).place w s).books.own .hand none
        user := update ((E.withHand (some x)).place w s).books.user (w, v) (some x) } := by
    ext1
    · rfl
    · change ((E.withHand none).place w _).own = update ((E.withHand _).place w s).own _ _
      rw [Env.own_store, Env.place_withHand, Env.place_withHand, Env.own_withHand,
        Env.own_withHand, update_idem]
    · exact Env.user_store inV there
    · rfl
  refine ⟨⟨?_, good.sound.clean, good.sound.linked, ?_⟩, ?_, ?_, ?_⟩
  · rw [books]
    exact good.sound.books.mapOwned owned (w, v)
  · rw [Env.user_store inV there]
    refine good.sound.shared_update (good.fresh v above) fun r recorded => ?_
    exact good.sound.books.record_not_own r .hand recorded
  · intro u aboveU
    rw [books]
    by_cases same : u = v
    · subst same
      exact good.sound.books.alone_mapOwned owned (w, u) _
    · exact good.sound.books.alone_of_mapOwned owned (good.fresh u aboveU) (by simp [same]) _
  · intro u inA
    rw [books]
    exact good.sound.books.alone_of_mapOwned owned (good.kept u inA) (others u inA) _
  · exact good.same_store above inV there

/-- A mapping from `lo` on goes, and its page goes back. -/
theorem Good.reap (good : Good E w lo A base s) (above : lo ≤ v) (inV : v < KERNPAGE)
    (mapped : pageAt s.dir v = some x) (freed : kfree x s.mem = .ok m) :
    Good E w lo A base (Space.store ⟨s.dir, m⟩ v .zero) := by
  obtain ⟨list, doubled, layout⟩ := kfree_eq_ok freed
  have used : (E.place w s).books.user (w, v) = some x := by
    change (E.place w s).user (w, v) = some x
    rw [Env.place_user, if_pos inV, mapped]
  have notFree : x ∉ s.mem.free := good.sound.books.user_not_free used
  have there : (s.dir.tab (pdx v)).isSome := by
    obtain ⟨pte, walked, -⟩ := pageAt_eq_some mapped
    rw [← walkpgdir_isSome, walked]
    rfl
  have books : (E.place w (Space.store ⟨s.dir, m⟩ v .zero)).books =
      { (E.place w s).books with
        free := x :: (E.place w s).books.free
        user := update (E.place w s).books.user (w, v) none } := by
    ext1
    · exact list
    · exact Env.own_store
    · exact Env.user_store (s := ⟨s.dir, m⟩) inV there
    · rfl
  have fewer : ∀ u y, update (E.place w s).books.user (w, v) none u = some y →
      (E.place w s).books.user u = some y := by
    intro u y uses
    by_cases same : u = (w, v)
    · simp [same] at uses
    · simpa [same] using uses
  refine ⟨⟨?_, ?_, ?_, ?_⟩, ?_, ?_, ?_⟩
  · rw [books]
    exact good.sound.books.reap used (good.fresh v above)
  · change m.doubled = false
    have clean : s.mem.doubled = false := good.sound.clean
    simp [doubled, clean, notFree]
  · change m.layout.Ok
    rw [layout]
    exact good.sound.linked
  · rw [Env.user_store (s := ⟨s.dir, m⟩) inV there]
    refine good.sound.shared_update (good.fresh v above) fun r recorded => ?_
    cases recorded
  · intro u aboveU
    rw [books]
    exact (good.fresh u aboveU).mono fewer rfl
  · intro u inA
    rw [books]
    exact (good.kept u inA).mono fewer rfl
  · exact good.same_store above inV there

end Primitives

end Xv6.Vm
