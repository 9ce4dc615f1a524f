/-
# Xv6.Lib.Ledger -- who has which page

The books of a page allocator. A page is free, or has exactly one owner, or is mapped, by any
number of users, and it may be recorded under a name so that more users can map it later. The books
are sound when the free pages are listed once, an owned page has one owner and is neither free nor
mapped nor recorded, and no mapped or recorded page is free.

Soundness survives every way a page can change hands (`take`, `give`, `move`, `mapOwned`, `record`,
`share`, `unmap`), and one more: a mapped page may be given back when its user is the only one and
no record names it (`Alone`, `reap`).
-/
import Mathlib.Tactic

namespace Xv6.Lib
open Function

set_option autoImplicit false
set_option linter.unusedSectionVars false

/-- Pages `P`, owners `O`, users `U`, records `R`. -/
@[ext]
structure Ledger (P O U R : Type) where
  free : List P
  own : O → Option P
  user : U → Option P
  record : R → P

namespace Ledger

variable {P O U R : Type} [DecidableEq O] [DecidableEq U] [DecidableEq R]

structure Sound (L : Ledger P O U R) : Prop where
  nodup : L.free.Nodup
  own_unique : ∀ {o o' x}, L.own o = some x → L.own o' = some x → o = o'
  own_not_free : ∀ {o x}, L.own o = some x → x ∉ L.free
  user_not_free : ∀ {u x}, L.user u = some x → x ∉ L.free
  user_not_own : ∀ {u o x}, L.user u = some x → L.own o ≠ some x
  record_not_free : ∀ r, L.record r ∉ L.free
  record_not_own : ∀ r o, L.own o ≠ some (L.record r)

/-- The page of user `u` has no other user and no record. -/
def Alone (L : Ledger P O U R) (u : U) : Prop :=
  ∀ x, L.user u = some x → (∀ v, L.user v = some x → v = u) ∧ ∀ r, L.record r ≠ x

variable {L : Ledger P O U R}

/-- Fewer owners and users. -/
theorem Sound.mono (sound : L.Sound) {own : O → Option P} {user : U → Option P}
    (owners : ∀ o x, own o = some x → L.own o = some x)
    (users : ∀ u x, user u = some x → L.user u = some x) :
    { L with own := own, user := user }.Sound :=
  ⟨sound.nodup, fun a b => sound.own_unique (owners _ _ a) (owners _ _ b),
    fun a => sound.own_not_free (owners _ _ a), fun a => sound.user_not_free (users _ _ a),
    fun a b => sound.user_not_own (users _ _ a) (owners _ _ b), sound.record_not_free,
    fun r o a => sound.record_not_own r o (owners _ _ a)⟩

/-- Owners and users under other names. -/
theorem Sound.rename (sound : L.Sound) (owners : Equiv.Perm O) (users : Equiv.Perm U) :
    { L with own := L.own ∘ owners, user := L.user ∘ users }.Sound :=
  ⟨sound.nodup, fun a b => owners.injective (sound.own_unique a b), fun a => sound.own_not_free a,
    fun a => sound.user_not_free a, fun a b => sound.user_not_own a b, sound.record_not_free,
    fun r o => sound.record_not_own r (owners o)⟩

variable {x : P} {o : O} {u : U}

section

variable (sound : L.Sound)
include sound

/-- The first free page goes to an owner that has none. -/
theorem Sound.take {rest : List P} (list : L.free = x :: rest) (vacant : L.own o = none) :
    { L with free := rest, own := update L.own o (some x) }.Sound := by
  obtain ⟨notAgain, nodup⟩ := List.nodup_cons.mp (list ▸ sound.nodup)
  have first : x ∈ L.free := by simp [list]
  have later : ∀ {y}, y ∈ rest → y ∈ L.free := fun inside => by simp [list, inside]
  have owner : ∀ {o' y}, update L.own o (some x) o' = some y →
      (o' = o ∧ y = x) ∨ (o' ≠ o ∧ L.own o' = some y) := by
    intro o' y owned
    by_cases same : o' = o
    · subst same
      left
      simpa [eq_comm] using owned
    · right
      simpa [same] using owned
  refine ⟨nodup, ?_, ?_, ?_, ?_, ?_, ?_⟩
  · intro a b y ownsA ownsB
    rcases owner ownsA with ⟨rfl, rfl⟩ | ⟨-, before⟩ <;> rcases owner ownsB with ⟨rfl, same⟩ | ⟨-, before'⟩
    · rfl
    · exact absurd first (sound.own_not_free before')
    · exact absurd (same ▸ first) (sound.own_not_free before)
    · exact sound.own_unique before before'
  · intro a y owns
    rcases owner owns with ⟨rfl, rfl⟩ | ⟨-, before⟩
    · exact notAgain
    · exact fun inside => sound.own_not_free before (later inside)
  · exact fun uses inside => sound.user_not_free uses (later inside)
  · intro u a y uses owns
    rcases owner owns with ⟨rfl, rfl⟩ | ⟨-, before⟩
    · exact sound.user_not_free uses first
    · exact sound.user_not_own uses before
  · exact fun r inside => sound.record_not_free r (later inside)
  · intro r a owns
    rcases owner owns with ⟨rfl, same⟩ | ⟨-, before⟩
    · exact sound.record_not_free r (same ▸ first)
    · exact sound.record_not_own r a before

/-- An owner stops owning. -/
theorem Sound.drop (o : O) : { L with own := update L.own o none }.Sound := by
  refine sound.mono (fun o' y owned => ?_) fun _ _ used => used
  by_cases same : o' = o
  · simp [same] at owned
  · simpa [same] using owned

/-- A page that nobody else has after its owner dropped it. -/
theorem Sound.dropped (owned : L.own o = some x) :
    (∀ o', update L.own o none o' ≠ some x) ∧ (∀ u, L.user u ≠ some x) ∧
      (∀ r, L.record r ≠ x) ∧ x ∉ L.free := by
  refine ⟨?_, fun u uses => sound.user_not_own uses owned, fun r same => ?_, sound.own_not_free owned⟩
  · intro o' owned'
    by_cases same : o' = o
    · simp [same] at owned'
    · rw [update_of_ne same] at owned'
      exact same (sound.own_unique owned' owned)
  · exact sound.record_not_own r o (same ▸ owned)

/-- An owner returns its page. -/
theorem Sound.give (owned : L.own o = some x) :
    { L with free := x :: L.free, own := update L.own o none }.Sound := by
  obtain ⟨notOwned, notUsed, notNamed, notFree⟩ := sound.dropped owned
  have rest := sound.drop o
  refine ⟨List.nodup_cons.mpr ⟨notFree, sound.nodup⟩, rest.own_unique, ?_, ?_, rest.user_not_own,
    ?_, rest.record_not_own⟩
  · intro o' y owns inside
    rcases List.mem_cons.mp inside with rfl | inside
    · exact notOwned o' owns
    · exact rest.own_not_free owns inside
  · intro u y uses inside
    rcases List.mem_cons.mp inside with rfl | inside
    · exact notUsed u uses
    · exact sound.user_not_free uses inside
  · intro r inside
    rcases List.mem_cons.mp inside with same | inside
    · exact notNamed r same
    · exact sound.record_not_free r inside

/-- A user lets go of its page, which stays with its other users and records. -/
theorem Sound.unmap (u : U) : { L with user := update L.user u none }.Sound := by
  refine sound.mono (fun _ _ owned => owned) fun v y used => ?_
  by_cases same : v = u
  · simp [same] at used
  · simpa [same] using used

/-- A user maps a page that is neither free nor owned. -/
theorem Sound.map (u : U) (notFree : x ∉ L.free) (notOwned : ∀ o, L.own o ≠ some x) :
    { L with user := update L.user u (some x) }.Sound := by
  have uses : ∀ {v y}, update L.user u (some x) v = some y → y = x ∨ L.user v = some y := by
    intro v y used
    by_cases same : v = u
    · left
      simpa [same, eq_comm] using used
    · right
      simpa [same] using used
  refine ⟨sound.nodup, sound.own_unique, sound.own_not_free, ?_, ?_, sound.record_not_free,
    sound.record_not_own⟩
  · intro v y used
    rcases uses used with rfl | before
    · exact notFree
    · exact sound.user_not_free before
  · intro v o y used
    rcases uses used with rfl | before
    · exact notOwned o
    · exact sound.user_not_own before

/-- An owner hands its page to a user. -/
theorem Sound.mapOwned (owned : L.own o = some x) (u : U) :
    { L with
      own := update L.own o none
      user := update L.user u (some x) }.Sound := by
  obtain ⟨notOwned, -, -, notFree⟩ := sound.dropped owned
  exact (sound.drop o).map u notFree notOwned

/-- A recorded page gets one more user. -/
theorem Sound.share (r : R) (u : U) :
    { L with user := update L.user u (some (L.record r)) }.Sound :=
  sound.map u (sound.record_not_free r) fun o => sound.record_not_own r o

/-- An owner's page is recorded. What was recorded under that name before is forgotten. -/
theorem Sound.enter (owned : L.own o = some x) (r : R) :
    { L with
      own := update L.own o none
      record := update L.record r x }.Sound := by
  obtain ⟨notOwned, -, -, notFree⟩ := sound.dropped owned
  have rest := sound.drop o
  refine ⟨rest.nodup, rest.own_unique, rest.own_not_free, rest.user_not_free, rest.user_not_own,
    ?_, ?_⟩
  · intro r'
    by_cases same : r' = r
    · simpa [same] using notFree
    · simpa [same] using sound.record_not_free r'
  · intro r' o'
    by_cases same : r' = r
    · simpa [same] using notOwned o'
    · simpa [same] using rest.record_not_own r' o'

/-- A page with a single user and no record goes back. -/
theorem Sound.reap (used : L.user u = some x) (alone : L.Alone u) :
    { L with free := x :: L.free, user := update L.user u none }.Sound := by
  obtain ⟨only, notNamed⟩ := alone x used
  have rest := sound.unmap u
  refine ⟨List.nodup_cons.mpr ⟨sound.user_not_free used, sound.nodup⟩, sound.own_unique, ?_, ?_,
    rest.user_not_own, ?_, sound.record_not_own⟩
  · intro o y owns inside
    rcases List.mem_cons.mp inside with rfl | inside
    · exact sound.user_not_own used owns
    · exact sound.own_not_free owns inside
  · intro v y uses inside
    rcases List.mem_cons.mp inside with rfl | inside
    · by_cases same : v = u
      · simp [same] at uses
      · exact same (only v (by simpa [same] using uses))
    · exact rest.user_not_free uses inside
  · intro r inside
    rcases List.mem_cons.mp inside with same | inside
    · exact notNamed r same
    · exact sound.record_not_free r inside

/-! ## Users that are alone -/

/-- A page straight from an owner has one user. -/
theorem Sound.alone_mapOwned (owned : L.own o = some x) (u : U) (own : O → Option P) :
    { L with own := own, user := update L.user u (some x) }.Alone u := by
  obtain ⟨-, notUsed, notNamed, -⟩ := sound.dropped owned
  intro y used
  have same : y = x := by simpa [eq_comm] using used
  subst same
  refine ⟨fun v uses => ?_, notNamed⟩
  by_contra other
  exact notUsed v (by simpa [other] using uses)

/-- Another user's new page does not disturb a user that was alone. -/
theorem Sound.alone_of_mapOwned (owned : L.own o = some x) {v : U} (alone : L.Alone v)
    (other : v ≠ u) (own : O → Option P) :
    { L with own := own, user := update L.user u (some x) }.Alone v := by
  intro y used
  have before : L.user v = some y := by simpa [other] using used
  obtain ⟨only, notNamed⟩ := alone y before
  refine ⟨fun w uses => ?_, notNamed⟩
  by_cases same : w = u
  · have isNew : x = y := by simpa [same] using uses
    exact absurd (isNew ▸ owned) (sound.user_not_own before)
  · exact only w (by simpa [same] using uses)

end

/-- Fewer users, same records: whoever was alone still is. -/
theorem Alone.mono {L' : Ledger P O U R} (alone : L.Alone u)
    (fewer : ∀ v x, L'.user v = some x → L.user v = some x) (records : L'.record = L.record) :
    L'.Alone u := by
  intro x used
  obtain ⟨only, notNamed⟩ := alone x (fewer u x used)
  exact ⟨fun v uses => only v (fewer v x uses), fun r => records ▸ notNamed r⟩

end Ledger

end Xv6.Lib
