/-
# Xv6.Vm.Segments -- shared-memory segments and their pages

A slot of the shared-memory table with a non-zero id is a segment: it has a page of its own, and
`nAccess` counts the page-table entries that map it. This holds in every state of a run in which
torn-down mappings are private and the two calls are used properly: `openshmem` not with id 0 and not
without memory, `closeshmem` only by a process whose last opened address still maps the segment's page.

* `segment_identity`: a successful open maps the page that was allocated for this segment and is
  nobody else's; while that page stays mapped, a later open maps it again exactly if it is of the
  same id.

What goes wrong otherwise: id 0 is also the mark of a free slot (`open_zero_maps_page_zero`).
-/
import Xv6.Lib.Count
import Xv6.Vm.Safety

namespace Xv6.Vm
open Lib
set_option autoImplicit false

/-! ## Counting mappings -/

/-- The user entries of all page tables. -/
def Kernel.entry (k : Kernel) (u : Slot × Fin KERNPAGE) : Option Nat := k.page u.1 u.2

/-- The number of user mappings of a page. -/
def Kernel.mappings (k : Kernel) (x : Nat) : Nat := (holders k.entry x).card

section Counting

variable {k k' : Kernel} {i : Slot} {v x : Nat}

theorem page_lt (mapped : k.page i v = some x) : v < KERNPAGE := by
  unfold Kernel.page at mapped
  split at mapped
  · assumption
  · cases mapped

theorem entry_update {c : Option Nat} (inV : v < KERNPAGE)
    (page : ∀ l u, k'.page l u = if l = i ∧ u = v then c else k.page l u) :
    k'.entry = Function.update k.entry (i, ⟨v, inV⟩) c := by
  funext place
  obtain ⟨l, u⟩ := place
  rw [Kernel.entry, page]
  by_cases here : l = i ∧ (u : Nat) = v
  · obtain ⟨rfl, rfl⟩ := here
    simp
  · have other : (l, u) ≠ (i, ⟨v, inV⟩) := by
      intro eq
      injection eq with slot place
      exact here ⟨slot, congrArg Fin.val place⟩
    rw [if_neg here, Function.update_of_ne other]
    rfl

theorem mappings_congr (same : ∀ l u, k'.page l u = some x ↔ k.page l u = some x) :
    k'.mappings x = k.mappings x := by
  have places : holders k'.entry x = holders k.entry x := holders_congr fun u => same u.1 u.2
  rw [Kernel.mappings, places, Kernel.mappings]

theorem mappings_eq_zero : k.mappings x = 0 ↔ ∀ l u, k.page l u ≠ some x := by
  rw [Kernel.mappings, card_holders_eq_zero]
  constructor
  · intro unmapped l u mapped
    exact unmapped (l, ⟨u, page_lt mapped⟩) mapped
  · intro unmapped u
    exact unmapped u.1 u.2

end Counting

/-! ## Segments -/

/-- What holds of the shared-memory table when its calls are used properly. -/
structure Segments (k : Kernel) : Prop where
  ids : ∀ r r', (k.shm r).id ≠ 0 → (k.shm r').id = (k.shm r).id → r' = r
  apart : ∀ r r', (k.shm r).id ≠ 0 → (k.shm r').phys = (k.shm r).phys → r' = r
  got : ∀ r, (k.shm r).id ≠ 0 → (k.shm r).got = some ((k.shm r).id, (k.shm r).phys)
  idle : ∀ r, (k.shm r).id = 0 → (k.shm r).nAccess = 0
  count_le : ∀ r, (k.shm r).id ≠ 0 → (k.mappings (k.shm r).phys : Int) ≤ (k.shm r).nAccess
  count_eq : k.shmHeld = false → ∀ r, (k.shm r).id ≠ 0 →
    (k.mappings (k.shm r).phys : Int) = (k.shm r).nAccess

/-- The calls are used properly. `openshmem`: not with id 0, which marks the free slots, and when
it has to make a segment there is a page for it. `closeshmem`: where the caller opened last, it
still maps the page of the segment it closes. -/
def Proper (k : Kernel) : Event → Prop
  | .openshmem _ id => id ≠ 0 ∧ (findShm k id = none → findShm k 0 ≠ none → k.mem.free ≠ [])
  | .closeshmem i id => ∀ j, findShm k id = some j →
      id ≠ 0 ∧ k.page i (k.lastOpened i) = some (k.shm j).phys
  | .fork _ | .sbrk _ _ | .exec _ _ _ _ | .exit _ | .wait _ _ => True

section Steps

variable {S : User → Fin NSHPAGE → Prop} {k k' k₁ : Kernel} {i : Slot} {id : Int}
  {j : Fin NSHPAGE} {e : ShPage} {x : Nat}

/-- Table and mappings as they were. -/
theorem Segments.same (segments : Segments k) (shm : k'.shm = k.shm)
    (held : k'.shmHeld = false → k.shmHeld = false)
    (page : ∀ r l u, k'.page l u = some (k.shm r).phys ↔ k.page l u = some (k.shm r).phys) :
    Segments k' := by
  have count : ∀ r, k'.mappings (k.shm r).phys = k.mappings (k.shm r).phys :=
    fun r => mappings_congr (page r)
  refine ⟨?_, ?_, ?_, ?_, ?_, ?_⟩
  · rw [shm]
    exact segments.ids
  · rw [shm]
    exact segments.apart
  · rw [shm]
    exact segments.got
  · rw [shm]
    exact segments.idle
  · intro r inUse
    rw [shm] at inUse ⊢
    rw [count]
    exact segments.count_le r inUse
  · intro isFree r inUse
    rw [shm] at inUse ⊢
    rw [count]
    exact segments.count_eq (held isFree) r inUse

/-- A quiet step leaves the mappings of recorded pages. -/
theorem Quiet.page_shared (quiet : Quiet S k k') (inv : Inv S k) (r : Fin NSHPAGE) (l : Slot)
    (u : Nat) : k'.page l u = some (k.shm r).phys ↔ k.page l u = some (k.shm r).phys := by
  have before := inv.sound.shared (some l, u) r
  have after := quiet.inv.sound.shared (some l, u) r
  rw [show (k'.env S).record r = (k.shm r).phys from by rw [← quiet.shm]; rfl] at after
  exact after.trans before.symm

theorem Quiet.segments (quiet : Quiet S k k') (inv : Inv S k) (segments : Segments k) :
    Segments k' :=
  segments.same quiet.shm (fun isFree => quiet.held ▸ isFree) (quiet.page_shared inv)

theorem SameSpaces.page (same : SameSpaces k k') (l : Slot) (u : Nat) :
    k'.page l u = k.page l u := by
  simp only [Kernel.page, same.pgdir]

/-- A claimed slot stands for its id, and for no page of another slot. -/
structure Ready (k : Kernel) (id : Int) (j : Fin NSHPAGE) (e : ShPage) (x : Nat) : Prop where
  named : e.id = id
  phys : e.phys = x
  got : e.got = some (id, x)
  count : e.nAccess = (k.shm j).nAccess + 1
  only : ∀ r, r ≠ j → (k.shm r).id ≠ id
  apart : ∀ r, r ≠ j → (k.shm r).phys ≠ x
  count_le : (k.mappings x : Int) ≤ (k.shm j).nAccess
  count_eq : k.shmHeld = false → (k.mappings x : Int) = (k.shm j).nAccess

theorem Claim.ready (claim : Claim k id j k₁ e) (inv : Inv S k) (segments : Segments k)
    (nonzero : id ≠ 0) : Ready k id j e (k₁.shm j).phys := by
  cases claim with
  | found hit =>
    have isId := findShm_spec hit
    have inUse : (k.shm j).id ≠ 0 := isId ▸ nonzero
    rw [Kernel.setShm_shm, if_pos rfl]
    refine ⟨isId, rfl, ?_, rfl, ?_, ?_, segments.count_le j inUse, fun isFree =>
      segments.count_eq isFree j inUse⟩
    · exact isId ▸ segments.got j inUse
    · intro r other same
      exact other (segments.ids j r inUse (same.trans isId.symm))
    · intro r other same
      exact other (segments.apart j r inUse same)
  | created miss slot taken =>
    rename_i x m
    obtain ⟨unmapped, unrecorded⟩ := inv.fresh taken
    have none_ : k.mappings x = 0 := mappings_eq_zero.mpr unmapped
    have idle := segments.idle j (findShm_spec slot)
    refine ⟨rfl, by simp, by simp, rfl, ?_, ?_, ?_, ?_⟩
    · intro r _
      exact findShm_eq_none.mp miss r
    · intro r _
      simpa using unrecorded r
    · simp [none_, idle]
    · intro _
      simp [none_, idle]

/-- A slot is filled for `id`, and perhaps its page gets one more mapping. -/
theorem Ready.segments {c : Nat} {n : Int} (ready : Ready k id j e x) (segments : Segments k)
    (nonzero : id ≠ 0) (shm : ∀ r, k'.shm r = if r = j then { e with nAccess := n } else k.shm r)
    (here : k'.mappings x = c) (others : ∀ y, y ≠ x → k'.mappings y = k.mappings y)
    (le : (c : Int) ≤ n) (eq : k'.shmHeld = false → (c : Int) = n ∧ k.shmHeld = false) :
    Segments k' := by
  have slot : k'.shm j = { e with nAccess := n } := by
    rw [shm, if_pos rfl]
  have rest : ∀ r, r ≠ j → k'.shm r = k.shm r := by
    intro r other
    rw [shm, if_neg other]
  -- slot `j` has a value that no other slot has
  have only : ∀ {α : Type} (view : ShPage → α), (∀ r, r ≠ j → view (k.shm r) ≠ view (k'.shm j)) →
      (∀ r r', (k.shm r).id ≠ 0 → view (k.shm r') = view (k.shm r) → r' = r) →
      ∀ r r', (k'.shm r).id ≠ 0 → view (k'.shm r') = view (k'.shm r) → r' = r := by
    intro α view differs before r r' inUse same
    by_cases isJ : r = j
    · by_contra other
      rw [isJ] at same other
      exact differs r' other (rest r' other ▸ same)
    · rw [rest r isJ] at inUse same
      by_cases isJ' : r' = j
      · exact absurd (isJ' ▸ same).symm (differs r isJ)
      · exact before r r' inUse (rest r' isJ' ▸ same)
  refine ⟨only ShPage.id ?_ segments.ids, only ShPage.phys ?_ segments.apart, ?_, ?_, ?_, ?_⟩
  · rw [slot, ready.named]
    exact ready.only
  · rw [slot, ready.phys]
    exact ready.apart
  · intro r inUse
    by_cases isJ : r = j
    · rw [isJ, slot]
      rw [ready.got, ready.named, ready.phys]
    · rw [rest r isJ] at inUse ⊢
      exact segments.got r inUse
  · intro r isIdle
    by_cases isJ : r = j
    · rw [isJ, slot] at isIdle
      exact absurd (ready.named.symm.trans isIdle) nonzero
    · rw [rest r isJ] at isIdle ⊢
      exact segments.idle r isIdle
  · intro r inUse
    by_cases isJ : r = j
    · rw [isJ, slot]
      rw [ready.phys, here]
      exact le
    · rw [rest r isJ] at inUse ⊢
      rw [others _ (ready.apart r isJ)]
      exact segments.count_le r inUse
  · intro isFree r inUse
    obtain ⟨counted, before⟩ := eq isFree
    by_cases isJ : r = j
    · rw [isJ, slot]
      rw [ready.phys, here]
      exact counted
    · rw [rest r isJ] at inUse ⊢
      rw [others _ (ready.apart r isJ)]
      exact segments.count_eq before r inUse

theorem Claim.procs (claim : Claim k id j k₁ e) : k₁.procs = k.procs := by
  cases claim <;> rfl

theorem Claim.page (claim : Claim k id j k₁ e) (l : Slot) (u : Nat) : k₁.page l u = k.page l u := by
  simp only [Kernel.page, claim.procs]

theorem Claim.shm (claim : Claim k id j k₁ e) (r : Fin NSHPAGE) :
    k₁.shm r = if r = j then { e with nAccess := (k₁.shm j).nAccess } else k.shm r := by
  cases claim <;> by_cases same : r = j <;> simp [same]

theorem Claim.nAccess_le (claim : Claim k id j k₁ e) : (k.shm j).nAccess ≤ (k₁.shm j).nAccess := by
  cases claim <;> simp

/-- One more mapping of `x`. -/
theorem mappings_add {v : Nat} (inV : v < KERNPAGE) (vacant : k.page i v = none)
    (page : ∀ l u, k'.page l u = if l = i ∧ u = v then some x else k.page l u) :
    k'.mappings x = k.mappings x + 1 ∧ ∀ y, y ≠ x → k'.mappings y = k.mappings y := by
  have update := entry_update inV page
  have before : k.entry (i, ⟨v, inV⟩) = none := vacant
  unfold Kernel.mappings
  rw [update]
  refine ⟨card_holders_fill before, fun y other => ?_⟩
  rw [holders_update_other (by simp [before]) (by simpa using other.symm)]

/-- One mapping of `x` less. -/
theorem mappings_remove {v : Nat} (mapped : k.page i v = some x)
    (page : ∀ l u, k'.page l u = if l = i ∧ u = v then none else k.page l u) :
    k'.mappings x + 1 = k.mappings x ∧ ∀ y, y ≠ x → k'.mappings y = k.mappings y := by
  have update := entry_update (page_lt mapped) page
  have before : k.entry (i, ⟨v, page_lt mapped⟩) = some x := mapped
  unfold Kernel.mappings
  rw [update]
  refine ⟨card_holders_empty before, fun y other => ?_⟩
  rw [holders_update_other (by simpa [before] using other.symm) (by simp)]

theorem Opened.segments {r : Option Nat} (opened : Opened k i id k' r) (inv : Inv S k)
    (segments : Segments k) (held : k.shmHeld = false) (proper : Proper k (.openshmem i id)) :
    Segments k' := by
  obtain ⟨nonzero, memory⟩ := proper
  cases opened with
  | full miss noSlot same => exact same ▸ segments
  | noPage j miss slot empty shape => exact absurd empty (memory miss (by simp [slot]))
  | noTable j k₁ e claim empty shape =>
    have ready := claim.ready inv segments nonzero
    have page : ∀ l u, k'.page l u = k.page l u := by
      intro l u
      rw [shape]
      exact claim.page l u
    have count : ∀ y, k'.mappings y = k.mappings y :=
      fun y => mappings_congr fun l u => by rw [page]
    refine ready.segments segments nonzero (n := (k₁.shm j).nAccess) ?_ rfl (fun y _ => count y)
      ?_ ?_
    · intro r
      rw [shape]
      exact claim.shm r
    · rw [count]
      exact ready.count_le.trans claim.nAccess_le
    · intro isFree
      rw [shape] at isFree
      cases isFree
  | mapped j k₁ e S₁ claim attached shm _ =>
    have ready := claim.ready inv segments nonzero
    have vacant : k.page i (pages (k₁.procs i).sz) = none := by
      rw [← claim.page]
      exact attached.fresh
    have page : ∀ l u, k'.page l u =
        if l = i ∧ u = pages (k₁.procs i).sz then some (k₁.shm j).phys else k.page l u := by
      intro l u
      rw [attached.page, claim.page]
    obtain ⟨here, others⟩ := mappings_add attached.room vacant page
    refine ready.segments segments nonzero (n := e.nAccess) shm here others ?_ ?_
    · have le := ready.count_le
      have count := ready.count
      omega
    · intro _
      have eq := ready.count_eq held
      have count := ready.count
      refine ⟨?_, held⟩
      omega

/-- After a proper close the slot has one mapping less and the count with it. -/
theorem Closed.counts (closed : Closed k i id j k') (proper : Proper k (.closeshmem i id)) :
    k'.mappings (k.shm j).phys + 1 = k.mappings (k.shm j).phys ∧
      ∀ y, y ≠ (k.shm j).phys → k'.mappings y = k.mappings y :=
  mappings_remove (proper j closed.hit).2 closed.page

/-- A close recycles a slot or leaves its id. -/
theorem Closed.shm_id (closed : Closed k i id j k') (r : Fin NSHPAGE) :
    (k'.shm r).id = 0 ∨ (k'.shm r).id = (k.shm r).id := by
  rw [closed.shm]
  by_cases isJ : r = j
  · rw [if_pos isJ, isJ]
    split <;> simp
  · rw [if_neg isJ]
    exact .inr rfl

theorem Closed.shm_phys (closed : Closed k i id j k') (r : Fin NSHPAGE) :
    (k'.shm r).phys = (k.shm r).phys := by
  rw [closed.shm]
  by_cases isJ : r = j <;> simp [isJ]

theorem Closed.segments (closed : Closed k i id j k') (segments : Segments k)
    (proper : Proper k (.closeshmem i id)) : Segments k' := by
  obtain ⟨here, others⟩ := closed.counts proper
  have inUse : (k.shm j).id ≠ 0 := by
    rw [findShm_spec closed.hit]
    exact (proper j closed.hit).1
  have slot := closed.shm_id
  have phys := closed.shm_phys
  have used : ∀ r, (k'.shm r).id ≠ 0 → (k.shm r).id ≠ 0 := by
    intro r inUse'
    rcases slot r with zero | same
    · exact absurd zero inUse'
    · exact same ▸ inUse'
  refine ⟨?_, ?_, ?_, ?_, ?_, ?_⟩
  · intro r r' inUse' same
    have sameR : (k'.shm r).id = (k.shm r).id := (slot r).resolve_left inUse'
    have sameR' : (k'.shm r').id = (k.shm r').id := (slot r').resolve_left (same ▸ inUse')
    exact segments.ids r r' (used r inUse') (by rw [← sameR, ← sameR', same])
  · intro r r' inUse' same
    rw [phys, phys] at same
    exact segments.apart r r' (used r inUse') same
  · intro r inUse'
    have sameR : (k'.shm r).id = (k.shm r).id := (slot r).resolve_left inUse'
    have kept : (k'.shm r).got = (k.shm r).got := by
      rw [closed.shm]
      by_cases isJ : r = j <;> simp [isJ]
    rw [sameR, phys, kept]
    exact segments.got r (used r inUse')
  · intro r isIdle
    rw [closed.shm] at isIdle ⊢
    by_cases isJ : r = j
    · rw [if_pos isJ] at isIdle ⊢
      split at isIdle
      · assumption
      · exact absurd isIdle inUse
    · rw [if_neg isJ] at isIdle ⊢
      exact segments.idle r isIdle
  · intro r inUse'
    rw [phys]
    by_cases isJ : r = j
    · have le := segments.count_le j inUse
      rw [closed.shm, if_pos isJ, isJ]
      dsimp only
      omega
    · have same : k'.shm r = k.shm r := by rw [closed.shm, if_neg isJ]
      rw [same, others _ fun eq => isJ (segments.apart j r inUse eq)]
      exact segments.count_le r (used r inUse')
  · intro isFree r inUse'
    rw [phys]
    rw [closed.held] at isFree
    by_cases isJ : r = j
    · have eq := segments.count_eq isFree j inUse
      rw [closed.shm, if_pos isJ, isJ]
      dsimp only
      omega
    · have same : k'.shm r = k.shm r := by rw [closed.shm, if_neg isJ]
      rw [same, others _ fun eq => isJ (segments.apart j r inUse eq)]
      exact segments.count_eq isFree r (used r inUse')

theorem Effect.segments {ev : Event} (effect : Effect S k ev k') (inv : Inv S k)
    (segments : Segments k) (proper : Proper k ev) : Segments k' := by
  cases effect with
  | quiet quiet full => exact quiet.segments inv segments
  | exited same held state =>
    exact segments.same same.shm (fun isFree => held ▸ isFree) fun r l u => by rw [same.page]
  | opened held opened => exact opened.segments inv segments held proper
  | closed held closed => exact closed.segments segments proper

end Steps

/-- The invariant, with the table in order. -/
def Kernel.Shared (k : Kernel) : Prop := k.Sane ∧ Segments k

variable {k : Kernel}

theorem First.segments (first : First k) : Segments k := by
  have idle : ∀ r, (k.shm r).id = 0 := fun r => by rw [first.shm]
  refine ⟨?_, ?_, ?_, ?_, ?_, ?_⟩
  · intro r _ inUse
    exact absurd (idle r) inUse
  · intro r _ inUse
    exact absurd (idle r) inUse
  · intro r inUse
    exact absurd (idle r) inUse
  · intro r _
    rw [first.shm]
  · intro r inUse
    exact absurd (idle r) inUse
  · intro _ r inUse
    exact absurd (idle r) inUse

theorem Kernel.Shared.step {k' : Kernel} {e : Event} (shared : k.Shared)
    (admitted : Unshared k e ∧ Proper k e) (stepped : step k e = some k') : k'.Shared := by
  obtain ⟨⟨S, inv⟩, segments⟩ := shared
  have effect := step_effect inv admitted.1 stepped
  exact ⟨effect.inv inv, effect.segments inv segments admitted.2⟩

theorem reach_shared {ok : Kernel → Event → Prop}
    (condition : ∀ k e, ok k e → Unshared k e ∧ Proper k e) (reached : system.Reach ok k) :
    k.Shared := by
  refine System.Reach.invariant ?_ ?_ reached
  · intro k start
    have first := Start.first start
    exact ⟨⟨_, first.inv⟩, first.segments⟩
  · intro k e k' shared admitted stepped
    exact shared.step (condition k e admitted) stepped

/-! ## Identity -/

/-- What process `i` got from opening `id` at `va`: the page `x` that `kalloc` gave for this segment.
It is not free, no part of the kernel and no other slot has it, and the mappings of it are the ones
the segment counts. -/
structure OwnPage (k : Kernel) (i : Slot) (id : Int) (va x : Nat) : Prop where
  mapped : k.page i (va / PGSIZE) = some x
  segment : ∃ j, (k.shm j).id = id ∧ (k.shm j).phys = x ∧ (k.shm j).got = some (id, x) ∧
    (∀ r, r ≠ j → (k.shm r).phys ≠ x) ∧ (k.mappings x : Int) = (k.shm j).nAccess
  notFree : x ∉ k.mem.free
  notStack : ∀ l, (k.procs l).kstack ≠ some x
  notTable : ∀ l d, (k.procs l).pgdir = some d → d.page ≠ x ∧
    ∀ (t : Fin NPDENTRIES) tab, d.tab t = some tab → tab.page ≠ x

/-- The condition for identity. -/
def Used (k : Kernel) (e : Event) : Prop := Unshared k e ∧ Proper k e

/-- A run under a condition during which page `x` is mapped by some process all the time. -/
inductive Stays (ok : Kernel → Event → Prop) (x : Nat) (k : Kernel) : Kernel → Prop where
  | refl (mapped : ∃ l u, k.page l u = some x) : Stays ok x k k
  | step {k₁ k₂ : Kernel} {e : Event} (before : Stays ok x k k₁) (admitted : ok k₁ e)
      (stepped : step k₁ e = some k₂) (mapped : ∃ l u, k₂.page l u = some x) : Stays ok x k k₂

/-- Slot `j` is the segment `id`, and `x` its page. -/
def Kernel.Segment (k : Kernel) (j : Fin NSHPAGE) (id : Int) (x : Nat) : Prop :=
  (k.shm j).id = id ∧ (k.shm j).phys = x

section Identity

variable {k k' : Kernel} {i : Slot} {id : Int} {j : Fin NSHPAGE} {va x : Nat}

theorem openshmem_step (can : k.CanCall i) {r : Option Nat} (ran : openshmem k i id = .ok (r, k')) :
    step k (.openshmem i id) = some k' := by
  refine step_of_perform can ?_
  rw [perform, ran]
  rfl

/-- A successful open: what it maps, and that no other mapping changes. -/
theorem Kernel.Shared.openshmem (shared : k.Shared) (used : Used k (.openshmem i id))
    (can : k.CanCall i) (ran : openshmem k i id = .ok (some va, k')) :
    ∃ x, OwnPage k' i id va x ∧ ∀ l u y, k.page l u = some y → k'.page l u = some y := by
  have stepped := openshmem_step can ran
  obtain ⟨⟨S', inv'⟩, segments'⟩ := shared.step used stepped
  obtain ⟨⟨S, inv⟩, segments⟩ := shared
  obtain ⟨held, opened⟩ := openshmem_cases inv ran
  obtain ⟨d, hasDir⟩ := inv.dir can
  have bound := ((inv.procs i).sized d hasDir).bound
  generalize isVa : some va = result at opened
  cases opened with
  | full | noPage | noTable => cases isVa
  | mapped j k₁ e S₁ claim attached shm stillHeld =>
    have isVa : va = pgroundup (k.procs i).sz := Option.some.inj isVa
    have ready := claim.ready inv segments used.2.1
    have slot : k'.shm j = e := by rw [shm, if_pos rfl]
    have procs : (k₁.procs i).sz = (k.procs i).sz := by rw [claim.procs]
    have place : va / PGSIZE = pages (k₁.procs i).sz := by
      rw [isVa, pgroundup_div bound, procs]
    have mapped : k'.page i (va / PGSIZE) = some (k₁.shm j).phys := by
      rw [attached.page, if_pos ⟨rfl, place⟩]
    have notOwned := fun o => inv'.sound.books.user_not_own (o := o) (u := (some i, _)) mapped
    refine ⟨(k₁.shm j).phys, ⟨mapped, ⟨j, ?_, ?_, ?_, ?_, ?_⟩, ?_, ?_, ?_⟩, ?_⟩
    · rw [slot, ready.named]
    · rw [slot, ready.phys]
    · rw [slot, ready.got]
    · intro r other
      rw [shm, if_neg other]
      exact ready.apart r other
    · have inUse : (k'.shm j).id ≠ 0 := by
        rw [slot, ready.named]
        exact used.2.1
      have count := segments'.count_eq (stillHeld.trans held) j inUse
      rwa [show (k'.shm j).phys = (k₁.shm j).phys by rw [slot, ready.phys]] at count
    · exact inv'.sound.books.user_not_free (u := (some i, _)) mapped
    · intro l owned
      exact notOwned (.kstack l) owned
    · intro l d found
      refine ⟨fun owned => notOwned (.dir (some l)) ?_, fun t tab there owned =>
        notOwned (.table (some l) t) ?_⟩
      · simp [Env.books, Env.own, Kernel.env, found, owned]
      · simp [Env.books, Env.own, Kernel.env, found, there, owned]
    · intro l u y before
      rw [attached.page]
      split
      · rename_i here
        obtain ⟨rfl, rfl⟩ := here
        have vacant := attached.fresh
        rw [claim.page, before] at vacant
        cases vacant
      · rw [claim.page, before]

/-- While its page stays mapped a segment stays. -/
theorem Kernel.Shared.segment_step {e : Event} (shared : k.Shared) (used : Used k e)
    (stepped : Vm.step k e = some k') (nonzero : id ≠ 0) (segment : k.Segment j id x)
    (mapped : ∃ l u, k'.page l u = some x) : k'.Segment j id x := by
  obtain ⟨⟨S, inv⟩, segments⟩ := shared
  obtain ⟨isId, isX⟩ := segment
  have inUse : (k.shm j).id ≠ 0 := isId ▸ nonzero
  cases step_effect inv used.1 stepped with
  | quiet quiet full => exact ⟨by rw [quiet.shm, isId], by rw [quiet.shm, isX]⟩
  | exited same held state => exact ⟨by rw [same.shm, isId], by rw [same.shm, isX]⟩
  | opened held opened =>
    have claimed : ∀ {j' k₁ e id'}, Claim k id' j' k₁ e →
        (if j = j' then e else k.shm j).id = id ∧ (if j = j' then e else k.shm j).phys = x ∧
          (k₁.shm j).id = id ∧ (k₁.shm j).phys = x := by
      intro j' k₁ e id' claim
      cases claim with
      | found hit => by_cases same : j = j' <;> simp [same, ← isId, ← isX]
      | created miss slot taken =>
        have other : j ≠ j' := fun same => inUse (same ▸ findShm_spec slot)
        simp [other, isId, isX]
    cases opened with
    | full miss noSlot same => exact same ▸ ⟨isId, isX⟩
    | noPage j' miss slot empty shape => exact absurd empty (used.2.2 miss (by simp [slot]))
    | noTable j' k₁ e claim empty shape => exact shape ▸ (claimed claim).2.2
    | mapped j' k₁ e S₁ claim attached shm stillHeld =>
      obtain ⟨named, phys, -⟩ := claimed claim
      exact ⟨by rw [shm, named], by rw [shm, phys]⟩
  | closed held closed =>
    rename_i i' id' j'
    by_cases same : j = j'
    · obtain ⟨here, -⟩ := closed.counts used.2
      have count := segments.count_eq held j inUse
      rw [← same] at here
      have some_ : k'.mappings (k.shm j).phys ≠ 0 := by
        rw [isX]
        intro zero
        obtain ⟨l, u, still⟩ := mapped
        exact mappings_eq_zero.mp zero l u still
      have more : (k.shm j).nAccess - 1 ≠ 0 := by omega
      refine ⟨?_, ?_⟩
      · rw [closed.shm, if_pos same, ← same]
        simp [more, isId]
      · rw [closed.shm, if_pos same, ← same]
        simp [isX]
    · exact ⟨by rw [closed.shm, if_neg same, isId], by rw [closed.shm, if_neg same, isX]⟩

theorem Stays.segment {k₂ : Kernel} (stays : Stays Used x k k₂) (shared : k.Shared)
    (nonzero : id ≠ 0) (segment : k.Segment j id x) :
    k₂.Shared ∧ k₂.Segment j id x ∧ ∃ l u, k₂.page l u = some x := by
  induction stays with
  | refl mapped => exact ⟨shared, segment, mapped⟩
  | step before admitted stepped mapped ih =>
    obtain ⟨sharedB, segmentB, -⟩ := ih
    exact ⟨sharedB.step admitted stepped,
      sharedB.segment_step admitted stepped nonzero segmentB mapped, mapped⟩

end Identity

/-- **Segment identity.** In every run of proper calls a successful open maps the page allocated for
its segment, which is nobody else's. While that page stays mapped, a later successful open maps the
same page if it is of the same id, and another page if it is of another id. -/
theorem segment_identity {k k' : Kernel} {i : Slot} {id : Int} {va : Nat}
    (reached : system.Reach Used k) (used : Used k (.openshmem i id)) (can : k.CanCall i)
    (ran : openshmem k i id = .ok (some va, k')) :
    ∃ x, OwnPage k' i id va x ∧ ∀ k₂ i₂ id₂ va₂ k₃, Stays Used x k' k₂ →
      Used k₂ (.openshmem i₂ id₂) → k₂.CanCall i₂ → openshmem k₂ i₂ id₂ = .ok (some va₂, k₃) →
      ∃ y, OwnPage k₃ i₂ id₂ va₂ y ∧ (y = x ↔ id₂ = id) := by
  have shared := reach_shared (fun _ _ used => used) reached
  obtain ⟨x, own, -⟩ := shared.openshmem used can ran
  refine ⟨x, own, ?_⟩
  intro k₂ i₂ id₂ va₂ k₃ stays used₂ can₂ ran₂
  obtain ⟨j, isId, isX, -⟩ := own.segment
  have nonzero : id ≠ 0 := used.2.1
  obtain ⟨shared₂, segment₂, l, u, mapped⟩ :=
    stays.segment (shared.step used (openshmem_step can ran)) nonzero ⟨isId, isX⟩
  obtain ⟨y, own₂, kept⟩ := shared₂.openshmem used₂ can₂ ran₂
  have stepped₂ := openshmem_step can₂ ran₂
  obtain ⟨named, phys⟩ :=
    shared₂.segment_step used₂ stepped₂ nonzero segment₂ ⟨l, u, kept l u x mapped⟩
  obtain ⟨-, segments₃⟩ := shared₂.step used₂ stepped₂
  obtain ⟨j₂, isId₂, isY, -⟩ := own₂.segment
  have inUse : (k₃.shm j).id ≠ 0 := named ▸ nonzero
  refine ⟨y, own₂, fun same => ?_, fun same => ?_⟩
  · have slot := segments₃.apart j j₂ inUse (by rw [isY, phys, same])
    rw [← isId₂, slot, named]
  · have slot := segments₃.ids j j₂ inUse (by rw [isId₂, named, same])
    rw [← isY, slot, phys]

/-- The first segment of the first process. -/
theorem segment_identity_firstOpen : ∃ k k' va x, Start k ∧ openshmem k 0 5 = .ok (some va, k') ∧
    OwnPage k' 0 5 va x := by
  obtain ⟨k, start, first⟩ := exists_first
  obtain ⟨k', ran⟩ := first.opens 5
  have used : Used k (.openshmem 0 5) := by
    refine ⟨trivial, by decide, fun _ _ empty => ?_⟩
    simpa [empty] using first.plenty
  obtain ⟨x, own, -⟩ := segment_identity (.start start) used first.solo.can ran
  exact ⟨k, k', _, x, start, ran, own⟩

/-- Id 0 is the mark of the free slots: opening it finds one, and maps whatever page that slot
recorded last, in the beginning physical page 0. -/
theorem open_zero_maps_page_zero : ∃ k k' va, system.Reachable k ∧ k.CanCall 0 ∧
    openshmem k 0 0 = .ok (some va, k') ∧ k'.page 0 (va / PGSIZE) = some 0 ∧
    ∀ x, ¬OwnPage k' 0 0 va x := by
  obtain ⟨k, start, first⟩ := exists_first
  have slot : findShm k 0 = some 0 := findShm_zero (by rw [first.shm])
  have size := first.first.2.1
  obtain ⟨k', ran⟩ := first.opens 0
  refine ⟨k, k', _, .start start, first.solo.can, ran, ?_⟩
  obtain ⟨-, opened⟩ := openshmem_cases first.inv ran
  cases opened with
  | mapped j k₁ e S₁ claim attached shm held =>
    cases claim with
    | created miss _ _ => simp [slot] at miss
    | found hit =>
      constructor
      · have here : pgroundup (k.procs 0).sz / PGSIZE = pages (k.procs 0).sz :=
          pgroundup_div (by rw [size]; decide)
        rw [attached.page, if_pos ⟨rfl, here⟩]
        simp [first.shm]
      · intro x own
        obtain ⟨r, -, -, got, -⟩ := own.segment
        rw [shm] at got
        by_cases same : r = j <;> simp [same, first.shm] at got

end Xv6.Vm
