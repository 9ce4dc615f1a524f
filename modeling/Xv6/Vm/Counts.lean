/-
# Xv6.Vm.Counts -- reference counts of shared-memory segments

`nAccess` of a segment is the number of entries of live processes that map its page, and its slot
is recycled only when there are none. This needs more than the proper use of `Xv6.Vm.Segments`:

* two free pages at every open: if the page for the segment is there but none for a page table,
  `openshmem` has counted an access that it then does not map, and returns with `shmemtable.lock` held;
* no `exit` with a segment still mapped: nothing takes back the accesses of a process that exits.

`close_other_segment` shows why the use has to be proper. `closeshmem` counts down the segment it is
called with, but clears the entry of whatever the caller opened last.
-/
import Xv6.Vm.Segments

namespace Xv6.Vm
open Lib
set_option autoImplicit false

/-- The user entries of the processes that have not exited. -/
def Kernel.liveEntry (k : Kernel) (u : Slot × Fin KERNPAGE) : Option Nat :=
  if (k.procs u.1).state = .ZOMBIE then none else k.page u.1 u.2

/-- How many entries of live processes map physical page `x`. -/
def Kernel.liveMappings (k : Kernel) (x : Nat) : Nat := (holders k.liveEntry x).card

/-- The process maps no page of a segment. -/
def Kernel.Detached (k : Kernel) (i : Slot) : Prop :=
  ∀ r, (k.shm r).id ≠ 0 → ∀ v, k.page i v ≠ some (k.shm r).phys

/-- No open runs out of memory half way, and processes exit detached. -/
def Counted (k : Kernel) : Event → Prop
  | .openshmem _ _ => 2 ≤ k.mem.free.length
  | .exit i => k.Detached i
  | .closeshmem _ _ | .fork _ | .sbrk _ _ | .exec _ _ _ _ | .wait _ _ => True

/-- The condition for exact counts. -/
def Careful (k : Kernel) (e : Event) : Prop := Used k e ∧ Counted k e

/-- The table in order and its lock free, and the accesses are those of live processes. -/
structure Kernel.Balanced (k : Kernel) : Prop where
  shared : k.Shared
  unlocked : k.shmHeld = false
  detached : ∀ i, (k.procs i).state = .ZOMBIE → k.Detached i

section Steps

variable {S : User → Fin NSHPAGE → Prop} {k k' k₁ : Kernel} {i : Slot} {id : Int}
  {j : Fin NSHPAGE} {e : ShPage} {x : Nat}

theorem Kernel.CanCall.live (can : k.CanCall i) : (k.procs i).state ≠ .ZOMBIE := by
  intro isDead
  rcases can with state | state | state <;> simp [isDead] at state

theorem liveMappings_eq_zero : k.liveMappings x = 0 ↔
    ∀ l, (k.procs l).state ≠ .ZOMBIE → ∀ u, k.page l u ≠ some x := by
  rw [Kernel.liveMappings, card_holders_eq_zero]
  constructor
  · intro none l live u mapped
    apply none (l, ⟨u, page_lt mapped⟩)
    rw [Kernel.liveEntry, if_neg live]
    exact mapped
  · intro none u mapped
    unfold Kernel.liveEntry at mapped
    split at mapped
    · cases mapped
    · rename_i live
      exact none u.1 live u.2 mapped

theorem liveMappings_eq (dead : ∀ l, (k.procs l).state = .ZOMBIE → ∀ u, k.page l u ≠ some x) :
    k.liveMappings x = k.mappings x := by
  have places : holders k.liveEntry x = holders k.entry x := by
    refine holders_congr fun u => ?_
    unfold Kernel.liveEntry
    split
    · rename_i isDead
      simp only [reduceCtorEq, false_iff]
      exact dead u.1 isDead u.2
    · rfl
  rw [Kernel.liveMappings, places, Kernel.mappings]

theorem Claim.free_length (claim : Claim k id j k₁ e) :
    k.mem.free.length ≤ k₁.mem.free.length + 1 := by
  cases claim with
  | found hit => exact Nat.le_succ _
  | created miss slot taken =>
    rw [(kalloc_eq_some taken).1]
    exact Nat.le_of_eq (List.length_cons ..)

/-- A process that stays detached from the old segments does so from a new one, whose page nobody
maps. -/
theorem Claim.detached {l : Slot} (claim : Claim k id j k₁ e) (inv : Inv S k) (nonzero : id ≠ 0)
    (detached : k.Detached l) : ∀ u, k.page l u ≠ some e.phys := by
  cases claim with
  | found hit =>
    exact detached j (by rwa [findShm_spec hit])
  | created miss slot taken => exact (inv.fresh taken).1 l

theorem Opened.balanced {r : Option Nat} (opened : Opened k i id k' r) (inv : Inv S k)
    (balanced : k.Balanced) (live : (k.procs i).state ≠ .ZOMBIE)
    (careful : Careful k (.openshmem i id)) : k'.shmHeld = false ∧
      ∀ l, (k'.procs l).state = .ZOMBIE → k'.Detached l := by
  obtain ⟨⟨-, nonzero, memory⟩, free⟩ := careful
  have free : 2 ≤ k.mem.free.length := free
  cases opened with
  | full miss noSlot same => exact same ▸ ⟨balanced.unlocked, balanced.detached⟩
  | noPage j miss slot empty shape => simp [empty] at free
  | noTable j k₁ e claim empty shape =>
    have left := claim.free_length
    rw [empty, List.length_nil] at left
    omega
  | mapped j k₁ e S₁ claim attached shm held =>
    refine ⟨held ▸ balanced.unlocked, fun l isDead r inUse u => ?_⟩
    have other : l ≠ i := by
      rintro rfl
      rw [attached.state, claim.procs] at isDead
      exact live isDead
    rw [attached.others l other, claim.procs] at isDead
    have detached := balanced.detached l isDead
    rw [attached.page, if_neg fun both => other both.1, claim.page]
    rw [shm] at inUse ⊢
    by_cases isJ : r = j
    · rw [if_pos isJ]
      exact claim.detached inv nonzero detached u
    · rw [if_neg isJ] at inUse ⊢
      exact detached r inUse u

theorem Closed.detached {l : Slot} (closed : Closed k i id j k') (detached : k.Detached l) :
    k'.Detached l := by
  intro r inUse u
  have same := (closed.shm_id r).resolve_left inUse
  rw [closed.shm_phys, closed.page]
  split
  · simp
  · exact detached r (same ▸ inUse) u

theorem Kernel.Balanced.step {ev : Event} (balanced : k.Balanced) (careful : Careful k ev)
    (stepped : Vm.step k ev = some k') : k'.Balanced := by
  have shared' := balanced.shared.step careful.1 stepped
  obtain ⟨⟨S, inv⟩, -⟩ := balanced.shared
  have effect := step_effect inv careful.1.1 stepped
  cases effect with
  | quiet quiet full =>
    refine ⟨shared', quiet.held ▸ balanced.unlocked, fun l isDead r inUse u mapped => ?_⟩
    rw [quiet.shm] at inUse mapped
    exact balanced.detached l (quiet.zombie l isDead) r inUse u
      ((quiet.page_shared inv r l u).mp mapped)
  | @exited i k' same held state =>
    refine ⟨shared', held ▸ balanced.unlocked, fun l isDead r inUse u => ?_⟩
    rw [same.shm] at inUse ⊢
    rw [same.page]
    rw [state] at isDead
    by_cases isI : l = i
    · have detached : k.Detached i := careful.2
      exact isI ▸ detached r inUse u
    · rw [if_neg isI] at isDead
      exact balanced.detached l isDead r inUse u
  | @opened i id r k' held opened =>
    have can : k.CanCall i := (step_eq_some stepped).1
    obtain ⟨unlocked, detached⟩ := opened.balanced inv balanced can.live careful
    exact ⟨shared', unlocked, detached⟩
  | closed held closed =>
    refine ⟨shared', closed.held ▸ balanced.unlocked, fun l isDead => ?_⟩
    rw [closed.state] at isDead
    exact closed.detached (balanced.detached l isDead)

theorem Kernel.Balanced.count (balanced : k.Balanced) (r : Fin NSHPAGE) (inUse : (k.shm r).id ≠ 0) :
    (k.shm r).nAccess = k.liveMappings (k.shm r).phys := by
  rw [liveMappings_eq fun l isDead => balanced.detached l isDead r inUse]
  exact (balanced.shared.2.count_eq balanced.unlocked r inUse).symm

variable {r : Fin NSHPAGE}

/-- An open never sets an id to 0. -/
theorem Opened.id_ne_zero {va : Option Nat} (opened : Opened k i id k' va) (nonzero : id ≠ 0)
    (inUse : (k.shm r).id ≠ 0) : (k'.shm r).id ≠ 0 := by
  have claimed : ∀ {j : Fin NSHPAGE} {k₁ : Kernel} {e : ShPage}, Claim k id j k₁ e → e.id ≠ 0 := by
    intro j k₁ e claim
    cases claim with
    | found hit => rwa [findShm_spec hit]
    | created miss slot taken => exact nonzero
  cases opened with
  | full miss noSlot same => exact same ▸ inUse
  | noPage j miss slot empty shape =>
    rw [shape]
    by_cases isJ : r = j
    · simpa [isJ] using nonzero
    · simpa [isJ] using inUse
  | noTable j k₁ e claim empty shape =>
    rw [shape]
    rw [claim.shm]
    by_cases isJ : r = j
    · simpa [isJ] using claimed claim
    · simpa [isJ] using inUse
  | mapped j k₁ e S₁ claim attached shm held =>
    rw [shm]
    by_cases isJ : r = j
    · simpa [isJ] using claimed claim
    · simpa [isJ] using inUse

/-- The close that recycles a slot takes the last mapping of its page. -/
theorem Closed.recycled (closed : Closed k i id j k') (balanced : k.Balanced)
    (proper : Proper k (.closeshmem i id)) (inUse : (k.shm r).id ≠ 0) (recycled : (k'.shm r).id = 0)
    :
    k'.mappings (k.shm r).phys = 0 := by
  have isJ : r = j := by
    by_contra other
    rw [closed.shm, if_neg other] at recycled
    exact inUse recycled
  subst isJ
  have last : (k.shm r).nAccess - 1 = 0 := by
    by_contra more
    rw [closed.shm, if_pos rfl] at recycled
    rw [if_neg more] at recycled
    exact inUse recycled
  have count := balanced.shared.2.count_eq balanced.unlocked r inUse
  have here := (closed.counts proper).1
  omega

theorem Kernel.Balanced.recycled {ev : Event} (balanced : k.Balanced) (careful : Careful k ev)
    (stepped : Vm.step k ev = some k') (inUse : (k.shm r).id ≠ 0) (recycled : (k'.shm r).id = 0) :
    k'.liveMappings (k'.shm r).phys = 0 := by
  obtain ⟨⟨S, inv⟩, -⟩ := balanced.shared
  have effect := step_effect inv careful.1.1 stepped
  cases effect with
  | quiet quiet full => exact absurd (quiet.shm ▸ recycled) inUse
  | exited same held state => exact absurd (same.shm ▸ recycled) inUse
  | opened held opened => exact absurd recycled (opened.id_ne_zero careful.1.2.1 inUse)
  | closed held closed =>
    have none := mappings_eq_zero.mp (closed.recycled balanced careful.1.2 inUse recycled)
    rw [closed.shm_phys, liveMappings_eq_zero]
    intro l _
    exact none l

end Steps

theorem reach_balanced {k : Kernel} (reached : system.Reach Careful k) : k.Balanced := by
  refine System.Reach.invariant ?_ ?_ reached
  · intro k start
    have first := Start.first start
    refine ⟨⟨⟨_, first.inv⟩, first.segments⟩, first.held, fun i _ r inUse => ?_⟩
    exact absurd (by rw [first.shm]) inUse
  · intro k e k' balanced careful stepped
    exact balanced.step careful stepped

/-- **Reference counts.** In every run of careful calls, `nAccess` of every segment is the number of
entries of live processes that map its page, and a step that recycles a slot leaves no such entry. -/
theorem segment_counts {k : Kernel} (reached : system.Reach Careful k) :
    (∀ r, (k.shm r).id ≠ 0 → (k.shm r).nAccess = k.liveMappings (k.shm r).phys) ∧
      ∀ e k' r, Careful k e → step k e = some k' → (k.shm r).id ≠ 0 → (k'.shm r).id = 0 →
        k'.liveMappings (k'.shm r).phys = 0 := by
  have balanced := reach_balanced reached
  exact ⟨balanced.count, fun e k' r careful stepped => balanced.recycled careful stepped⟩

/-- The first segment, with one access and one mapping, is closed again: the slot is free and nobody
maps its page. -/
theorem segment_counts_closed : ∃ k k₁ k₂ x, Start k ∧ step k (.openshmem 0 5) = some k₁ ∧
    k₁.shm 0 = ⟨5, 1, x, some (5, x)⟩ ∧ k₁.liveMappings x = 1 ∧
    step k₁ (.closeshmem 0 5) = some k₂ ∧ (k₂.shm 0).id = 0 ∧ k₂.liveMappings x = 0 := by
  obtain ⟨k, start, first⟩ := exists_first
  obtain ⟨x, k₁, opened, solo, -, -, slot, -, last, page⟩ := first.openshmem 5 (by decide)
  have plenty := first.plenty
  have free : 2 ≤ k.mem.free.length := by omega
  have careful : Careful k (.openshmem 0 5) := by
    refine ⟨⟨trivial, by decide, fun _ _ empty => ?_⟩, free⟩
    simp [empty] at free
  obtain ⟨counts, recycled⟩ := segment_counts (.step (.start start) careful opened)
  have one := counts 0 (by simp [slot])
  rw [slot] at one
  have hit : findShm k₁ 5 = some 0 := findShm_zero (by rw [slot])
  have entry : k₁.page 0 (k₁.lastOpened 0) = some x := by
    rw [last, page, if_pos ⟨rfl, rfl⟩]
  obtain ⟨k₂, shut, closed⟩ := solo.closeshmem hit (by simp [entry])
  have gone : (k₂.shm 0).id = 0 := by
    rw [closed.shm, if_pos rfl, slot]
    rfl
  have careful₁ : Careful k₁ (.closeshmem 0 5) :=
    ⟨⟨trivial, fun j found => by
      obtain rfl : 0 = j := Option.some.inj (hit.symm.trans found)
      exact ⟨by decide, by rw [entry, slot]⟩⟩, trivial⟩
  have none_ := recycled (.closeshmem 0 5) k₂ 0 careful₁ shut (by simp [slot]) gone
  rw [closed.shm_phys, slot] at none_
  exact ⟨k, k₁, k₂, x, start, opened, slot, (Int.ofNat_inj.mp one).symm, shut, gone, none_⟩

/-- A process opens segments 5 and 6 and closes 5. The call clears the entry of 6, which it opened
last: segment 6 now counts an access that nobody has, and the slot of 5 is recycled while the process
still maps its page. -/
theorem close_other_segment : ∃ k k', system.Reachable k ∧ step k (.closeshmem 0 5) = some k' ∧
    ((k'.shm 1).id = 6 ∧ (k'.shm 1).nAccess = 1 ∧ k'.liveMappings (k'.shm 1).phys = 0) ∧
    (k.shm 0).id = 5 ∧ (k'.shm 0).id = 0 ∧ k'.CanCall 0 ∧ k'.page 0 1 = some (k'.shm 0).phys := by
  obtain ⟨k, start⟩ := exists_start
  obtain ⟨x, k₁, opened₁, solo₁, -, -, slot₁, rest₁, -, page₁⟩ :=
    start.first.openshmem 5 (by decide)
  have miss : findShm k₁ 6 = none := by
    refine findShm_eq_none.mpr fun r => ?_
    by_cases isZero : r = 0
    · simp [isZero, slot₁]
    · simp [rest₁ r isZero]
  have vacant : findShm k₁ 0 = some 1 := by
    refine findShm_one ?_ ?_
    · simp [slot₁]
    · rw [rest₁ 1 (by decide)]
  obtain ⟨j, k₂', e, k₂, opened₂, solo₂, claim, shm₂, last₂, -, page₂⟩ :=
    solo₁.openshmem 6 (by decide) (.inr (by simp [vacant]))
  cases claim with
  | found hit => simp [miss] at hit
  | @created y m _ slot taken =>
    obtain rfl : 1 = j := by simpa [vacant] using slot
    obtain ⟨S, inv₁⟩ := solo₁.sane
    obtain ⟨unmapped, unrecorded⟩ := inv₁.fresh taken
    have hit : findShm k₂ 5 = some 0 := findShm_zero (by rw [shm₂, if_neg (by decide), slot₁])
    have mapped : k₂.page 0 (k₂.lastOpened 0) = some y := by
      rw [last₂, page₂, if_pos ⟨rfl, rfl⟩]
      simp
    obtain ⟨k₃, closed₃, closed⟩ := solo₂.closeshmem hit (by simp [mapped])
    have reached : system.Reachable k₂ := .step (.step (.start start) trivial opened₁) trivial opened₂
    refine ⟨k₂, k₃, reached, closed₃, ⟨?_, ?_, ?_⟩, ?_, ?_, ?_, ?_⟩
    · rw [closed.shm, if_neg (by decide), shm₂, if_pos rfl]
    · rw [closed.shm, if_neg (by decide), shm₂, if_pos rfl, rest₁ 1 (by decide)]
      rfl
    · rw [closed.shm_phys, shm₂, if_pos rfl, liveMappings_eq_zero]
      intro l _ u
      rw [closed.page]
      split
      · simp
      · rename_i elsewhere
        rw [last₂] at elsewhere
        rw [page₂, if_neg elsewhere]
        exact unmapped l u
    · rw [shm₂, if_neg (by decide), slot₁]
    · rw [closed.shm, if_pos rfl, shm₂, if_neg (by decide), slot₁]
      rfl
    · have can := solo₂.can
      unfold Kernel.CanCall at can ⊢
      rwa [closed.state]
    · rw [closed.page, last₂, if_neg (by decide), page₂, if_neg (by decide), page₁, if_pos ⟨rfl, rfl⟩,
        closed.shm_phys, shm₂, if_neg (by decide), slot₁]

end Xv6.Vm
