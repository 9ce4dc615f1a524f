/-
# Xv6.Vm.Holes -- every page below the size of a process is there

`fork` and the argument checks take the size of a process for a description of what it has mapped.
That is right in every state of a run in which torn-down mappings are private (otherwise the books
are lost), `closeshmem` clears no entry below the caller's size and `sbrk` does not go down to size 0:
then `copyuvm` does not run into its two panics, and every address the argument checks accept can be
read.

The condition on `closeshmem` is the one that matters: a process that opens a segment and closes it
has a hole where the segment was, since `closeshmem` clears the entry and leaves the size alone.
-/
import Xv6.Vm.Safety

namespace Xv6.Vm
open Lib
set_option autoImplicit false

/-! ## The panics of copyuvm -/

/-- The two panics of `copyuvm`. -/
def CopyPanic (fault : Fault) : Prop :=
  fault = .panic "copyuvm: pte should exist" ∨ fault = .panic "copyuvm: page not present"
deriving Decidable

variable {k : Kernel} {i : Slot} {k' : Kernel}

section Panics

variable {s : Space} {m : Mem} {d : PgDir} {v x n : Nat} {perm : Perm}

theorem kfree_avoids : Avoids CopyPanic (kfree x m) := by
  unfold kfree
  split
  · exact .error (by decide)
  · exact .ok _

variable {oldsz : Nat} {src : PgDir}

theorem deallocLoop_avoids : Avoids CopyPanic (deallocLoop oldsz n v s) := by
  induction n generalizing v s with
  | zero => exact .ok _
  | succ n ih =>
    rw [deallocLoop]
    split
    · split
      · exact ih
      · split
        · split
          · exact .error (by decide)
          · exact kfree_avoids.bind fun _ _ => ih
        · exact ih
    · exact .ok _

theorem freeTables_avoids {list : List Nat} : Avoids CopyPanic (freeTables d list m) := by
  induction list generalizing m with
  | nil => exact .ok _
  | cons i rest ih =>
    rw [freeTables]
    split
    · exact ih
    · exact kfree_avoids.bind fun _ _ => ih

theorem deallocuvm_avoids {newsz : Nat} : Avoids CopyPanic (deallocuvm oldsz newsz s) := by
  unfold deallocuvm
  split
  · exact .ok _
  · exact deallocLoop_avoids.bind fun _ _ => .ok _

theorem freevm_avoids : Avoids CopyPanic (freevm s) :=
  deallocuvm_avoids.bind fun _ _ => freeTables_avoids.bind fun _ _ => kfree_avoids

theorem mapLoop_avoids : Avoids CopyPanic (mapLoop perm n v x s) := by
  induction n generalizing v x s with
  | zero => exact .ok _
  | succ n ih =>
    rw [mapLoop]
    split
    · exact .ok _
    · split
      · exact .error (by decide)
      · exact ih

theorem mapKernel_avoids {list : List KMap} : Avoids CopyPanic (mapKernel list s) := by
  induction list generalizing s with
  | nil => exact .ok _
  | cons k rest ih =>
    refine .bind mapLoop_avoids fun result _ => ?_
    dsimp only
    split
    · exact ih
    · exact .ok _

theorem setupkvm_avoids : Avoids CopyPanic (setupkvm m) := by
  unfold setupkvm
  split
  · exact .ok _
  · split
    · exact .error (by decide)
    · refine mapKernel_avoids.bind fun result _ => ?_
      dsimp only
      split
      · exact .ok _
      · exact freevm_avoids.bind fun _ _ => .ok _

/-- If every page of the source is there, copying it does not panic about a missing one. -/
theorem copyLoop_avoids (there : ∀ u, v ≤ u → u < v + n → pageAt src u ≠ none) :
    Avoids CopyPanic (copyLoop src n v s) := by
  induction n generalizing v s with
  | zero => exact .ok _
  | succ n ih =>
    have first := there v le_rfl (by omega)
    rw [copyLoop]
    split
    · rename_i absent
      exact absurd (by simp [pageAt, absent]) first
    · rename_i pte walked
      split
      · split
        · exact .ok _
        · refine .bind mapLoop_avoids fun result _ => ?_
          dsimp only
          split
          · exact ih fun u above below => there u (by omega) (by omega)
          · exact kfree_avoids.bind fun _ _ => .ok _
      · rename_i absent
        exact absurd (by simp [pageAt, walked, absent]) first

theorem copyuvm_avoids {sz : Nat} (full : Full sz src) : Avoids CopyPanic (copyuvm src sz m) := by
  refine setupkvm_avoids.bind fun result _ => ?_
  obtain ⟨made, m₁⟩ := result
  cases made with
  | none => exact .ok _
  | some d =>
    refine .bind (copyLoop_avoids fun u _ below => full u (by omega)) fun result _ => ?_
    dsimp only
    split
    · exact .ok _
    · exact freevm_avoids.bind fun _ _ => .ok _

theorem fork_avoids (full : k.Full) : Avoids CopyPanic (fork k i) := by
  refine .bind ?_ fun s space => ?_
  · unfold Kernel.space
    split
    · exact .error (by decide)
    · exact .ok _
  · obtain ⟨hasDir, -⟩ := space_eq_ok space
    split
    · exact .ok _
    · refine (copyuvm_avoids (full i s.dir hasDir)).bind fun result _ => ?_
      obtain ⟨made, m⟩ := result
      cases made with
      | none =>
        refine .bind ?_ fun _ _ => .ok _
        unfold freeKstack
        split
        · exact .error (by decide)
        · exact kfree_avoids
      | some d => exact .ok _

end Panics

/-! ## Reading below the size -/

section Reads

variable {d : PgDir} {m : Mem} {sz addr : Nat} {a : Nat}

theorem div_lt_pages (below : a < sz) : a / PGSIZE < pages sz := by
  simp only [pages, PGSIZE]
  omega

theorem load_ok (full : Full sz d) (below : a < sz) : ∃ b, load ⟨d, m⟩ a = .ok b := by
  have there := full _ (div_lt_pages below)
  unfold load
  cases walked : walkpgdir d (a / PGSIZE) with
  | none => exact absurd (by simp [pageAt, walked]) there
  | some pte =>
    by_cases present : pte.p = true
    · simp only [present, if_true]
      exact ⟨_, rfl⟩
    · exact absurd (by simp [pageAt, walked, present]) there

theorem mapM_ok {α β ε : Type} {f : α → Except ε β} {list : List α}
    (each : ∀ a ∈ list, ∃ b, f a = .ok b) : ∃ bs, list.mapM f = .ok bs := by
  induction list with
  | nil => exact ⟨[], rfl⟩
  | cons a rest ih =>
    obtain ⟨b, first⟩ := each a (by simp)
    obtain ⟨bs, later⟩ := ih fun a' inside => each a' (by simp [inside])
    refine ⟨b :: bs, ?_⟩
    rw [List.mapM_cons, first, ok_bind, later, ok_bind]
    rfl

theorem fetchint_ok (bound : sz ≤ KERNBASE) (full : Full sz d) :
    ∃ r, fetchint ⟨d, m⟩ sz addr = .ok r := by
  unfold fetchint
  split
  · exact ⟨_, rfl⟩
  · have last : addr + 4 ≤ sz := by
      simp only [KERNBASE] at bound
      omega
    have each : ∀ i ∈ List.range 4, ∃ b, load ⟨d, m⟩ (addr + i) = .ok b := by
      intro i inside
      have := List.mem_range.mp inside
      exact load_ok full (by omega)
    obtain ⟨bytes, read⟩ := mapM_ok each
    rw [read, ok_bind]
    exact ⟨_, rfl⟩

theorem fetchstrLoop_ok (full : Full sz d) {n len : Nat} (last : addr + len + n ≤ sz) :
    ∃ r, fetchstrLoop ⟨d, m⟩ addr n len = .ok r := by
  induction n generalizing len with
  | zero => exact ⟨_, rfl⟩
  | succ n ih =>
    obtain ⟨b, read⟩ := load_ok (m := m) full (show addr + len < sz by omega)
    rw [fetchstrLoop, read, ok_bind]
    split
    · exact ⟨_, rfl⟩
    · exact ih (by omega)

theorem fetchstr_ok (full : Full sz d) : ∃ r, fetchstr ⟨d, m⟩ sz addr = .ok r := by
  unfold fetchstr
  split
  · exact ⟨_, rfl⟩
  · exact fetchstrLoop_ok full (by omega)

/-- What `argptr` lets through is mapped. -/
theorem argptr_mapped (bound : sz ≤ KERNBASE) (full : Full sz d) {size : Int}
    (isInt : size < 2 ^ 31) (accepted : argptrOk sz addr size = true) (above : addr ≤ a)
    (below : (a : Int) < addr + size) : pageAt d (a / PGSIZE) ≠ none := by
  have last : a < sz := by
    simp only [argptrOk, Bool.not_eq_true', Bool.or_eq_false_iff, decide_eq_false_iff_not,
      KERNBASE] at accepted bound
    omega
  exact full _ (div_lt_pages last)

end Reads

/-! ## Runs without holes -/

/-- What `fork` and the argument checks rely on, and what they get from it. -/
structure NoHole (k : Kernel) : Prop where
  full : ∀ i, k.CanCall i → ∃ d, (k.procs i).pgdir = some d ∧
    ∀ v, v < pages (k.procs i).sz → pageAt d v ≠ none
  fork : ∀ i, k.CanCall i → fork k i ≠ .error (.panic "copyuvm: pte should exist") ∧
    fork k i ≠ .error (.panic "copyuvm: page not present")
  fetchint : ∀ i s, k.CanCall i → k.space i = .ok s →
    ∀ addr, ∃ r, fetchint s (k.procs i).sz addr = .ok r
  fetchstr : ∀ i s, k.CanCall i → k.space i = .ok s →
    ∀ addr, ∃ r, fetchstr s (k.procs i).sz addr = .ok r
  argptr : ∀ i s, k.CanCall i → k.space i = .ok s → ∀ addr (size : Int), size < 2 ^ 31 →
    argptrOk (k.procs i).sz addr size = true → ∀ a : Nat, addr ≤ a → (a : Int) < addr + size →
      pageAt s.dir (a / PGSIZE) ≠ none

/-- The invariant, with every page in place. -/
def Kernel.Whole (k : Kernel) : Prop := k.Sane ∧ k.Full

theorem Opened.full_of_full {id : Int} {r : Option Nat} (opened : Opened k i id k' r)
    (full : k.Full) : k'.Full := by
  cases opened with
  | full miss noSlot same => exact same ▸ full
  | noPage j miss slot empty shape => exact shape ▸ full
  | noTable j k₁ e claim empty shape =>
    have same : k₁.procs = k.procs := by cases claim <;> rfl
    intro l
    rw [shape]
    rw [same]
    exact full l
  | mapped j k₁ e S₁ claim attached shm held =>
    have same : k₁.procs = k.procs := by cases claim <;> rfl
    refine attached.full fun l => ?_
    rw [same]
    exact full l

theorem Effect.full {S : User → Fin NSHPAGE → Prop} {e : Event} (effect : Effect S k e k')
    (solid : Solid k e) (full : k.Full) : k'.Full := by
  cases effect with
  | quiet quiet keeps => exact keeps solid full
  | exited same held state => exact same.full full
  | opened held opened => exact opened.full_of_full full
  | closed held closed => exact closed.full (solid (by simp [closed.hit])) full

theorem reach_whole (reached : system.Reach (fun k e => Unshared k e ∧ Solid k e) k) : k.Whole := by
  refine System.Reach.invariant ?_ ?_ reached
  · intro k start
    have first := Start.first start
    exact ⟨⟨_, first.inv⟩, first.full⟩
  · intro k e k' whole admitted stepped
    obtain ⟨⟨S, inv⟩, full⟩ := whole
    have effect := step_effect inv admitted.1 stepped
    exact ⟨effect.inv inv, effect.full admitted.2 full⟩

theorem Kernel.Whole.noHole (whole : k.Whole) : NoHole k := by
  obtain ⟨⟨S, inv⟩, full⟩ := whole
  have bound : ∀ i s, k.space i = .ok s →
      (k.procs i).sz ≤ KERNBASE ∧ Vm.Full (k.procs i).sz s.dir := by
    intro i s space
    obtain ⟨hasDir, -⟩ := space_eq_ok space
    exact ⟨((inv.procs i).sized s.dir hasDir).bound, full i s.dir hasDir⟩
  refine ⟨?_, ?_, ?_, ?_, ?_⟩
  · intro i can
    obtain ⟨d, hasDir⟩ := inv.dir can
    exact ⟨d, hasDir, full i d hasDir⟩
  · intro i _
    have avoids := fork_avoids (i := i) full
    exact ⟨fun panics => avoids _ panics (.inl rfl), fun panics => avoids _ panics (.inr rfl)⟩
  · intro i s _ space addr
    obtain ⟨low, whole⟩ := bound i s space
    exact fetchint_ok low whole
  · intro i s _ space addr
    exact fetchstr_ok (bound i s space).2
  · intro i s _ space addr size isInt accepted a above below
    obtain ⟨low, whole⟩ := bound i s space
    exact argptr_mapped low whole isInt accepted above below

/-- **No hole below the size.** In every state of every run in which torn-down mappings are private,
`closeshmem` clears nothing below the caller's size and `sbrk` does not shrink to nothing, every
process that can make a call has all pages below its size. -/
theorem no_hole_below_size {k : Kernel}
    (reached : system.Reach (fun k e => Unshared k e ∧ Solid k e) k) : NoHole k :=
  (reach_whole reached).noHole

/-- A process grows by a page and gives it back: its size is one page less. -/
theorem no_hole_below_size_shrunk : ∃ k k₁ k₂, Start k ∧ step k (.sbrk 0 4096) = some k₁ ∧
    step k₁ (.sbrk 0 (-4096)) = some k₂ ∧ k₂.mem.free.length = k₁.mem.free.length + 1 ∧ NoHole k₂ := by
  obtain ⟨k, start⟩ := exists_start
  obtain ⟨x, k₁, grown, solo, usable, page, alone⟩ := start.first.solo.grow (by decide)
  obtain ⟨k₂, shrunk, free, -⟩ := solo.sbrk (by decide) page usable
  have admitted : Unshared k (.sbrk 0 4096) ∧ Solid k (.sbrk 0 4096) :=
    ⟨fun less => absurd less (by decide), fun less => absurd less.1 (by decide)⟩
  have solid : Solid k₁ (.sbrk 0 (-4096)) := fun gone => by
    rw [solo.size] at gone
    exact absurd gone.2 (by decide)
  exact ⟨k, k₁, k₂, start, grown, shrunk, by simp [free],
    no_hole_below_size (.step (.step (.start start) admitted grown)
      ⟨solo.unshared (by decide) alone, solid⟩ shrunk)⟩

/-- A process that opens a segment and closes it again has a hole below its size. -/
theorem close_leaves_hole : ∃ k, system.Reachable k ∧ ¬NoHole k := by
  obtain ⟨k, start⟩ := exists_start
  obtain ⟨x, k₁, stepped₁, solo, -, -, shm, -, last, page⟩ := start.first.openshmem 5 (by decide)
  have hit : findShm k₁ 5 = some 0 := findShm_zero (by rw [shm])
  have entry : k₁.page 0 1 = some x := by
    rw [page, if_pos ⟨rfl, rfl⟩]
  obtain ⟨k₂, stepped₂, closed⟩ := solo.closeshmem hit (by rw [last, entry]; simp)
  refine ⟨k₂, .step (.step (.start start) trivial stepped₁) trivial stepped₂, fun noHole => ?_⟩
  have can : k₂.CanCall 0 := by
    unfold Kernel.CanCall
    rw [closed.state]
    exact solo.can
  obtain ⟨d, hasDir, full⟩ := noHole.full 0 can
  have below : 1 < pages (k₂.procs 0).sz := by
    rw [closed.size, solo.size, pages_mul]
    decide
  have hole : k₂.page 0 1 = none := by
    rw [closed.page, last, if_pos ⟨rfl, rfl⟩]
  refine full 1 below ?_
  simpa [Kernel.page, hasDir, show 1 < KERNPAGE by decide] using hole

end Xv6.Vm
