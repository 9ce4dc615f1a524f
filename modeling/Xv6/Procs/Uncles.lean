/-
# Xv6.Procs.Uncles -- the system call that counts uncles

`nuncle` compares the parent pointers of all slots with the caller's grandparent and takes one off for
the caller's parent. A slot with a parent is in use in every reachable table (`Rooted`), so the count is
right where there is a grandparent. `init` has no parent, and for its children the grandparent is the
null pointer that every unused slot carries too (`nuncle_counts_iff`).
-/
import Xv6.Procs.Pids

namespace Xv6.Procs
open Lib Sched List Function
set_option autoImplicit false

variable {F : Type}

/-- `nuncle`; `none` is a null pointer that is followed. -/
def nuncle (d : Ptable F) (me : Slot) : Option Int :=
  (d.parent me).map fun parent =>
    ((finRange NPROC).countP fun p => d.parent p = d.parent parent : Nat) - 1

/-- The processes that the caller's grandparent has besides the caller's parent. -/
def uncles (d : Ptable F) (me : Slot) : Nat :=
  match d.parent me, (d.parent me).bind d.parent with
  | some parent, some grandparent => (finRange NPROC).countP fun p =>
      (d.proc p).state ≠ .UNUSED ∧ p ≠ parent ∧ d.parent p = some grandparent
  | _, _ => 0

/-! ## Slots with a parent are in use -/

section Turn

variable {d : Ptable F} {me np : Slot} {p q : Point F} {op : LockOp} {b : Body F}

/-- An embryo that a thread owns after a turn is new, or has a parent if it had one or gets it. -/
theorem Turn.adopted_of_owns (turn : Turn d me p op q b) (owns : q.owns = some np)
    (before : p.owns = some np → p.adopted = some np ∨ ∃ x, b = .adopt np x) :
    b = .alloc np ∨ q.adopted = some np := by
  cases turn with
  | call call allowed =>
    have none : call.entry.owns = none :=
      Call.entry_elim (P := fun q => q.owns = none) allowed rfl (fun _ => rfl) rfl
        (fun _ => rfl) rfl (fun _ => rfl)
    rw [none] at owns
    cases owns
  | preempt | yieldLock | yieldBody | yieldBack =>
    exact .inr ((before owns).resolve_right (by simp))
  | forkScan np' found =>
    cases owns
    exact .inl rfl
  | forkKalloc np' => simpa [Point.adopted] using before owns
  | forkCopy np' | forkReady np' => exact .inr owns
  | _ => cases owns

theorem Turn.abandons (turn : Turn d me p op q (.abandon np)) :
    p.owns = some np ∧ p.adopted = none := by
  cases turn <;> exact ⟨rfl, rfl⟩

end Turn

variable {C : Type}

/-- A slot with a parent is in use, and if it is an embryo then `fork` has come that far. -/
def Rooted (k : Control C F) (d : Ptable F) : Prop :=
  ∀ i, d.parent i ≠ none → (d.proc i).state ≠ .UNUSED ∧
    ∀ j, (k.pc j).owns = some i → (k.pc j).adopted = some i

section Runs

variable [DecidableEq C] [Zero F] [One F] [Add F] {tenth : F} {k k' : Control C F}
  {d d' : Ptable F} {b : Body F}

omit [DecidableEq C] in
theorem Walks.rooted (walks : Walks k k' d b) (placed : Placed k d) (kin : Kin k d)
    (rooted : Rooted k d) (ran : b.run tenth d = some d') : Rooted k' d' := by
  have effect := walks.effect placed kin
  intro i parent
  have before : d.parent i ≠ none ∨ (d.proc i).state = .EMBRYO ∧ ∃ me, b = .adopt i me := by
    rcases effect.parent ran i with same | ⟨me, rfl⟩ | ⟨me, -, child, -⟩ | ⟨me, -, gone⟩
    · exact .inl (same ▸ parent)
    · cases effect with
      | mild mild => cases mild
      | adopt _ _ embryo _ => exact .inr ⟨embryo, me, rfl⟩
    · exact .inl (by simp [child])
    · exact absurd gone parent
  have used : (d.proc i).state ≠ .UNUSED := by
    rcases before with had | ⟨embryo, -⟩
    · exact (rooted i had).1
    · simp [embryo]
  have owner : ∀ j, (k.pc j).owns = some i → (k.pc j).adopted = some i ∨ ∃ x, b = .adopt i x :=
    fun j owns => before.imp (fun had => (rooted i had).2 j owns) And.right
  cases walks with
  | still pc body =>
    refine ⟨fun unused => ?_, fun j owns => ?_⟩
    · rcases effect.freed ran unused with was | rfl | ⟨me, rfl⟩
      · exact used was
      · cases body
      · cases body
    · rw [pc] at owns ⊢
      refine (owner j owns).resolve_right ?_
      rintro ⟨x, rfl⟩
      cases body
  | turn me running turn self others =>
    refine ⟨fun unused => ?_, fun j owns => ?_⟩
    · rcases effect.freed ran unused with was | rfl | ⟨x, rfl⟩
      · exact used was
      · -- `fork` gives its embryo up before it is its parent
        obtain ⟨owns, none⟩ := turn.abandons
        simpa [none] using owner me owns
      · cases ran
        exact parent (update_self ..)
    · by_cases same : j = me
      · subst same
        rw [self] at owns ⊢
        refine (turn.adopted_of_owns owns (owner j)).resolve_left ?_
        rintro rfl
        cases effect with
        | mild mild => cases mild
        | alloc _ unused => exact used unused
      · rcases others j same with kept | ⟨-, started⟩
        · rw [kept] at owns ⊢
          refine (owner j owns).resolve_right ?_
          rintro ⟨x, rfl⟩
          exact same (placed.owners.single j me i owns turn.adopts.2)
        · rw [started] at owns
          cases owns

variable [Mul F] [IntCast F] [LT F] [DecidableLT F]

theorem reach_rooted {ok : State C F → Event C F → Prop} {s : State C F}
    (reached : (system C tenth).Reach ok s) : Rooted s.control s.data := by
  induction reached with
  | start initial =>
    intro i parent
    rw [initial.data] at parent
    exact absurd rfl parent
  | step reached _ stepped ih =>
    obtain ⟨a, -, refines⟩ := reach_refines reached
    obtain ⟨b, moved, ran⟩ := next_eq_some stepped
    exact ((moves_of_move moved).walks refines.placed).rooted refines.placed refines.kin ih ran

end Runs

/-! ## The count -/

/-- One slot, and the others. -/
theorem countP_slots (has : Slot → Bool) (first : Slot) :
    (finRange NPROC).countP has =
      ((finRange NPROC).erase first).countP has + if has first then 1 else 0 := by
  rw [(perm_cons_erase (mem_finRange first)).countP_eq, countP_cons]

theorem ne_of_mem_erase {i first : Slot} (inside : i ∈ (finRange NPROC).erase first) :
    i ≠ first :=
  ((nodup_finRange NPROC).mem_erase_iff.mp inside).1

variable [DecidableEq C] [Zero F] [One F] [Add F] [Mul F] [IntCast F] [LT F] [DecidableLT F]

/-- **The uncle count** is right exactly if the caller is not `init` and, for a child of `init`, no
slot but `init`'s is without a parent. -/
theorem nuncle_counts_iff {tenth : F} {s : State C F} (reached : (system C tenth).Reachable s)
    {me : Slot} (running : (s.data.proc me).state = .RUNNING) :
    nuncle s.data me = some (uncles s.data me : Int) ↔ me ≠ initproc ∧
      (s.data.parent me = some initproc → ∀ i, s.data.parent i = none → i = initproc) := by
  obtain ⟨a, reachedA, refines⟩ := reach_refines reached
  have tree := Family.reach_tree reachedA
  have orphan := tree.orphan
  have lineage := tree.lineage
  rw [refines.matched.parent] at orphan
  by_cases first : me = initproc
  · refine iff_of_false ?_ fun both => both.1 first
    simp [nuncle, first, orphan]
  have alive : a.stage me = .alive := by rw [refines.matched.stage, running]; rfl
  obtain ⟨p, parent, aliveP, -⟩ := lineage me first (.inl alive)
  rw [refines.matched.parent] at parent
  by_cases top : p = initproc
  · -- the grandparent is the null pointer
    subst top
    have none_ : uncles s.data me = 0 := by simp [uncles, parent, orphan]
    rw [nuncle, none_, parent, Option.map_some, orphan, Option.some_inj,
      countP_slots _ initproc, if_pos (by simpa using orphan)]
    have others : ((finRange NPROC).erase initproc).countP (fun i => s.data.parent i = none) = 0 ↔
        ∀ i, s.data.parent i = none → i = initproc := by
      rw [countP_eq_zero]
      refine ⟨fun all i orphan => ?_, fun all i inside orphan => ?_⟩
      · by_contra other
        exact all i ((mem_erase_of_ne other).mpr (mem_finRange i)) (by simpa using orphan)
      · exact ne_of_mem_erase inside (all i (by simpa using orphan))
    simp only [first, ne_eq, not_false_eq_true, true_and, forall_const, ← others]
    omega
  · obtain ⟨g, grand, -⟩ := lineage p top (.inl aliveP)
    rw [refines.matched.parent] at grand
    refine iff_of_true ?_ ⟨first, fun child => ?_⟩
    · have same : ((finRange NPROC).erase p).countP (fun i => s.data.parent i = some g) =
          ((finRange NPROC).erase p).countP fun i =>
            (s.data.proc i).state ≠ .UNUSED ∧ i ≠ p ∧ s.data.parent i = some g := by
        refine countP_congr fun i inside => ?_
        simp only [decide_eq_true_eq]
        refine ⟨fun mine => ⟨?_, ne_of_mem_erase inside, mine⟩, fun all => all.2.2⟩
        exact (reach_rooted reached i (by simp [mine])).1
      simp [nuncle, uncles, parent, grand, countP_slots _ p, same]
    · rw [parent] at child
      exact absurd (Option.some.inj child) top

/-- The child of `init` has 62 uncles, one for each slot that is not in use. -/
theorem nuncle_child_of_init :
    (system (Fin NCPU) (1 / 10 : ℚ)).Reachable twoRunning ∧
      (twoRunning.data.proc 1).state = .RUNNING ∧ nuncle twoRunning.data 1 = some 62 ∧
      uncles twoRunning.data 1 = 0 ∧ nuncle twoRunning.data initproc = none := by
  refine ⟨?_, by decide +kernel, by decide +kernel, by decide +kernel, by decide +kernel⟩
  apply System.Reach.run_getD (.start atBoot_start) (System.admits_true _ _ _)
  decide +kernel

/-- `init` forks again, and its first child forks; CPUs 3 and 4 pick the new processes. -/
def fourRunning : State (Fin NCPU) ℚ :=
  ((system (Fin NCPU) (1 / 10)).run atBoot (forkEvents ++
    .call 1 .fork :: replicate 9 (.advance 1) ++ replicate 3 (.advance 3) ++
    .call 2 .fork :: replicate 9 (.advance 2) ++ replicate 3 (.advance 4))).getD atBoot

/-- The grandchild of `init` counts its one uncle; the child still counts wrongly. -/
theorem nuncle_counts_iff_fourRunning : uncles fourRunning.data 3 = 1 ∧
    nuncle fourRunning.data 3 = some (uncles fourRunning.data 3 : Int) ∧
    nuncle fourRunning.data 1 ≠ some (uncles fourRunning.data 1 : Int) := by
  have reached : (system (Fin NCPU) (1 / 10 : ℚ)).Reachable fourRunning := by
    apply System.Reach.run_getD (.start atBoot_start) (System.admits_true _ _ _)
    decide +kernel
  have runs : ∀ me ∈ [1, 3], (fourRunning.data.proc me).state = .RUNNING := by decide +kernel
  have grandchild := nuncle_counts_iff reached (runs 3 (by decide))
  have child := nuncle_counts_iff reached (runs 1 (by decide))
  refine ⟨by decide +kernel, grandchild.mpr ⟨by decide, fun top => ?_⟩, fun right => ?_⟩
  · exact absurd top (by decide +kernel)
  · have slots := (child.mp right).2 (by decide +kernel)
    exact absurd (slots 4 (by decide +kernel)) (by decide)

end Xv6.Procs
