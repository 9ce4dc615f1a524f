/-
# Xv6.Procs.Family -- processes and their parents, without CPUs or locks

What the process table is for, over any type of slots. A slot is free, holds an embryo, a live
process or a zombie. Every process has a number of its own, and numbers are never used again. One
process, the heir, never exits, and takes over the children of those that do.

* `Lawful` is the law of the log of forks, exits and reports: a process exits once and is reported
  at most once, after it exited, by its parent or, if that exited before, by the heir.
* `Tree` is the invariant. In every reachable state the processes have distinct numbers and live
  parents, and the log is lawful (`reach_tree`).
* `Lawful.map`: the law is kept by any renaming that tells the numbers of the log apart.
-/
import Xv6.Lib.Transition
import Xv6.Param

namespace Xv6.Procs
open Lib List Option Function
set_option autoImplicit false

/-! ## The log -/

/-- An entry of the log. -/
inductive Deed (ν : Type) where
  | fork (parent child : ν)
  | exit (name : ν)
  | report (waiter child : ν)
  deriving DecidableEq, Repr

namespace Deed

variable {ν μ : Type}

def map (f : ν → μ) : Deed ν → Deed μ
  | .fork q p => .fork (f q) (f p)
  | .exit p => .exit (f p)
  | .report q p => .report (f q) (f p)

/-- Every name in the entry has the property. -/
def All (P : ν → Prop) : Deed ν → Prop
  | .fork q p => P q ∧ P p
  | .exit p => P p
  | .report q p => P q ∧ P p

theorem All.mono {P Q : ν → Prop} (weaker : ∀ n, P n → Q n) {deed : Deed ν} (all : deed.All P) :
    deed.All Q := by
  cases deed with
  | fork q p | report q p => exact ⟨weaker q all.1, weaker p all.2⟩
  | exit p => exact weaker p all

/-- A renaming that tells the names apart tells the entries apart. -/
theorem map_injOn {f : ν → μ} {names : Set ν} (apart : Set.InjOn f names) :
    Set.InjOn (Deed.map f) {deed | deed.All (· ∈ names)} := by
  intro x inX y inY same
  -- the entries are of one kind
  cases x <;> cases y <;>
    simp only [map, fork.injEq, exit.injEq, report.injEq, reduceCtorEq] at same
  case exit => rw [apart inX inY same]
  case fork | report => rw [apart inX.1 inY.1 same.1, apart inX.2 inY.2 same.2]

end Deed

section Lawful

variable {ν μ : Type}

/-- The law of the log, newest entry first. -/
def Lawful (heir : ν) : List (Deed ν) → Prop
  | [] => True
  | .fork _ p :: past => (∀ q, .fork q p ∉ past) ∧ .exit p ∉ past ∧ Lawful heir past
  | .exit p :: past => .exit p ∉ past ∧ Lawful heir past
  | .report q p :: past =>
    .exit p ∈ past ∧ (∀ q', .report q' p ∉ past) ∧
      (∃ parent, .fork parent p ∈ past ∧
        (.exit parent ∉ past ∧ q = parent ∨ .exit parent ∈ past ∧ q = heir)) ∧
      Lawful heir past

theorem Lawful.map {f : ν → μ} {names : Set ν} (apart : Set.InjOn f names) {heir : ν}
    {log : List (Deed ν)} (known : ∀ deed ∈ log, deed.All (· ∈ names)) (lawful : Lawful heir log) :
    Lawful (f heir) (log.map (Deed.map f)) := by
  induction log with
  | nil => trivial
  | cons deed past ih =>
    have past_known : ∀ deed ∈ past, deed.All (· ∈ names) :=
      fun deed inside => known deed (mem_cons_of_mem _ inside)
    have here := known deed mem_cons_self
    have mem : ∀ x : Deed ν, x.All (· ∈ names) → x.map f ∈ past.map (Deed.map f) → x ∈ past := by
      intro x named inside
      obtain ⟨y, inPast, same⟩ := mem_map.mp inside
      rwa [← Deed.map_injOn apart (past_known y inPast) named same]
    -- an entry of the renamed log about `f p` is one about `p`
    have preimage : ∀ (y : Deed μ), y ∈ past.map (Deed.map f) → ∃ x ∈ past, x.map f = y :=
      fun y inside => mem_map.mp inside
    cases deed with
    | fork q p =>
      refine ⟨?_, ?_, ih past_known lawful.2.2⟩
      · intro r inside
        obtain ⟨x, inPast, same⟩ := preimage _ inside
        cases x with
        | fork r' p' =>
          simp only [Deed.map, Deed.fork.injEq] at same
          have named := past_known _ inPast
          rw [apart named.2 here.2 same.2] at inPast
          exact lawful.1 r' inPast
        | _ => cases same
      · intro inside
        exact lawful.2.1 (mem (.exit p) here.2 inside)
    | exit p =>
      refine ⟨?_, ih past_known lawful.2⟩
      intro inside
      exact lawful.1 (mem (.exit p) here inside)
    | report q p =>
      obtain ⟨exited, once, ⟨parent, forked, waiter⟩, before⟩ := lawful
      have parentNamed := (past_known _ forked).1
      refine ⟨mem_map_of_mem exited, ?_, ⟨f parent, mem_map_of_mem forked, ?_⟩,
        ih past_known before⟩
      · intro r inside
        obtain ⟨x, inPast, same⟩ := preimage _ inside
        cases x with
        | report r' p' =>
          simp only [Deed.map, Deed.report.injEq] at same
          have named := past_known _ inPast
          rw [apart named.2 here.2 same.2] at inPast
          exact once r' inPast
        | _ => cases same
      · rcases waiter with ⟨lives, rfl⟩ | ⟨gone, rfl⟩
        · exact .inl ⟨fun inside => lives (mem (.exit q) parentNamed inside), rfl⟩
        · exact .inr ⟨mem_map_of_mem gone, rfl⟩

end Lawful

/-! ## The model -/

inductive Stage where
  | free | embryo | alive | zombie
  deriving DecidableEq, Repr

namespace Family

structure State (ι : Type) where
  stage : ι → Stage
  /-- The number of the process in a slot that is not free. -/
  name : ι → ℕ
  parent : ι → Option ι
  /-- The next number to give out. -/
  next : ℕ
  log : List (Deed ℕ)

inductive Event (ι : Type) where
  | alloc (np : ι)
  | abandon (np : ι)
  | adopt (np me : ι)
  | ready (np me : ι)
  | exit (me : ι)
  | reap (me child : ι)
  deriving DecidableEq, Repr

variable {ι : Type} [DecidableEq ι]

def step (heir : ι) (s : State ι) : Event ι → Option (State ι)
  | .alloc np =>
    if s.stage np = .free then
      some { s with
        stage := update s.stage np .embryo
        name := update s.name np s.next
        next := s.next + 1 }
    else
      none
  | .abandon np =>
    if s.stage np = .embryo then
      some { s with stage := update s.stage np .free }
    else
      none
  | .adopt np me =>
    if s.stage np = .embryo ∧ s.stage me = .alive then
      some { s with parent := update s.parent np (some me) }
    else
      none
  | .ready np me =>
    if s.stage np = .embryo ∧ s.stage me = .alive ∧ s.parent np = some me then
      some { s with
        stage := update s.stage np .alive
        log := .fork (s.name me) (s.name np) :: s.log }
    else
      none
  | .exit me =>
    if s.stage me = .alive ∧ me ≠ heir then
      some { s with
        stage := update s.stage me .zombie
        parent := fun j => if s.parent j = some me then some heir else s.parent j
        log := .exit (s.name me) :: s.log }
    else
      none
  | .reap me child =>
    if s.stage child = .zombie ∧ s.stage me = .alive ∧ s.parent child = some me then
      some { s with
        stage := update s.stage child .free
        parent := update s.parent child none
        log := .report (s.name me) (s.name child) :: s.log }
    else
      none

/-- The heir alone, under number 1. -/
structure Start (heir : ι) (s : State ι) : Prop where
  first : s.stage heir = .alive ∧ s.name heir = 1
  others : ∀ i, i ≠ heir → s.stage i = .free
  parent : ∀ i, s.parent i = none
  next : s.next = 2
  log : s.log = []

def system (heir : ι) : System (State ι) (Event ι) where
  start := Start heir
  next := step heir

/-! ## The invariant -/

/-- A process, as opposed to a free slot or an embryo. -/
def Formed (s : State ι) (i : ι) : Prop := s.stage i = .alive ∨ s.stage i = .zombie

/-- The parent of a process lives: it is the one that forked it, or the heir if that exited. -/
def Lineage (heir : ι) (s : State ι) (i : ι) : Prop :=
  ∃ p, s.parent i = some p ∧ s.stage p = .alive ∧
    ∃ q, .fork q (s.name i) ∈ s.log ∧
      (.exit q ∉ s.log ∧ s.name p = q ∨ .exit q ∈ s.log ∧ p = heir)

structure Tree (heir : ι) (s : State ι) : Prop where
  below : ∀ i, s.stage i ≠ .free → s.name i < s.next
  distinct : ∀ i j, s.stage i ≠ .free → s.stage j ≠ .free → s.name i = s.name j → i = j
  first : s.stage heir = .alive ∧ s.name heir = 1
  orphan : s.parent heir = none
  loopless : ∀ i, s.parent i ≠ some i
  lineage : ∀ i, i ≠ heir → Formed s i → Lineage heir s i
  known : ∀ deed ∈ s.log, deed.All (· < s.next)
  unborn : ∀ i q, s.stage i = .embryo → .fork q (s.name i) ∉ s.log
  running : ∀ i, s.stage i = .embryo ∨ s.stage i = .alive → .exit (s.name i) ∉ s.log
  exited : ∀ i, s.stage i = .zombie → .exit (s.name i) ∈ s.log
  unreported : ∀ i q, s.stage i ≠ .free → .report q (s.name i) ∉ s.log
  lawful : Lawful 1 s.log

attribute [local grind =] update_apply
attribute [local grind cases] Tree

/-! ## What each step keeps -/

section Steps

variable {heir : ι} {s s' : State ι} {np me child : ι}

omit [DecidableEq ι] in
/-- The next number is in no entry of the log yet. -/
theorem Tree.unknown (tree : Tree heir s) :
    .exit s.next ∉ s.log ∧ ∀ q, .fork q s.next ∉ s.log ∧ .report q s.next ∉ s.log := by
  refine ⟨?_, fun q => ⟨?_, ?_⟩⟩
  · intro inside
    exact absurd (tree.known _ inside) (lt_irrefl s.next)
  · intro inside
    exact absurd (tree.known _ inside).2 (lt_irrefl s.next)
  · intro inside
    exact absurd (tree.known _ inside).2 (lt_irrefl s.next)

omit [DecidableEq ι] in
/-- The heir is no embryo and no zombie, and no free slot. -/
theorem Tree.ne_heir (tree : Tree heir s) {i : ι} (other : s.stage i ≠ .alive) : i ≠ heir := by
  rintro rfl
  exact other tree.first.1

theorem Tree.alloc (tree : Tree heir s) (stepped : step heir s (.alloc np) = some s') :
    Tree heir s' := by
  simp only [step, ite_none_right_eq_some, some.injEq] at stepped
  obtain ⟨free, rfl⟩ := stepped
  obtain ⟨noExit, noFork⟩ := tree.unknown
  constructor
  case orphan => exact tree.orphan
  case loopless => exact tree.loopless
  case lineage =>
    have lineage := tree.lineage
    unfold Lineage Formed at *
    grind
  case known =>
    intro deed inside
    exact (tree.known deed inside).mono fun n small => Nat.lt_succ_of_lt small
  case lawful => exact tree.lawful
  case below | distinct | first | unborn | running | exited | unreported => grind

theorem Tree.abandon (tree : Tree heir s) (stepped : step heir s (.abandon np) = some s') :
    Tree heir s' := by
  simp only [step, ite_none_right_eq_some, some.injEq] at stepped
  obtain ⟨embryo, rfl⟩ := stepped
  constructor
  case orphan => exact tree.orphan
  case loopless => exact tree.loopless
  case lineage =>
    have lineage := tree.lineage
    unfold Lineage Formed at *
    grind
  case known => exact tree.known
  case lawful => exact tree.lawful
  case below | distinct | first | unborn | running | exited | unreported => grind

theorem Tree.adopt (tree : Tree heir s) (stepped : step heir s (.adopt np me) = some s') :
    Tree heir s' := by
  simp only [step, ite_none_right_eq_some, some.injEq] at stepped
  obtain ⟨⟨embryo, alive⟩, rfl⟩ := stepped
  refine { tree with orphan := ?_, loopless := ?_, lineage := ?_ }
  · have other : heir ≠ np := (tree.ne_heir (by simp [embryo])).symm
    show update s.parent np (some me) heir = none
    rw [update_of_ne other]
    exact tree.orphan
  · grind
  · have lineage := tree.lineage
    unfold Lineage Formed at *
    grind

theorem Tree.ready (tree : Tree heir s) (stepped : step heir s (.ready np me) = some s') :
    Tree heir s' := by
  simp only [step, ite_none_right_eq_some, some.injEq] at stepped
  obtain ⟨⟨embryo, alive, adopted⟩, rfl⟩ := stepped
  constructor
  case orphan => exact tree.orphan
  case loopless => exact tree.loopless
  case lineage =>
    -- the new process has the parent that forked it just now
    have keeps : ∀ p, s.stage p = .alive → update s.stage np .alive p = .alive := by grind
    intro i other formed
    by_cases new : i = np
    · subst new
      refine ⟨me, adopted, keeps me alive, s.name me, mem_cons_self, .inl ⟨?_, rfl⟩⟩
      simpa using tree.running me (.inr alive)
    · have formed : Formed s i := by simpa [Formed, new] using formed
      obtain ⟨p, parent, lives, q, forked, cause⟩ := tree.lineage i other formed
      refine ⟨p, parent, keeps p lives, q, mem_cons_of_mem _ forked, ?_⟩
      simpa using cause
  case known =>
    intro deed inside
    rcases mem_cons.mp inside with rfl | before
    · exact ⟨tree.below me (by simp [alive]), tree.below np (by simp [embryo])⟩
    · exact tree.known deed before
  case lawful =>
    exact ⟨fun q => tree.unborn np q embryo, tree.running np (.inl embryo), tree.lawful⟩
  case below | distinct | first | unborn | running | exited | unreported => grind

theorem Tree.exit (tree : Tree heir s) (stepped : step heir s (.exit me) = some s') :
    Tree heir s' := by
  simp only [step, ite_none_right_eq_some, some.injEq] at stepped
  obtain ⟨⟨alive, notHeir⟩, rfl⟩ := stepped
  constructor
  case lineage =>
    -- a child of `me` had it as its own parent, and goes to the heir; the others keep theirs
    intro i other formed
    have formed : Formed s i := by grind [Formed]
    obtain ⟨p, parent, lives, q, forked, cause⟩ := tree.lineage i other formed
    grind [Lineage]
  case known =>
    intro deed inside
    rcases mem_cons.mp inside with rfl | before
    · exact tree.below me (by simp [alive])
    · exact tree.known deed before
  case lawful => exact ⟨tree.running me (.inr alive), tree.lawful⟩
  case below | distinct | first | orphan | loopless | unborn | running | exited | unreported => grind

theorem Tree.reap (tree : Tree heir s) (stepped : step heir s (.reap me child) = some s') :
    Tree heir s' := by
  simp only [step, ite_none_right_eq_some, some.injEq] at stepped
  obtain ⟨⟨zombie, alive, mine⟩, rfl⟩ := stepped
  constructor
  case lineage =>
    intro i other formed
    have apart : i ≠ child := by
      rintro rfl
      simp [Formed] at formed
    have formed : Formed s i := by simpa [Formed, apart] using formed
    obtain ⟨p, parent, lives, q, forked, cause⟩ := tree.lineage i other formed
    have stays : p ≠ child := by
      rintro rfl
      rw [zombie] at lives
      cases lives
    refine ⟨p, by simpa [apart] using parent, by simpa [stays] using lives, q,
      mem_cons_of_mem _ forked, ?_⟩
    simpa using cause
  case known =>
    intro deed inside
    rcases mem_cons.mp inside with rfl | before
    · exact ⟨tree.below me (by simp [alive]), tree.below child (by simp [zombie])⟩
    · exact tree.known deed before
  case lawful =>
    have other : child ≠ heir := tree.ne_heir (by simp [zombie])
    obtain ⟨p, parent, -, q, forked, cause⟩ := tree.lineage child other (.inr zombie)
    rw [mine] at parent
    cases parent
    refine ⟨tree.exited child zombie, fun r => tree.unreported child r (by simp [zombie]),
      ⟨q, forked, ?_⟩, tree.lawful⟩
    rcases cause with ⟨lives, same⟩ | ⟨gone, rfl⟩
    · exact .inl ⟨lives, same⟩
    · exact .inr ⟨gone, tree.first.2⟩
  case below | distinct | first | orphan | loopless | unborn | running | exited | unreported => grind

end Steps

variable {heir : ι} {s : State ι}

omit [DecidableEq ι] in
theorem Start.tree (start : Start heir s) : Tree heir s := by
  obtain ⟨first, others, parent, next, log⟩ := start
  have only : ∀ i, s.stage i ≠ .free → i = heir := by
    intro i used
    by_contra other
    exact used (others i other)
  constructor
  case below => grind
  case distinct => grind
  case first => exact first
  case orphan => exact parent heir
  case loopless => grind
  case lineage =>
    intro i other formed
    refine absurd (only i ?_) other
    rcases formed with alive | zombie <;> simp [*]
  case known => simp [log]
  case unborn => simp [log]
  case running => simp [log]
  case exited => grind
  case unreported => simp [log]
  case lawful =>
    rw [log]
    trivial

/-- **The family tree.** In every state a family reaches, every process has a number of its own and
a live parent, and the log of forks, exits and reports is lawful. -/
theorem reach_tree (reached : (system heir).Reachable s) : Tree heir s := by
  induction reached with
  | start initial => exact Start.tree initial
  | @step _ _ e _ _ stepped tree =>
    cases e with
    | alloc np => exact tree.alloc stepped
    | abandon np => exact tree.abandon stepped
    | adopt np me => exact tree.adopt stepped
    | ready np me => exact tree.ready stepped
    | exit me => exact tree.exit stepped
    | reap me child => exact tree.reap stepped

end Family

end Xv6.Procs
