/-
# Xv6.Lib.LockOrder -- ranked locks and circular waits

Threads hold locks and may be blocked on one more. If there is a ranking under which every blocked
thread only holds locks of lower rank than the one it is blocked on, then no chain of blocked
threads closes: along the chain the rank of the wanted lock strictly grows. The ranking may be
chosen anew in each state.
-/
import Mathlib.Logic.Relation

namespace Xv6.Lib
set_option autoImplicit false

universe u v

/-- A snapshot: who holds what, and who is blocked on what. -/
structure Locking (T : Type u) (L : Type v) where
  holds : T → L → Prop
  wants : T → Option L

namespace Locking

variable {T : Type u} {L : Type v} (k : Locking T L)

/-- `t` is blocked on a lock that `u` holds. -/
def WaitsFor (t u : T) : Prop := ∃ l, k.wants t = some l ∧ k.holds u l

/-- Some chain of blocked threads closes at `t`. -/
def CircularWait (t : T) : Prop := Relation.TransGen k.WaitsFor t t

def Ordered (rank : L → Nat) : Prop :=
  ∀ t held l, k.holds t held → k.wants t = some l → rank held < rank l

variable {k}

theorem Ordered.rank_lt {rank : L → Nat} (ordered : k.Ordered rank) {t u : T}
    (chain : Relation.TransGen k.WaitsFor t u) {l l' : L} (wantsT : k.wants t = some l)
    (wantsU : k.wants u = some l') : rank l < rank l' := by
  induction chain generalizing l' with
  | single waits =>
    obtain ⟨m, wants, held⟩ := waits
    cases wantsT.symm.trans wants
    exact ordered _ _ _ held wantsU
  | tail chain waits ih =>
    obtain ⟨m, wants, held⟩ := waits
    exact Nat.lt_trans (ih wants) (ordered _ _ _ held wantsU)

/-- **Ranked locks do not deadlock.** -/
theorem Ordered.not_circularWait {rank : L → Nat} (ordered : k.Ordered rank) (t : T) :
    ¬ k.CircularWait t := by
  intro chain
  obtain ⟨u, ⟨l, wants, -⟩, -⟩ := Relation.TransGen.head'_iff.mp chain
  exact Nat.lt_irrefl _ (ordered.rank_lt chain wants wants)

/-- Two threads that block each other are a circular wait. -/
theorem circularWait_of_pair {t u : T} (forth : k.WaitsFor t u) (back : k.WaitsFor u t) :
    k.CircularWait t :=
  .tail (.single forth) back

end Locking

end Xv6.Lib
