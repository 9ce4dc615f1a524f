/-
# Xv6.Lib.Absorb -- a list that takes every element once

A journal that absorbs repeated entries: `absorb l a` appends `a` unless `l` has it. `Absorbs l D l'`
says that `l'` is `l` after the elements of `D` were absorbed, in whatever order and however often.
Then `l'` is longer than `l` by exactly the elements of `D` that `l` did not have.
-/
import Mathlib.Tactic

namespace Xv6.Lib
set_option autoImplicit false

open List

variable {α : Type} [DecidableEq α]

def absorb (l : List α) (a : α) : List α := if a ∈ l then l else l ++ [a]

theorem absorb_length_le (l : List α) (a : α) : (absorb l a).length ≤ l.length + 1 := by
  unfold absorb
  split
  · exact Nat.le_succ _
  · rw [length_append, length_singleton]

def Absorbs (l : List α) (D : Finset α) (l' : List α) : Prop :=
  ∃ new, l' = l ++ new ∧ new.Nodup ∧ new.toFinset = D \ l.toFinset

section Absorbs

variable {l l' : List α} {D : Finset α}

theorem Absorbs.refl (l : List α) : Absorbs l ∅ l := ⟨[], by simp, by simp, by simp⟩

section

variable (absorbs : Absorbs l D l')
include absorbs

theorem Absorbs.mem (a : α) : a ∈ l' ↔ a ∈ l ∨ a ∈ D := by
  obtain ⟨new, rfl, -, same⟩ := absorbs
  have new_iff : a ∈ new ↔ a ∈ D ∧ a ∉ l := by
    rw [← mem_toFinset, same, Finset.mem_sdiff, mem_toFinset]
  rw [mem_append, new_iff]
  tauto

theorem Absorbs.nodup (once : l.Nodup) : l'.Nodup := by
  obtain ⟨new, rfl, nodup, same⟩ := absorbs
  refine nodup_append.mpr ⟨once, nodup, ?_⟩
  rintro a old b inside rfl
  rw [← mem_toFinset, same, Finset.mem_sdiff, mem_toFinset] at inside
  exact inside.2 old

theorem Absorbs.insert (a : α) : Absorbs l (insert a D) (absorb l' a) := by
  have mem := absorbs.mem a
  obtain ⟨new, rfl, nodup, same⟩ := absorbs
  unfold absorb
  split
  next old =>
    refine ⟨new, rfl, nodup, ?_⟩
    rw [same]
    ext b
    by_cases here : b = a
    · subst here
      simp only [Finset.mem_sdiff, Finset.mem_insert, mem_toFinset, true_or, true_and]
      tauto
    · simp [here]
  next absent =>
    have fresh : a ∉ l ∧ a ∉ new := by simpa using absent
    refine ⟨new ++ [a], by simp, ?_, ?_⟩
    · rw [nodup_append]
      refine ⟨nodup, by simp, ?_⟩
      rintro b inside c here rfl
      rw [mem_singleton] at here
      exact fresh.2 (here ▸ inside)
    · rw [toFinset_append, same]
      ext b
      by_cases here : b = a
      · simp [here, fresh.1]
      · simp [here]

theorem Absorbs.length : l'.length = l.length + (D \ l.toFinset).card := by
  obtain ⟨new, rfl, nodup, same⟩ := absorbs
  rw [length_append, ← same, toFinset_card_of_nodup nodup]

theorem Absorbs.length_le : l'.length ≤ l.length + D.card := by
  rw [absorbs.length]
  exact Nat.add_le_add_left (Finset.card_le_card Finset.sdiff_subset) _

end

end Absorbs

end Xv6.Lib
