/-
# Xv6.Fs.Bitmap -- setting one bit

`mark` changes what `Used` says of one block and of no other.
-/
import Xv6.Fs.Effects

namespace Xv6.Fs
set_option autoImplicit false

variable {b c : Nat}

theorem bitMask_and (apart : b % 8 ≠ c % 8) : bitMask b &&& bitMask c = 0 := by
  have table : ∀ i j : Fin 8, i ≠ j →
      (1 <<< UInt8.ofNat i : Byte) &&& (1 <<< UInt8.ofNat j) = 0 := by decide
  have smallB : b % 8 < 8 := Nat.mod_lt _ (by decide)
  have smallC : c % 8 < 8 := Nat.mod_lt _ (by decide)
  exact table ⟨b % 8, smallB⟩ ⟨c % 8, smallC⟩ fun same => apart (congrArg Fin.val same)

section Bits

variable {x m k : Byte}

theorem bits_disjoint (disjoint : m &&& k = 0) (i : Nat) :
    (m.toBitVec.getLsbD i && k.toBitVec.getLsbD i) = false := by
  have bits := congrArg (fun y : Byte => y.toBitVec.getLsbD i) disjoint
  simpa using bits

theorem byte_ext {y : Byte} (same : ∀ i < 8, x.toBitVec.getLsbD i = y.toBitVec.getLsbD i) : x = y := by
  apply UInt8.toBitVec_inj.mp
  ext i inside
  simpa [BitVec.getLsbD_eq_getElem inside] using same i inside

theorem or_and_of_disjoint (disjoint : m &&& k = 0) : (x ||| m) &&& k = x &&& k := by
  refine byte_ext fun i _ => ?_
  have bits := bits_disjoint disjoint i
  simp only [UInt8.toBitVec_and, UInt8.toBitVec_or, BitVec.getLsbD_and, BitVec.getLsbD_or]
  grind

end Bits

theorem apart_of_ne (other : b ≠ c) (same : b / 8 = c / 8) : b % 8 ≠ c % 8 := by omega

theorem used_mark_iff {data : Block} : Used (mark data c) b ↔ b = c ∨ Used data b := by
  by_cases same : b = c
  · subst same
    simp [used_mark]
  · simp only [same, false_or]
    unfold Used mark
    by_cases byte : b / 8 = c / 8
    · rw [byte, Function.update_self, or_and_of_disjoint]
      exact bitMask_and (apart_of_ne same byte).symm
    · rw [Function.update_of_ne byte]

end Xv6.Fs
