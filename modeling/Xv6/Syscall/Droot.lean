/-
# Xv6.Syscall.Droot -- the digital root system call

`droot` replaces the number by the sum of its digits until one digit is left. The digit loop keeps the
number modulo 9 and makes a number of two digits or more smaller, so the outer loop ends, no sum leaves
the range of an `int`, and what is left is the residue between 1 and 9.
-/
import Xv6.Param

namespace Xv6.Syscall
set_option autoImplicit false

/-- The inner loop of `droot`, with C's truncating `%` and `/`. -/
def sumDigits (sum temp : Int) : Int :=
  if 0 < temp then sumDigits (sum + temp.tmod 10) (temp.tdiv 10) else sum
termination_by temp.toNat
decreasing_by rw [Int.tdiv_eq_ediv_of_nonneg (by omega)]; omega

/-- What the digit loop adds to `sum_digits`: a number congruent to `temp` modulo 9, positive if `temp`
is, and below `temp` from two digits on. -/
theorem sumDigits_spec (sum temp : Int) (nonneg : 0 ≤ temp) :
    (sumDigits sum temp - sum) % 9 = temp % 9 ∧ sum + min temp 1 ≤ sumDigits sum temp ∧
      sumDigits sum temp ≤ sum + temp ∧ (9 < temp → sumDigits sum temp < sum + temp) := by
  fun_induction sumDigits sum temp with
  | case1 sum temp pos ih =>
    rw [Int.tmod_eq_emod_of_nonneg nonneg, Int.tdiv_eq_ediv_of_nonneg nonneg] at ih ⊢
    omega
  | case2 sum temp done => omega

def droot (n : Int) : Int :=
  if 9 < n then droot (sumDigits 0 n) else n
termination_by n.toNat
decreasing_by
  have := sumDigits_spec 0 n (by omega)
  omega

theorem droot_of_pos (n : Int) (pos : 0 < n) : droot n = 1 + (n - 1) % 9 := by
  fun_induction droot n with
  | case1 n more ih =>
    -- the sum is positive again and has the residue of `n`
    have sum := sumDigits_spec 0 n (by omega)
    omega
  | case2 n one => omega

/-- `sys_droot` takes its argument from `ebx` of the trap frame, not from the stack. -/
def sysDroot (ebx : BitVec 32) : Int := droot ebx.toInt

theorem digital_root (ebx : BitVec 32) :
    sysDroot ebx = if 0 < ebx.toInt then 1 + (ebx.toInt - 1) % 9 else ebx.toInt := by
  unfold sysDroot
  split
  case isTrue pos => exact droot_of_pos _ pos
  case isFalse neg =>
    rw [droot, if_neg (by omega)]

end Xv6.Syscall
