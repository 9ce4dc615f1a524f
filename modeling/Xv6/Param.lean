/- The constants of `param.h` that the modelled code uses, and the type of panic texts. -/
import Mathlib.Tactic

namespace Xv6

set_option autoImplicit false

/-- The text a kernel `panic` prints. -/
abbrev Panic := String

/-- Maximum number of processes. -/
abbrev NPROC : Nat := 64
/-- Maximum number of CPUs. -/
abbrev NCPU : Nat := 4

instance : NeZero NPROC := ⟨by decide⟩

instance : NeZero NCPU := ⟨by decide⟩

/-- Maximum number of `exec` arguments. -/
abbrev MAXARG : Nat := 32

end Xv6
