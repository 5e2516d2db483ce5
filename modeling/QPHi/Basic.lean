import Mathlib.Algebra.Group.Int.Defs
import Mathlib.Algebra.GroupWithZero.Nat
import Mathlib.Data.Nat.Init

/-! Addresses and return codes shared by the modules of the library (`core/qp_defines.h`). -/

namespace QPHi

/-- An address. Reading or writing through `NULL` is undefined, so the models below give it no result. -/
abbrev Ptr := Nat

abbrev NULL : Ptr := 0

/-- `qp_int_t` results: `QP_SUCCESS` is 0 and `QP_ERROR` is -1. -/
abbrev QP_SUCCESS : Int := 0
abbrev QP_ERROR : Int := -1

abbrev QP_FD_INVALID : Int := -1

end QPHi
