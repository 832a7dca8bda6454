import DependentCore.Syntax.Symbols

/-!
# Fixed-width integers

* `IntType.min`, `IntType.max`: the smallest and the largest value of a type,
* `IntType.contains`: whether a number is a value of a type,
* `IntType.wrap`: the value a number has when it is stored in a type, wrapping around on overflow.
-/

namespace DependentCore

/-- The number of values of a type. -/
def IntType.modulus (t : IntType) : Int :=
  Int.pow 2 t.width.bits

/-- Half the number of values of a type. -/
def IntType.half (t : IntType) : Int :=
  Int.pow 2 (t.width.bits - 1)

/-- The smallest value of a type. -/
def IntType.min (t : IntType) : Int :=
  match t.sign with
  | .unsigned => 0
  | .signed => -t.half

/-- The largest value of a type. -/
def IntType.max (t : IntType) : Int :=
  match t.sign with
  | .unsigned => t.modulus - 1
  | .signed => t.half - 1

/-- Whether a number is a value of a type. -/
def IntType.contains (t : IntType) (n : Int) : Bool :=
  t.min ≤ n && n ≤ t.max

/-- The value that a number has when stored in a type. The remainder by the number of values has the
sign of the number: a negative one is shifted above zero, and then the upper half of a signed type
is shifted below zero. -/
def IntType.wrap (t : IntType) (n : Int) : Int :=
  let r := n.tmod t.modulus
  let r := if r < 0 then r + t.modulus else r
  if t.sign = .signed ∧ t.half ≤ r then r - t.modulus else r

/-- A number as a position, if it is one: positions are counted in `u64`. -/
def position? (n : Int) : Option Nat :=
  if IntType.u64.contains n then some n.toNat else none

end DependentCore
