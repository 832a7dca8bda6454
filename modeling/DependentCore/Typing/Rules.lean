import DependentCore.Binding.Subst

/-!
# Checked terms

How the checker builds terms: each carries its sort. `typename` is the only term without a type;
types have the type `typename`.
-/

namespace DependentCore.Checked

/-- The type of types. -/
def typename : Checked :=
  .mk (.kind rfl) (.atom .typename)

/-- A term of a type. -/
def term (ty : Checked) (form : Form .checked) : Checked :=
  .mk (.sort ty rfl) form

/-- A type. -/
def type (form : Form .checked) : Checked :=
  term typename form

/-- The type of booleans. -/
def bool : Checked :=
  type (.atom .bool)

/-- The type of memory regions. -/
def scope : Checked :=
  type (.atom .scope)

/-- The type of sizes and positions. -/
def u64 : Checked :=
  type (.atom (.int .u64))

/-- The negation of a condition. -/
def not (cond : Checked) : Checked :=
  term bool (.unary .not cond)

/-- A pi type. -/
def pi (s : Signature .checked) : Checked :=
  type (.bind .pi s)

/-- The region in which a variable lives. -/
def scopeOf (x : Checked) : Checked :=
  term scope (.unary .scopeOf x)

/-! ## The built-in function -/

/-- The signature of the function `slice` that is built in:
`(0 typename t, u64 n, array_t(t, n) xs, u64 k, 0 true_t(k <= n)) -> array_t(t, n - k)`. -/
def slice : Signature .checked :=
  let t := type (.var { name := "t" })
  let n := term u64 (.var { name := "n" })
  let k := term u64 (.var { name := "k" })
  let array (size : Checked) := type (.binary .arrayT t size)
  let fits := type (.unary .trueT (term bool (.binary (.compare .lte) k n)))
  .arg () .zero typename (some { name := "t" }) <|
  .arg () .many u64 (some { name := "n" }) <|
  .arg () .many (array n) (some { name := "xs" }) <|
  .arg () .many u64 (some { name := "k" }) <|
  .arg () .zero fits none <|
  .returns .no (array (term u64 (.binary (.arith .minus) n k)))

end DependentCore.Checked
