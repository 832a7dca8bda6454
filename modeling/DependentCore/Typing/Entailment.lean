import DependentCore.Reduction.Normal
import DependentCore.Typing.Failure

/-!
# Equality of types and provable conditions

* `Env.equivalent`: two types are equal if their normal forms differ only in bound names,
* `Env.provable`: a condition holds if its normal form is `true` or an assumption, or if the
  assumptions contradict each other,
* `Env.facts`, `contradictory`: the assumptions in normal form, and whether they exclude each
  other.
-/

namespace DependentCore

variable [c : Indexing]

/-- The normal form of a term. -/
def Env.normal (env : Env) (fuel : Nat) (t : Checked) : Check Checked :=
  fueled (env.normalize? fuel t)

/-- Whether two terms have the same normal form up to bound names. -/
def Env.equivalent (env : Env) (fuel : Nat) (a b : Checked) : Check Bool := do
  let a ← env.normal fuel a
  let b ← env.normal fuel b
  return a.alphaEq b

/-- The assumptions of a context in normal form. -/
def Env.facts (env : Env) (fuel : Nat) (ctx : Context) : Check (List Checked) :=
  ctx.assumptions.mapM (env.normal fuel)

/-- Whether a fact excludes one of the facts: it is `false`, or the negation of one of them. -/
def excludes (facts : List Checked) : Checked → Bool
  | .mk _ (.atom (.lit b)) => !b
  | .mk _ (.unary .not x) => facts.any (·.alphaEq x)
  | _ => false

/-- Whether some fact excludes another. -/
def contradictory (facts : List Checked) : Bool :=
  facts.any (excludes facts)

/-- Whether a condition holds in a context. -/
def Env.provable (env : Env) (fuel : Nat) (ctx : Context) (cond : Checked) : Check Bool := do
  let cond ← env.normal fuel cond
  if cond.isLit true then
    return true
  let facts ← env.facts fuel ctx
  return facts.any (·.alphaEq cond) || contradictory facts

end DependentCore
