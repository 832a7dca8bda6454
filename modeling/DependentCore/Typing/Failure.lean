import DependentCore.Typing.Context

/-!
# Failures of checking

* `Cause`: what is wrong with a program,
* `TypeError`: a cause, where it was found and in which context,
* `Failure`: checking ends without a result because the program is wrong, or because types could
  not be compared with the fuel given.
-/

namespace DependentCore

/-- What is wrong with a program. -/
inductive Cause where
  /-- A numeric literal is checked against a type that is no integer type. -/
  | numeralType (ty : Checked)
  | numeralRange (ty : Checked)
  | numeralAlone
  | mismatch (actual expected : Checked)
  | listLength (actual : Nat) (expected : Int)
  | listType (ty : Checked)
  | listAlone
  | unknownSize (ty : Checked)
  | notProvable (cond : Checked)
  | autoUnknown
  | unboundVar (v : Var)
  | unboundGlobal (g : GlobalName)
  | typenameAsTerm
  /-- A term that is no function is applied; `typename` has no type. -/
  | notFunction (ty : Option Checked)
  | effectInPure
  | argumentCount (expected actual : Nat)
  | noMembers (ty : Checked)
  | noMember (field : String)
  | notIndexed (ty : Checked)
  | sigmaIndex
  | indexRange
  | notAddressable
  | notReference
  | notOrdered (ty : Checked) (op : RelOp)
  | notArithmetic (ty : Checked)
  | missingReturn
  | missingValue (ty : Checked)
  | notACall
  | maybeReachable
  | conflict (c : Conflict)
  | redefinition (name : String)
  | declarationMismatch (name : String)

/-- The wording of a cause. -/
def Cause.message : Cause → String
  | .numeralType ty => "numeric literal cannot have type `" ++ ty.text ++ "`"
  | .numeralRange ty => "numeric literal out of range for type `" ++ ty.text ++ "`"
  | .numeralAlone => "cannot assign a type to a numeric literal without context"
  | .mismatch actual expected =>
    "expression of type `" ++ actual.text ++ "` does not typecheck with expected type `"
      ++ expected.text ++ "`"
  | .listLength actual expected =>
    "initializer list has " ++ toString actual ++ " elements, expected " ++ toString expected
  | .listType ty => "initializer list cannot have type `" ++ ty.text ++ "`"
  | .listAlone => "cannot assign a type to an initializer list without context"
  | .unknownSize ty => "cannot determine the size of `" ++ ty.text ++ "`"
  | .notProvable cond => "cannot prove `" ++ cond.text ++ "`"
  | .autoUnknown => "cannot infer value for auto"
  | .unboundVar v => "variable not found: " ++ v.text
  | .unboundGlobal g => "global not found: " ++ g.text
  | .typenameAsTerm => "`typename` cannot be used as a term"
  | .notFunction ty => "expression of type `" ++ (ty.map (·.text)).getD "" ++ "` cannot be applied"
  | .effectInPure => "cannot invoke mutable function inside immutable context"
  | .argumentCount expected actual =>
    "function expects " ++ toString expected ++ " arguments, but " ++ toString actual
      ++ " were given"
  | .noMembers ty => "type `" ++ ty.text ++ "` has no members"
  | .noMember field => "no member named " ++ field
  | .notIndexed ty => "type `" ++ ty.text ++ "` cannot be subscripted"
  | .sigmaIndex => "subscript of a sigma type must be a numeric literal"
  | .indexRange => "subscript out of range"
  | .notAddressable => "only variables can be addressed"
  | .notReference => "cannot dereference a non-reference"
  | .notOrdered ty op => "cannot compare values of type `" ++ ty.text ++ "` with " ++ op.text
  | .notArithmetic ty => "arithmetic on values of type `" ++ ty.text ++ "` is not supported"
  | .missingReturn => "missing return statement"
  | .missingValue ty =>
    "return statement without value in function returning `" ++ ty.text ++ "`"
  | .notACall => "expression statement must be a function call"
  | .maybeReachable => "cannot prove that this statement is unreachable"
  | .conflict c => "conflicting declaration of " ++ c.var.text
  | .redefinition name => "redefinition of global " ++ name
  | .declarationMismatch name => "definition of " ++ name ++ " does not match its declaration"

/-- A cause, where it was found and in which context, and the type that was expected there. -/
structure TypeError where
  cause : Cause
  loc : Option Location
  ctx : Context
  expected : Option Checked := none

/-- The report of an error. A conflict has its own place and reason. -/
def TypeError.report (e : TypeError) : Report :=
  match e.cause with
  | .conflict c => c.report
  | cause => .mk cause.message e.loc []

/-- The text of an error: its report, and below it the context and the type expected. -/
def TypeError.text (e : TypeError) : String :=
  e.report.text ++ "\n" ++ e.ctx.text ++ (match e.expected with
    | some ty => " ⊢ " ++ ty.text
    | none => "")

/-- Why checking ends without a result. -/
inductive Failure where
  | rejected (e : TypeError)
  | outOfFuel

/-- The outcome of checking. -/
abbrev Check := Except Failure

/-- Reject a program for a cause. -/
def reject {α : Type} (cause : Cause) (loc : Location) (ctx : Context)
    (expected : Option Checked := none) : Check α :=
  .error (.rejected ⟨cause, some loc, ctx, expected⟩)

/-- The result of a bounded computation. -/
def fueled {α : Type} : Option α → Check α
  | some a => .ok a
  | none => .error .outOfFuel

end DependentCore
