import DependentCore.Syntax.Term

/-!
# Equality up to bound names

`Term.alphaEq a b` decides whether two terms differ at most in the names of their bound variables.
Notes are ignored. The comparison walks both terms together and remembers, innermost first, which
arguments of the two sides stand at the same position.
-/

namespace DependentCore

variable {p : Phase}

/-- The variables bound at the same position on either side, innermost first. -/
abbrev Paired := List (Option Var × Option Var)

/-- Two variables are equal if the innermost position that binds one of them binds both, or if no
position binds either and they are the same variable. -/
def Paired.sameVar : Paired → Var → Var → Bool
  | [], x, y => x = y
  | (a, b) :: outer, x, y =>
    if a = some x ∨ b = some y then a = some x ∧ b = some y else sameVar outer x y

mutual

/-- Equality of terms under paired binders. -/
def Term.alphaEqUnder (st : Paired) : Term p → Term p → Bool
  | .mk _ f, .mk _ g => f.alphaEqUnder st g
termination_by structural x _ => x

/-- Equality of forms under paired binders. -/
def Form.alphaEqUnder (st : Paired) : Form p → Form p → Bool
  | .atom a, .atom b => a = b
  | .var x, .var y => st.sameVar x y
  | .unary op x, .unary op' y => op = op' && x.alphaEqUnder st y
  | .binary op x₁ x₂, .binary op' y₁ y₂ =>
    op = op' && x₁.alphaEqUnder st y₁ && x₂.alphaEqUnder st y₂
  | .app f xs, .app g ys => f.alphaEqUnder st g && alphaEqList st xs ys
  | .list xs, .list ys => alphaEqList st xs ys
  | .bind _ t, .bind _ u => t.alphaEqUnder st u
  | _, _ => false
termination_by structural x _ => x

/-- Equality of telescopes under paired binders: quantities agree, and the arguments of one
position are paired in all that follows. -/
def Tele.alphaEqUnder {k l : Binder} (st : Paired) : Tele p k → Tele p l → Bool
  | .fields, .fields => true
  | .returns m ret, .returns m' ret' => m = m' && ret.alphaEqUnder st ret'
  | .runs m ret body, .runs m' ret' body' =>
    m = m' && ret.alphaEqUnder st ret' && alphaEqBody st body body'
  | .arg _ qty ty v rest, .arg _ qty' ty' v' rest' =>
    qty = qty' && ty.alphaEqUnder st ty' && rest.alphaEqUnder ((v, v') :: st) rest'
  | _, _ => false
termination_by structural x _ => x

/-- Equality of statements under paired binders. -/
def Stmt.alphaEqUnder (st : Paired) : Stmt p → Stmt p → Bool
  | .call _ x, .call _ y => x.alphaEqUnder st y
  | .ifThen _ c yes, .ifThen _ c' yes' => c.alphaEqUnder st c' && alphaEqBody st yes yes'
  | .ifElse _ c yes no, .ifElse _ c' yes' no' =>
    c.alphaEqUnder st c' && alphaEqBody st yes yes' && alphaEqBody st no no'
  | .ret _ x, .ret _ y => x.alphaEqUnder st y
  | .retUnit _, .retUnit _ => true
  | .impossible _, .impossible _ => true
  | .impossibleBy _ x, .impossibleBy _ y => x.alphaEqUnder st y
  | _, _ => false
termination_by structural x _ => x

/-- Equality of lists of terms under paired binders. -/
def alphaEqList (st : Paired) : List (Term p) → List (Term p) → Bool
  | [], [] => true
  | x :: xs, y :: ys => x.alphaEqUnder st y && alphaEqList st xs ys
  | _, _ => false
termination_by structural x _ => x

/-- Equality of bodies under paired binders. -/
def alphaEqBody (st : Paired) : List (Stmt p) → List (Stmt p) → Bool
  | [], [] => true
  | s :: rest, s' :: rest' => s.alphaEqUnder st s' && alphaEqBody st rest rest'
  | _, _ => false
termination_by structural x _ => x

end

/-- Equality of terms up to the names of bound variables. -/
def Term.alphaEq (a b : Term p) : Bool :=
  a.alphaEqUnder [] b

/-- Equality of telescopes up to the names of bound variables. -/
def Tele.alphaEq {k l : Binder} (t : Tele p k) (u : Tele p l) : Bool :=
  t.alphaEqUnder [] u

end DependentCore
