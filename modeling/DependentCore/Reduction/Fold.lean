import DependentCore.Effect
import DependentCore.Globals.Env
import DependentCore.Integer

/-!
# Folding

`Term.fold?` evaluates a primitive operation at the root of a term whose operands are literal:
operators on booleans and numbers, the selection of an element of an initializer list, and `slice`.
Arithmetic wraps around at the type of the node; a division by zero is left as it is. Elements of a
list are dropped only if they have no effects.
-/

namespace DependentCore

/-- The value of an operator on booleans. -/
def BoolOp.eval : BoolOp → Bool → Bool → Bool
  | .and, a, b => a && b
  | .or, a, b => a || b
  | .xor, a, b => a != b

/-- The value of a comparison, given how the operands are ordered. -/
def RelOp.eval : RelOp → Ordering → Bool
  | .eq, o => o.isEq
  | .neq, o => o.isNe
  | .lt, o => o.isLT
  | .lte, o => o.isLE
  | .gt, o => o.isGT
  | .gte, o => o.isGE

/-- The value of an arithmetic operator before it is wrapped around. Division rounds towards zero
and is undefined by zero. -/
def ArithOp.eval? : ArithOp → Int → Int → Option Int
  | .plus, a, b => some (a + b)
  | .minus, a, b => some (a - b)
  | .times, a, b => some (a * b)
  | .div, a, b => if b = 0 then none else some (a.tdiv b)

/-- The order of two literals of the same kind. -/
def compareLiterals? : Form .checked → Form .checked → Option Ordering
  | .atom (.num a), .atom (.num b) => some (compare a b)
  | .atom (.lit a), .atom (.lit b) => some (compare a b)
  | _, _ => none

/-- The value of an arithmetic operator at a type. -/
def arithResult? (env : Env) (ty : Option Checked) (op : ArithOp) :
    Form .checked → Form .checked → Option Int
  | .atom (.num a), .atom (.num b) => do
    let t ← env.intType? (← ty)
    return t.wrap (← op.eval? a b)
  | _, _ => none

/-- The elements of an initializer list without effects. -/
def Form.pureElements? : Form .checked → Option (List Checked)
  | .list xs => if hasEffectList xs then none else some xs
  | _ => none

/-- The position of the first field of the given name. -/
def Tele.positionOf? (fs : Fields .checked) (field : String) : Option Nat :=
  fs.args.findIdx? fun a => a.var.map (·.name) = some field

/-- The member of an initializer list. -/
def selectMember? (env : Env) (x : Checked) (field : String) : Option Checked := do
  let xs ← x.form.pureElements?
  let fs ← env.fields? (← x.sort?)
  xs[← fs.positionOf? field]?

/-- The element of an initializer list at a literal position. -/
def selectElement? (x i : Checked) : Option Checked :=
  match i.form with
  | .atom (.num n) => do
    let xs ← x.form.pureElements?
    xs[← position? n]?
  | _ => none

/-- The elements of an initializer list from a literal position on. -/
def dropElements? (args : List Checked) : Option (List Checked) :=
  match args with
  | _ :: _ :: ⟨_, .list xs⟩ :: ⟨_, .atom (.num n)⟩ :: _ => do
    let k ← position? n
    if k ≤ xs.length && !hasEffectList (xs.take k) then some (xs.drop k) else none
  | _ => none

/-- Evaluate the primitive operation at the root of a term. -/
def Term.fold? (env : Env) : Checked → Option Checked
  | .mk note (.unary .not ⟨_, .atom (.lit b)⟩) => some (.mk note (.atom (.lit !b)))
  | .mk note (.binary (.logic op) ⟨_, .atom (.lit a)⟩ ⟨_, .atom (.lit b)⟩) =>
    some (.mk note (.atom (.lit (op.eval a b))))
  | .mk note (.binary (.compare op) x y) =>
    (compareLiterals? x.form y.form).map fun o => .mk note (.atom (.lit (op.eval o)))
  | .mk note (.binary (.arith op) x y) =>
    (arithResult? env note.sort? op x.form y.form).map fun n => .mk note (.atom (.num n))
  | .mk _ (.unary (.member field) x) => selectMember? env x field
  | .mk _ (.binary .subscript x i) => selectElement? x i
  | .mk note (.app ⟨_, .atom (.global g)⟩ args) =>
    if env.isBuiltinSlice g then (dropElements? args).map fun xs => .mk note (.list xs) else none
  | _ => none

end DependentCore
