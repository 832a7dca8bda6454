import DependentCore.Syntax.Term

/-!
# First-order matching

An argument that is left to be inferred is found by matching the declared type of a later argument
against the type that the later argument has. `Term.match? v pattern target` is the first subterm
of the target that stands where the pattern has the variable `v`; the two must have the same shape
on the way down.
-/

namespace DependentCore

variable {p : Phase}

/-- Whether two forms with one subterm are of the same kind. -/
def Unary.sameKind : Unary → Unary → Bool
  | .member _, .member _ => true
  | a, b => a = b

/-- Whether two forms with two subterms are of the same kind. -/
def Binary.sameKind : Binary → Binary → Bool
  | .logic _, .logic _ | .compare _, .compare _ | .arith _, .arith _ => true
  | a, b => a = b

/-- Whether two forms with subterms are of the same kind, operators and names apart. -/
def Form.sameKind : Form p → Form p → Bool
  | .unary a _, .unary b _ => a.sameKind b
  | .binary a _ _, .binary b _ _ => a.sameKind b
  | .app _ _, .app _ _ | .list _, .list _ => true
  | .bind k _, .bind l _ => k = l
  | _, _ => false

mutual

/-- The first subterm of the target where the pattern has the variable. -/
def Term.match? (v : Var) : Term p → Term p → Option (Term p)
  | .mk _ (.var w), target => if w = v then some target else none
  | .mk _ form, target =>
    if form.sameKind target.form && form.children.length = target.form.children.length then
      form.matchParts? v target.form.children
    else none

/-- Match the direct subterms of a form one by one. -/
def Form.matchParts? (v : Var) : Form p → List (Term p) → Option (Term p)
  | .unary _ x, [t] => x.match? v t
  | .binary _ x y, [t, u] => x.match? v t <|> y.match? v u
  | .app f args, t :: ts => f.match? v t <|> matchList? v args ts
  | .list xs, ts => matchList? v xs ts
  | .bind _ tele, ts => tele.matchParts? v ts
  | _, _ => none

/-- Match the argument types and the return type of a telescope one by one. -/
def Tele.matchParts? {k : Binder} (v : Var) : Tele p k → List (Term p) → Option (Term p)
  | .returns _ ret, [t] => ret.match? v t
  | .runs _ ret _, [t] => ret.match? v t
  | .arg _ _ ty _ rest, t :: ts => ty.match? v t <|> rest.matchParts? v ts
  | _, _ => none

/-- Match the terms of a list one by one. -/
def matchList? (v : Var) : List (Term p) → List (Term p) → Option (Term p)
  | x :: xs, t :: ts => x.match? v t <|> matchList? v xs ts
  | _, _ => none

end

end DependentCore
