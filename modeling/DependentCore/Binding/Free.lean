import DependentCore.Syntax.Term

/-!
# Free variables

`Term.occursFree x` decides whether `x` occurs free in a term or in the sorts attached to its
nodes. A telescope binds an argument in all that follows it, not in its own type.
-/

namespace DependentCore

variable {p : Phase}

mutual

/-- Whether a variable occurs free in a term or in its sorts. -/
def Term.occursFree (x : Var) : Term p → Bool
  | .mk note form => note.occursFree x || form.occursFree x

/-- Whether a variable occurs free in a sort. -/
def Note.occursFree (x : Var) : Note p (Term p) → Bool
  | .place _ _ | .kind _ => false
  | .sort ty _ => ty.occursFree x

/-- Whether a variable occurs free in a form. -/
def Form.occursFree (x : Var) : Form p → Bool
  | .atom _ => false
  | .var v => v = x
  | .unary _ a => a.occursFree x
  | .binary _ a b => a.occursFree x || b.occursFree x
  | .app f args => f.occursFree x || occursFreeList x args
  | .list xs => occursFreeList x xs
  | .bind _ t => t.occursFree x

/-- Whether a variable occurs free in a telescope: an argument of that name ends its scope. -/
def Tele.occursFree {k : Binder} (x : Var) : Tele p k → Bool
  | .fields => false
  | .returns _ ret => ret.occursFree x
  | .runs _ ret body => ret.occursFree x || occursFreeBody x body
  | .arg _ _ ty v rest => ty.occursFree x || (v ≠ some x && rest.occursFree x)

/-- Whether a variable occurs free in a statement. -/
def Stmt.occursFree (x : Var) : Stmt p → Bool
  | .call _ a | .ret _ a | .impossibleBy _ a => a.occursFree x
  | .ifThen _ cond yes => cond.occursFree x || occursFreeBody x yes
  | .ifElse _ cond yes no =>
    cond.occursFree x || occursFreeBody x yes || occursFreeBody x no
  | .retUnit _ | .impossible _ => false

/-- Whether a variable occurs free in a term of a list. -/
def occursFreeList (x : Var) : List (Term p) → Bool
  | [] => false
  | a :: as => a.occursFree x || occursFreeList x as

/-- Whether a variable occurs free in a statement of a body. -/
def occursFreeBody (x : Var) : List (Stmt p) → Bool
  | [] => false
  | s :: rest => s.occursFree x || occursFreeBody x rest

end

end DependentCore
