import DependentCore.Syntax.Entry

/-!
# The nodes of a tree

`Term.nodes` lists a term and all terms inside it in preorder, bodies of abstractions included and
sorts left out. The children of a binder are its argument types, then its return type, then the
terms of its body.
-/

namespace DependentCore

variable {p : Phase}

mutual

/-- A term and the terms inside it, in preorder. -/
def Term.nodes : Term p → List (Term p)
  | .mk note form => .mk note form :: form.nodes

/-- The terms inside a form, in preorder. -/
def Form.nodes : Form p → List (Term p)
  | .atom _ | .var _ => []
  | .unary _ x => x.nodes
  | .binary _ x y => x.nodes ++ y.nodes
  | .app f args => f.nodes ++ nodesList args
  | .list xs => nodesList xs
  | .bind _ t => t.nodes

/-- The terms inside a telescope, in preorder. -/
def Tele.nodes {k : Binder} : Tele p k → List (Term p)
  | .fields => []
  | .returns _ ret => ret.nodes
  | .runs _ ret body => ret.nodes ++ nodesBody body
  | .arg _ _ ty _ rest => ty.nodes ++ rest.nodes

/-- The terms inside a statement, in preorder. -/
def Stmt.nodes : Stmt p → List (Term p)
  | .call _ x | .ret _ x | .impossibleBy _ x => x.nodes
  | .ifThen _ cond yes => cond.nodes ++ nodesBody yes
  | .ifElse _ cond yes no => cond.nodes ++ nodesBody yes ++ nodesBody no
  | .retUnit _ | .impossible _ => []

/-- The terms inside the terms of a list, in preorder. -/
def nodesList : List (Term p) → List (Term p)
  | [] => []
  | x :: xs => x.nodes ++ nodesList xs

/-- The terms inside the statements of a body, in preorder. -/
def nodesBody : List (Stmt p) → List (Term p)
  | [] => []
  | s :: rest => s.nodes ++ nodesBody rest

end

/-- The terms inside an item, in preorder. -/
def Item.nodes : Item p → List (Term p)
  | .integer _ => []
  | .struct fs => fs.nodes
  | .declared s | .external s => s.nodes
  | .defined f => f.nodes

end DependentCore
