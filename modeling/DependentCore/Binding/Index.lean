import DependentCore.Syntax.Term

/-!
# Indices

* `Term.maxIndex`: the largest variable index in a term, binders and sorts included,
* `Indexing`: how an index is followed by the next one. On a machine, indices are words of 64 bits,
  and the largest one is followed by `0`. Unless another `Indexing` is named, statements are about
  indices that never run out,
* `Tele.fresh`: a variable of a given name, with the index next to all indices under an argument.
-/

namespace DependentCore

variable {p : Phase}

/-- How indices are counted. -/
class Indexing where
  /-- The index after an index. -/
  next : Nat → Nat

/-- Indices are natural numbers, so each is followed by a larger one. -/
instance Indexing.unbounded : Indexing where
  next n := 1 + n

/-- Indices are words of 64 bits, which wrap around. -/
@[reducible]
def Indexing.word : Indexing where
  next n := (1 + n) % UInt64.size

mutual

/-- The largest index in a term, or `0` if it has no variables. -/
def Term.maxIndex : Term p → Nat
  | .mk note form => max note.maxIndex form.maxIndex

/-- The largest index in a sort. -/
def Note.maxIndex : Note p (Term p) → Nat
  | .place _ _ | .kind _ => 0
  | .sort ty _ => ty.maxIndex

/-- The largest index in a form. -/
def Form.maxIndex : Form p → Nat
  | .atom _ => 0
  | .var v => v.index
  | .unary _ x => x.maxIndex
  | .binary _ x y => max x.maxIndex y.maxIndex
  | .app f args => max f.maxIndex (maxIndexList args)
  | .list xs => maxIndexList xs
  | .bind _ t => t.maxIndex

/-- The largest index in a telescope. -/
def Tele.maxIndex {k : Binder} : Tele p k → Nat
  | .fields => 0
  | .returns _ ret => ret.maxIndex
  | .runs _ ret body => max ret.maxIndex (maxIndexBody body)
  | .arg _ _ ty none rest => max ty.maxIndex rest.maxIndex
  | .arg _ _ ty (some v) rest => max v.index (max ty.maxIndex rest.maxIndex)

/-- The largest index in a statement. -/
def Stmt.maxIndex : Stmt p → Nat
  | .call _ x | .ret _ x | .impossibleBy _ x => x.maxIndex
  | .ifThen _ cond yes => max cond.maxIndex (maxIndexBody yes)
  | .ifElse _ cond yes no => max cond.maxIndex (max (maxIndexBody yes) (maxIndexBody no))
  | .retUnit _ | .impossible _ => 0

/-- The largest index in the terms of a list. -/
def maxIndexList : List (Term p) → Nat
  | [] => 0
  | x :: xs => max x.maxIndex (maxIndexList xs)

/-- The largest index in the statements of a body. -/
def maxIndexBody : List (Stmt p) → Nat
  | [] => 0
  | s :: rest => max s.maxIndex (maxIndexBody rest)

end

/-- A variable with the name of `v` and the index that comes next after that of `v`, all indices in
the telescope and `floor`. -/
def Tele.fresh [c : Indexing] {k : Binder} (v : Var) (floor : Nat) (t : Tele p k) : Var :=
  ⟨v.name, Indexing.next (max (max v.index t.maxIndex) floor)⟩

end DependentCore
