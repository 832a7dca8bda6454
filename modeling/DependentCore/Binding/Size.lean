import DependentCore.Syntax.Term

/-!
# Size

`Term.size` counts the nodes of a term, those of the attached sorts included. A binder that is
renamed keeps its size, so the size bounds the recursion of substitution, which renames binders on
its way down.
-/

namespace DependentCore

variable {p : Phase}

mutual

/-- The number of nodes of a term and its sorts. -/
def Term.size : Term p → Nat
  | .mk note form => note.size + form.size + 1

/-- The number of nodes of a sort. -/
def Note.size : Note p (Term p) → Nat
  | .place _ _ | .kind _ => 0
  | .sort ty _ => ty.size

/-- The number of nodes inside a form. -/
def Form.size : Form p → Nat
  | .atom _ | .var _ => 0
  | .unary _ x => x.size
  | .binary _ x y => x.size + y.size
  | .app f args => f.size + sizeList args
  | .list xs => sizeList xs
  | .bind _ t => t.size

/-- The number of nodes of a telescope. -/
def Tele.size {k : Binder} : Tele p k → Nat
  | .fields => 1
  | .returns _ ret => ret.size + 1
  | .runs _ ret body => ret.size + sizeBody body + 1
  | .arg _ _ ty _ rest => ty.size + rest.size + 1

/-- The number of nodes of a statement. -/
def Stmt.size : Stmt p → Nat
  | .call _ x | .ret _ x | .impossibleBy _ x => x.size + 1
  | .ifThen _ cond yes => cond.size + sizeBody yes + 1
  | .ifElse _ cond yes no => cond.size + sizeBody yes + sizeBody no + 1
  | .retUnit _ | .impossible _ => 1

/-- The number of nodes of the terms of a list. -/
def sizeList : List (Term p) → Nat
  | [] => 0
  | x :: xs => x.size + sizeList xs

/-- The number of nodes of the statements of a body. -/
def sizeBody : List (Stmt p) → Nat
  | [] => 0
  | s :: rest => s.size + sizeBody rest

end

theorem size_le_sizeList {t : Term p} {ts : List (Term p)} (h : t ∈ ts) :
    t.size ≤ sizeList ts := by
  induction ts with
  | nil => cases h
  | cons a as ih =>
    rw [sizeList]
    rcases List.mem_cons.mp h with rfl | h
    · omega
    · have := ih h
      omega

theorem size_le_sizeBody {s : Stmt p} {b : List (Stmt p)} (h : s ∈ b) : s.size ≤ sizeBody b := by
  induction b with
  | nil => cases h
  | cons a as ih =>
    rw [sizeBody]
    rcases List.mem_cons.mp h with rfl | h
    · omega
    · have := ih h
      omega

theorem sizeList_map {f : Term p → Term p} (hf : ∀ t, (f t).size = t.size) (ts : List (Term p)) :
    sizeList (ts.map f) = sizeList ts := by
  induction ts with
  | nil => rfl
  | cons t ts ih => rw [List.map_cons, sizeList, sizeList, hf, ih]

theorem sizeBody_map {f : Stmt p → Stmt p} (hf : ∀ s, (f s).size = s.size) (b : List (Stmt p)) :
    sizeBody (b.map f) = sizeBody b := by
  induction b with
  | nil => rfl
  | cons s b ih => rw [List.map_cons, sizeBody, sizeBody, hf, ih]

theorem Tele.one_le_size {k : Binder} (t : Tele p k) : 1 ≤ t.size := by
  cases t <;> simp [Tele.size]

theorem Term.one_le_size (t : Term p) : 1 ≤ t.size := by
  cases t; simp [Term.size]

theorem Stmt.one_le_size (s : Stmt p) : 1 ≤ s.size := by
  cases s <;> simp [Stmt.size]

end DependentCore
