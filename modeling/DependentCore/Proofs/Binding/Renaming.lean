import DependentCore.Binding.Subst

/-!
# Renaming

An argument is renamed by substituting a variable for its variable (`Tele.refresh`). If the new
variable is new to the scope of the argument, no binder captures it, so none is renamed on the way
down: what is left of the substitution is `Tele.rename`, which puts `y` for every free occurrence of
`x`, in the sorts as well, and touches no binder.

* `Term.rename`: renaming that looks at no binder but those of `x`,
* `Tele.replace_var_eq_rename`: substituting a variable that is new to a telescope is renaming,
* `Tele.refresh_eq`: where indices never run out, an argument is always renamed to a variable that
  is new to its scope.
-/

namespace DependentCore

variable {p : Phase}

mutual

/-- Put `y` for every free occurrence of `x` in a term and its sorts. -/
def Term.rename (x y : Var) : Term p → Term p
  | .mk note form => .mk (note.rename x y) (form.rename x y)

/-- Rename in a sort. -/
def Note.rename (x y : Var) : Note p (Term p) → Note p (Term p)
  | .place loc h => .place loc h
  | .kind h => .kind h
  | .sort ty h => .sort (ty.rename x y) h

/-- Rename in a form. -/
def Form.rename (x y : Var) : Form p → Form p
  | .atom a => .atom a
  | .var v => .var (if v = x then y else v)
  | .unary op a => .unary op (a.rename x y)
  | .binary op a b => .binary op (a.rename x y) (b.rename x y)
  | .app f args => .app (f.rename x y) (renameList x y args)
  | .list xs => .list (renameList x y xs)
  | .bind k t => .bind k (t.rename x y)

/-- Rename in a telescope, up to an argument that binds `x` again. -/
def Tele.rename {k : Binder} (x y : Var) : Tele p k → Tele p k
  | .fields => .fields
  | .returns m ret => .returns m (ret.rename x y)
  | .runs m ret body => .runs m (ret.rename x y) (renameBody x y body)
  | .arg mark qty ty v rest =>
    .arg mark qty (ty.rename x y) v (if v = some x then rest else rest.rename x y)

/-- Rename in a statement. -/
def Stmt.rename (x y : Var) : Stmt p → Stmt p
  | .call mark a => .call mark (a.rename x y)
  | .ifThen mark cond yes => .ifThen mark (cond.rename x y) (renameBody x y yes)
  | .ifElse mark cond yes no =>
    .ifElse mark (cond.rename x y) (renameBody x y yes) (renameBody x y no)
  | .ret mark a => .ret mark (a.rename x y)
  | .retUnit mark => .retUnit mark
  | .impossible mark => .impossible mark
  | .impossibleBy mark a => .impossibleBy mark (a.rename x y)

/-- Rename in the terms of a list. -/
def renameList (x y : Var) : List (Term p) → List (Term p)
  | [] => []
  | a :: as => a.rename x y :: renameList x y as

/-- Rename in the statements of a body. -/
def renameBody (x y : Var) : List (Stmt p) → List (Stmt p)
  | [] => []
  | s :: rest => s.rename x y :: renameBody x y rest

end

/-! ## Substituting a new variable -/

section
variable [c : Indexing] {x y : Var}

mutual

/-- A variable that is new to a term is put for another one by renaming. -/
theorem Term.replace_var_eq_rename : ∀ t : Term p, t.maxIndex < y.index →
    t.replace x (.var y) = t.rename x y
  | .mk note form, h => by
    rw [Term.maxIndex, Nat.max_lt] at h
    have hnote : note.map (·.replace x (.var y)) = note.rename x y :=
      Note.replace_var_eq_rename note h.1
    cases form with
    | atom a => rw [Term.replace_atom, hnote, Term.rename, Form.rename]
    | var v =>
      rw [Term.replace_var, hnote, Term.rename, Form.rename]
      split <;> rfl
    | unary op a =>
      rw [Term.replace_unary, hnote, Term.rename, Form.rename, Term.replace_var_eq_rename a h.2]
    | binary op a b =>
      have hparts := Nat.max_lt.mp h.2
      rw [Term.replace_binary, hnote, Term.rename, Form.rename,
        Term.replace_var_eq_rename a hparts.1, Term.replace_var_eq_rename b hparts.2]
    | app f args =>
      have hparts := Nat.max_lt.mp h.2
      rw [Term.replace_app, hnote, Term.rename, Form.rename,
        Term.replace_var_eq_rename f hparts.1, map_replace_var args hparts.2]
    | list xs => rw [Term.replace_list, hnote, Term.rename, Form.rename, map_replace_var xs h.2]
    | bind k t =>
      rw [Term.replace_bind, hnote, Term.rename, Form.rename, Tele.replace_var_eq_rename t h.2]

theorem Note.replace_var_eq_rename : ∀ n : Note p (Term p), n.maxIndex < y.index →
    n.map (·.replace x (.var y)) = n.rename x y
  | .place _ _, _ | .kind _, _ => rfl
  | .sort ty h', h => by rw [Note.map, Note.rename, Term.replace_var_eq_rename ty h]

/-- A variable that is new to a telescope is put for another one by renaming: no argument has to
give way to it. -/
theorem Tele.replace_var_eq_rename {k : Binder} : ∀ t : Tele p k, t.maxIndex < y.index →
    t.replace x (.var y) = t.rename x y
  | .fields, _ => rfl
  | .returns m ret, h => congrArg (Tele.returns m) (Term.replace_var_eq_rename ret h)
  | .runs m ret body, h => by
    have hparts := Nat.max_lt.mp h
    rw [Tele.replace_runs, Tele.rename, Term.replace_var_eq_rename ret hparts.1,
      map_replace_var_body body hparts.2]
  | .arg mark qty ty none rest, h => by
    have hparts := Nat.max_lt.mp h
    rw [Tele.replace_arg_none, Tele.rename, Term.replace_var_eq_rename ty hparts.1,
      Tele.replace_var_eq_rename rest hparts.2, if_neg (by simp)]
  | .arg mark qty ty (some v) rest, h => by
    obtain ⟨hv, hparts⟩ := Nat.max_lt.mp h
    obtain ⟨hty, hrest⟩ := Nat.max_lt.mp hparts
    have hcaptured : (Image.var y : Image p).occursFree v = false := by
      rw [Image.occursFree, decide_eq_false_iff_not]
      rintro rfl
      exact Nat.lt_irrefl _ hv
    rw [Tele.replace_arg_some, Tele.rename, Term.replace_var_eq_rename ty hty,
      Tele.replace_var_eq_rename rest hrest, hcaptured]
    by_cases hx : v = x <;> simp [hx]

theorem Stmt.replace_var_eq_rename : ∀ s : Stmt p, s.maxIndex < y.index →
    s.replace x (.var y) = s.rename x y
  | .call mark a, h => congrArg (Stmt.call mark) (Term.replace_var_eq_rename a h)
  | .ret mark a, h => congrArg (Stmt.ret mark) (Term.replace_var_eq_rename a h)
  | .impossibleBy mark a, h => congrArg (Stmt.impossibleBy mark) (Term.replace_var_eq_rename a h)
  | .ifThen mark cond yes, h => by
    have hparts := Nat.max_lt.mp h
    rw [Stmt.replace_ifThen, Stmt.rename, Term.replace_var_eq_rename cond hparts.1,
      map_replace_var_body yes hparts.2]
  | .ifElse mark cond yes no, h => by
    obtain ⟨hcond, hbranches⟩ := Nat.max_lt.mp h
    obtain ⟨hyes, hno⟩ := Nat.max_lt.mp hbranches
    rw [Stmt.replace_ifElse, Stmt.rename, Term.replace_var_eq_rename cond hcond,
      map_replace_var_body yes hyes, map_replace_var_body no hno]
  | .retUnit _, _ | .impossible _, _ => rfl

theorem map_replace_var : ∀ ts : List (Term p), maxIndexList ts < y.index →
    ts.map (·.replace x (.var y)) = renameList x y ts
  | [], _ => rfl
  | t :: ts, h => by
    have hparts := Nat.max_lt.mp h
    rw [List.map_cons, renameList, Term.replace_var_eq_rename t hparts.1,
      map_replace_var ts hparts.2]

theorem map_replace_var_body : ∀ b : List (Stmt p), maxIndexBody b < y.index →
    b.map (·.replace x (.var y)) = renameBody x y b
  | [], _ => rfl
  | s :: b, h => by
    have hparts := Nat.max_lt.mp h
    rw [List.map_cons, renameBody, Stmt.replace_var_eq_rename s hparts.1,
      map_replace_var_body b hparts.2]

end

/-- If the next index is new to a telescope, the telescope is renamed to it as it stands. -/
theorem Tele.refresh_eq_rename {k : Binder} {v : Var} {floor : Nat} {t : Tele p k}
    (h : t.maxIndex < (t.fresh v floor).index) :
    t.refresh v floor = (t.fresh v floor, t.rename v (t.fresh v floor)) := by
  rw [Tele.refresh, t.replace_var_eq_rename h]

end

/-! ## Indices that never run out -/

section
variable {k : Binder} (v : Var) (floor : Nat) (t : Tele p k)

theorem Tele.fresh_index : (t.fresh v floor).index = 1 + max (max v.index t.maxIndex) floor :=
  rfl

/-- The variable chosen for an argument is new to its scope. -/
theorem Tele.maxIndex_lt_fresh : t.maxIndex < (t.fresh v floor).index := by
  rw [Tele.fresh_index]
  omega

/-- The variable chosen for an argument is above the floor. -/
theorem Tele.floor_lt_fresh : floor < (t.fresh v floor).index := by
  rw [Tele.fresh_index]
  omega

/-- So an argument is renamed by putting the chosen variable for the free occurrences of its own. -/
theorem Tele.refresh_eq :
    t.refresh v floor = (t.fresh v floor, t.rename v (t.fresh v floor)) :=
  Tele.refresh_eq_rename (t.maxIndex_lt_fresh v floor)

end

end DependentCore
