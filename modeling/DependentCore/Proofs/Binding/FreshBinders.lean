import DependentCore.Proofs.Binding.Replacement

/-!
# Renamed arguments

An argument of a binder is renamed by `Tele.refresh`, which looks for the largest index in the scope
of the argument, takes the next one, and substitutes the new variable for the old one. The scope is
all that follows the argument: the types of the later arguments, the return type and the body.

* `Term.vars`: the variables that stand in a term, whether they are bound, occur, or stand in a
  sort,
* `Term.maxIndex_le_iff`: `Term.maxIndex` is the largest of their indices,
* `Tele.fresh_index_le_iff`: the index next to those of a scope,
* `Tele.nameless_ofArgs`: what a telescope is equal to does not depend on the arguments before it,
* `renamed_argument_alphaEq`: a binder with a renamed argument is equal to the binder it was.
-/

namespace DependentCore

variable {p : Phase}

/-! ## The variables of a tree -/

mutual

/-- The variables that stand in a term: those that it binds, those that occur, and those of its
sorts. -/
def Term.vars : Term p → List Var
  | .mk note form => note.vars ++ form.vars

/-- The variables that stand in a sort. -/
def Note.vars : Note p (Term p) → List Var
  | .place _ _ | .kind _ => []
  | .sort ty _ => ty.vars

/-- The variables that stand in a form. -/
def Form.vars : Form p → List Var
  | .atom _ => []
  | .var v => [v]
  | .unary _ x => x.vars
  | .binary _ x y => x.vars ++ y.vars
  | .app f args => f.vars ++ varsList args
  | .list xs => varsList xs
  | .bind _ t => t.vars

/-- The variables that stand in a telescope. -/
def Tele.vars {k : Binder} : Tele p k → List Var
  | .fields => []
  | .returns _ ret => ret.vars
  | .runs _ ret body => ret.vars ++ varsBody body
  | .arg _ _ ty v rest => v.toList ++ ty.vars ++ rest.vars

/-- The variables that stand in a statement. -/
def Stmt.vars : Stmt p → List Var
  | .call _ x | .ret _ x | .impossibleBy _ x => x.vars
  | .ifThen _ cond yes => cond.vars ++ varsBody yes
  | .ifElse _ cond yes no => cond.vars ++ varsBody yes ++ varsBody no
  | .retUnit _ | .impossible _ => []

/-- The variables that stand in the terms of a list. -/
def varsList : List (Term p) → List Var
  | [] => []
  | x :: xs => x.vars ++ varsList xs

/-- The variables that stand in the statements of a body. -/
def varsBody : List (Stmt p) → List Var
  | [] => []
  | s :: rest => s.vars ++ varsBody rest

end

section
variable {n : Nat}

mutual

/-- The largest index of a term is the least bound for the indices of its variables. -/
theorem Term.maxIndex_le_iff : ∀ t : Term p, t.maxIndex ≤ n ↔ ∀ w ∈ t.vars, w.index ≤ n
  | .mk note form => by
    rw [Term.maxIndex, Term.vars, Nat.max_le, List.forall_mem_append, note.maxIndex_le_iff,
      form.maxIndex_le_iff]

theorem Note.maxIndex_le_iff : ∀ note : Note p (Term p),
    note.maxIndex ≤ n ↔ ∀ w ∈ note.vars, w.index ≤ n
  | .place _ _ | .kind _ => by simp [Note.maxIndex, Note.vars]
  | .sort ty _ => ty.maxIndex_le_iff

theorem Form.maxIndex_le_iff : ∀ form : Form p, form.maxIndex ≤ n ↔ ∀ w ∈ form.vars, w.index ≤ n
  | .atom _ => by simp [Form.maxIndex, Form.vars]
  | .var v => by simp [Form.maxIndex, Form.vars]
  | .unary _ x => x.maxIndex_le_iff
  | .binary _ x y => by
    rw [Form.maxIndex, Form.vars, Nat.max_le, List.forall_mem_append, x.maxIndex_le_iff,
      y.maxIndex_le_iff]
  | .app f args => by
    rw [Form.maxIndex, Form.vars, Nat.max_le, List.forall_mem_append, f.maxIndex_le_iff,
      maxIndexList_le_iff args]
  | .list xs => maxIndexList_le_iff xs
  | .bind _ t => t.maxIndex_le_iff

theorem Tele.maxIndex_le_iff {k : Binder} : ∀ t : Tele p k,
    t.maxIndex ≤ n ↔ ∀ w ∈ t.vars, w.index ≤ n
  | .fields => by simp [Tele.maxIndex, Tele.vars]
  | .returns _ ret => ret.maxIndex_le_iff
  | .runs _ ret body => by
    rw [Tele.maxIndex, Tele.vars, Nat.max_le, List.forall_mem_append, ret.maxIndex_le_iff,
      maxIndexBody_le_iff body]
  | .arg _ _ ty none rest => by
    rw [Tele.maxIndex, Tele.vars, Nat.max_le, List.forall_mem_append, ty.maxIndex_le_iff,
      rest.maxIndex_le_iff]
    rfl
  | .arg _ _ ty (some v) rest => by
    rw [Tele.maxIndex, Tele.vars, Nat.max_le, Nat.max_le, List.forall_mem_append,
      List.forall_mem_append, ty.maxIndex_le_iff, rest.maxIndex_le_iff, and_assoc]
    exact and_congr_left' (by simp)

theorem Stmt.maxIndex_le_iff : ∀ s : Stmt p, s.maxIndex ≤ n ↔ ∀ w ∈ s.vars, w.index ≤ n
  | .call _ x | .ret _ x | .impossibleBy _ x => x.maxIndex_le_iff
  | .ifThen _ cond yes => by
    rw [Stmt.maxIndex, Stmt.vars, Nat.max_le, List.forall_mem_append, cond.maxIndex_le_iff,
      maxIndexBody_le_iff yes]
  | .ifElse _ cond yes no => by
    rw [Stmt.maxIndex, Stmt.vars, Nat.max_le, Nat.max_le, List.forall_mem_append,
      List.forall_mem_append, cond.maxIndex_le_iff, maxIndexBody_le_iff yes,
      maxIndexBody_le_iff no, and_assoc]
  | .retUnit _ | .impossible _ => by simp [Stmt.maxIndex, Stmt.vars]

theorem maxIndexList_le_iff : ∀ ts : List (Term p),
    maxIndexList ts ≤ n ↔ ∀ w ∈ varsList ts, w.index ≤ n
  | [] => by simp [maxIndexList, varsList]
  | t :: ts => by
    rw [maxIndexList, varsList, Nat.max_le, List.forall_mem_append, t.maxIndex_le_iff,
      maxIndexList_le_iff ts]

theorem maxIndexBody_le_iff : ∀ b : List (Stmt p),
    maxIndexBody b ≤ n ↔ ∀ w ∈ varsBody b, w.index ≤ n
  | [] => by simp [maxIndexBody, varsBody]
  | s :: b => by
    rw [maxIndexBody, varsBody, Nat.max_le, List.forall_mem_append, s.maxIndex_le_iff,
      maxIndexBody_le_iff b]

end

end

/-! ## The new variable -/

section
variable {k : Binder}

/-- The index of the new variable is the next one after those of the scope and of the variable that
is renamed. -/
theorem Tele.fresh_index_le_iff {v : Var} {t : Tele p k} {n : Nat} :
    (t.fresh v 0).index ≤ n ↔ ∀ w ∈ v :: t.vars, w.index < n := by
  have hindex : (t.fresh v 0).index = 1 + max v.index t.maxIndex := by
    rw [Tele.fresh_index, Nat.max_zero]
  cases n with
  | zero =>
    rw [hindex, List.forall_mem_cons]
    omega
  | succ n =>
    simp only [hindex, List.forall_mem_cons, Nat.lt_succ_iff, ← t.maxIndex_le_iff]
    omega

/-! ## The position of an argument -/

/-- A telescope is the arguments before a position, the argument there and what follows it. -/
theorem Tele.exists_ofArgs {a : Arg p} {i : Nat} {t : Tele p k} (h : t.args[i]? = some a) :
    ∃ scope, t = .ofArgs (t.args.take i) (.arg a.mark a.qty a.ty a.var scope) := by
  induction k, t using Tele.args_induction generalizing i with
  | fields | returns | runs => cases h
  | arg _ mark qty ty v rest ih =>
    cases i with
    | zero =>
      cases h
      exact ⟨rest, rfl⟩
    | succ i =>
      obtain ⟨scope, hscope⟩ := ih h
      exact ⟨scope, congrArg (Tele.arg mark qty ty v) hscope⟩

/-- Telescopes that are equal under all binders are equal after the same arguments. -/
theorem Tele.nameless_ofArgs {t u : Tele p k} (h : ∀ bound, t.nameless bound = u.nameless bound)
    (args : List (Arg p)) (bound : List (Option Var)) :
    (Tele.ofArgs args t).nameless bound = (Tele.ofArgs args u).nameless bound := by
  induction args generalizing bound with
  | nil => exact h bound
  | cons a args ih =>
    exact congrArg (NamelessTele.arg a.qty (a.ty.nameless bound)) (ih (a.var :: bound))

end

/-- On a machine, an argument of an abstraction, a pi or a sigma type may be renamed along with its
scope, as long as all indices are smaller than the largest word: this leaves the term the same up to
bound names. The new variable keeps the name of the old one. Its index is a word that is larger than
that of the old one and all indices in the scope. The old variable is no longer free in the scope.
And no binder has to give way to the new variable: the scope has it in all places, in sorts as well,
where the old one was free, and is the same elsewhere. -/
theorem renamed_argument_alphaEq {k : Binder} (note : Note p (Term p)) (t : Tele p k) {i : Nat}
    {mark : Mark p} {qty : Quantity} {ty : Term p} {v : Var}
    (h : t.args[i]? = some ⟨mark, qty, ty, some v⟩) :
    ∃ scope : Tele p k, t = .ofArgs (t.args.take i) (.arg mark qty ty (some v) scope) ∧
      ((∀ w ∈ v :: scope.vars, w.index < UInt64.size - 1) →
        let new := scope.refresh (c := .word) v 0
        let renamed := Tele.ofArgs (t.args.take i) (.arg mark qty ty (some new.1) new.2)
        (Term.mk note (.bind k t)).alphaEq (.mk note (.bind k renamed)) ∧
        new.1.name = v.name ∧
        (∀ w ∈ v :: scope.vars, w.index < new.1.index) ∧ new.1.index < UInt64.size ∧
        new.2.occursFree v = false ∧
        new.2 = scope.rename v new.1) := by
  obtain ⟨scope, hscope⟩ := Tele.exists_ofArgs h
  have hnew : scope.maxIndex < (scope.fresh v 0).index := scope.maxIndex_lt_fresh v 0
  have habove : ∀ w ∈ v :: scope.vars, w.index < (scope.fresh v 0).index :=
    Tele.fresh_index_le_iff.mp (Nat.le_refl _)
  have hv : v.index < (scope.fresh v 0).index := habove v List.mem_cons_self
  refine ⟨scope, hscope, fun hfits => ?_⟩
  have hword : (scope.fresh v 0).index < UInt64.size :=
    Nat.lt_of_le_pred (by decide) (Tele.fresh_index_le_iff.mpr hfits)
  rw [Tele.refresh_word hword]
  have hrenamed : (scope.refresh v 0).2 = scope.rename v (scope.fresh v 0) := by
    rw [Tele.refresh_eq]
  refine ⟨?_, rfl, habove, hword, ?_, hrenamed⟩
  · rw [Term.alphaEq_iff]
    refine congrArg Nameless.bind ((congrArg (Tele.nameless []) hscope).trans ?_)
    refine Tele.nameless_ofArgs (fun bound => ?_) _ []
    have hsame := (scope.nameless_refresh v 0 bound).symm
    exact congrArg (NamelessTele.arg qty (ty.nameless bound)) hsame
  · rw [Bool.eq_false_iff, hrenamed]
    intro hfree
    rcases (scope.occursFree_rename hnew).mp hfree with hfree | hfree
    · exact hfree.1 rfl
    · exact absurd (congrArg Var.index hfree.1) (Nat.ne_of_lt hv)

/-- In `(u64 n, u64 x, array_t(u64, x) y:3, (u64 x) -> array_t(u64, x) f) -> array_t(u64, x)`, the
second argument is renamed to `x:4`, in the type of the third one and in the return type. The
binder in the type of `f` is left alone. -/
theorem renamed_argument_alphaEq_before_shadowing :
    let loc : Note .written Written := .place {} rfl
    let n : Var := { name := "n" }
    let x : Var := { name := "x" }
    let y : Var := { name := "y", index := 3 }
    let f : Var := { name := "f" }
    let u64 : Written := .mk loc (.atom (.int .u64))
    let array (size : Var) : Written := .mk loc (.binary .arrayT u64 (.mk loc (.var size)))
    let inner : Written := .mk loc (.bind .pi (.arg {} .many u64 (some x) (.returns .no (array x))))
    let scope (x : Var) : Signature .written :=
      .arg {} .many (array x) (some y) (.arg {} .many inner (some f) (.returns .no (array x)))
    let s (x : Var) : Signature .written :=
      .arg {} .many u64 (some n) (.arg {} .many u64 (some x) (scope x))
    let new : Var := { name := "x", index := 4 }
    (s x).args[1]? = some ⟨{}, .many, u64, some x⟩ ∧
      (∀ w ∈ x :: (scope x).vars, w.index < UInt64.size - 1) ∧
      (scope x).refresh (c := .word) x 0 = (new, scope new) ∧
      (Term.mk loc (.bind .pi (s x))).alphaEq (.mk loc (.bind .pi (s new))) ∧
      (∀ w ∈ x :: (scope x).vars, w.index < new.index) ∧ (scope new).occursFree x = false := by
  intro loc n x y f u64 array inner scope s new
  have harg : (s x).args[1]? = some ⟨{}, .many, u64, some x⟩ := rfl
  have hfits : ∀ w ∈ x :: (scope x).vars, w.index < UInt64.size - 1 := by decide
  obtain ⟨rest, hrest, hrenamed⟩ := renamed_argument_alphaEq loc (s x) harg
  obtain rfl : scope x = rest := by
    injection hrest with _ _ _ _ _ hlater
    injection hlater
  obtain ⟨halpha, -, habove, -, hfree, -⟩ := hrenamed hfits
  exact ⟨harg, hfits, rfl, halpha, habove, hfree⟩

end DependentCore
