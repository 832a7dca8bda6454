import DependentCore.Proofs.Binding.Renaming
import DependentCore.Flow.Reachability
import DependentCore.Syntax.Entry

/-!
# First-order code

Terms without abstractions and placeholders, and bodies that also have no `impossible`. Types are
not looked into, since they are not evaluated: neither the sorts that nodes carry, nor the fields of
a sigma type, nor the argument types of a function.

* `Term.isFirstOrder`, `isFirstOrderBody`: whether a term or body is first-order,
* `Term.isFirstOrder_rename`, `Term.isFirstOrder_subst`: it stays so under renaming and under
  substitution of a first-order term,
* `endsImpossible_of_isFirstOrder`: first-order code is not taken for impossible.
-/

namespace DependentCore

variable {p : Phase}

mutual

/-- Whether a term has no abstraction and no placeholder. -/
def Term.isFirstOrder : Term p → Bool
  | .mk _ form => form.isFirstOrder

/-- Whether a form has no abstraction and no placeholder. -/
def Form.isFirstOrder : Form p → Bool
  | .atom a => a ≠ .auto
  | .var _ => true
  | .unary _ x => x.isFirstOrder
  | .binary _ x y => x.isFirstOrder && y.isFirstOrder
  | .app f args => f.isFirstOrder && isFirstOrderList args
  | .list xs => isFirstOrderList xs
  | .bind k _ => k ≠ .abs

/-- Whether all terms of a list are first-order. -/
def isFirstOrderList : List (Term p) → Bool
  | [] => true
  | x :: xs => x.isFirstOrder && isFirstOrderList xs

/-- Whether a statement is not an `impossible`, and its terms and branches are first-order. -/
def Stmt.isFirstOrder : Stmt p → Bool
  | .call _ x | .ret _ x => x.isFirstOrder
  | .ifThen _ cond yes => cond.isFirstOrder && isFirstOrderBody yes
  | .ifElse _ cond yes no => cond.isFirstOrder && isFirstOrderBody yes && isFirstOrderBody no
  | .retUnit _ => true
  | .impossible _ | .impossibleBy _ _ => false

/-- Whether all statements of a body are first-order. -/
def isFirstOrderBody : List (Stmt p) → Bool
  | [] => true
  | s :: rest => s.isFirstOrder && isFirstOrderBody rest

end

/-- Whether the body of a telescope, if it has one, is first-order. -/
def Tele.isFirstOrder {k : Binder} : Tele p k → Bool
  | .fields | .returns _ _ => true
  | .runs _ _ body => isFirstOrderBody body
  | .arg _ _ _ _ rest => rest.isFirstOrder

/-- Whether an item, if it is a defined function, has a first-order body. -/
def Item.isFirstOrder : Item p → Bool
  | .defined f => f.isFirstOrder
  | _ => true

theorem isFirstOrderList_iff {ts : List (Term p)} :
    isFirstOrderList ts ↔ ∀ t ∈ ts, t.isFirstOrder := by
  induction ts with
  | nil => simp [isFirstOrderList]
  | cons t ts ih => simp [isFirstOrderList, ih]

theorem isFirstOrderBody_iff {b : List (Stmt p)} :
    isFirstOrderBody b ↔ ∀ s ∈ b, s.isFirstOrder := by
  induction b with
  | nil => simp [isFirstOrderBody]
  | cons s b ih => simp [isFirstOrderBody, ih]

theorem Tele.isFirstOrder_of_body? {k : Binder} {b : Body p} :
    ∀ {t : Tele p k}, t.isFirstOrder → t.body? = some b → isFirstOrderBody b
  | .runs _ _ _, h, hb => by
    cases hb
    exact h
  | .arg _ _ _ _ rest, h, hb => Tele.isFirstOrder_of_body? (t := rest) h hb

/-! ## Renaming and substitution -/

mutual

/-- Renaming changes no forms but variables. -/
@[simp]
theorem Term.isFirstOrder_rename (x z : Var) : ∀ t : Term p,
    (t.rename x z).isFirstOrder = t.isFirstOrder
  | .mk _ form => Form.isFirstOrder_rename x z form

@[simp]
theorem Form.isFirstOrder_rename (x z : Var) : ∀ f : Form p,
    (f.rename x z).isFirstOrder = f.isFirstOrder
  | .atom _ | .var _ | .bind _ _ => rfl
  | .unary _ a => Term.isFirstOrder_rename x z a
  | .binary _ a b => by
    simp only [Form.rename, Form.isFirstOrder, Term.isFirstOrder_rename x z a,
      Term.isFirstOrder_rename x z b]
  | .app f args => by
    simp only [Form.rename, Form.isFirstOrder, Term.isFirstOrder_rename x z f,
      isFirstOrderList_rename x z args]
  | .list xs => isFirstOrderList_rename x z xs

@[simp]
theorem isFirstOrderList_rename (x z : Var) : ∀ ts : List (Term p),
    isFirstOrderList (renameList x z ts) = isFirstOrderList ts
  | [] => rfl
  | t :: ts => by
    simp only [renameList, isFirstOrderList, Term.isFirstOrder_rename x z t,
      isFirstOrderList_rename x z ts]

@[simp]
theorem Stmt.isFirstOrder_rename (x z : Var) : ∀ s : Stmt p,
    (s.rename x z).isFirstOrder = s.isFirstOrder
  | .call _ a | .ret _ a => Term.isFirstOrder_rename x z a
  | .ifThen _ c yes => by
    simp only [Stmt.rename, Stmt.isFirstOrder, Term.isFirstOrder_rename x z c,
      isFirstOrderBody_rename x z yes]
  | .ifElse _ c yes no => by
    simp only [Stmt.rename, Stmt.isFirstOrder, Term.isFirstOrder_rename x z c,
      isFirstOrderBody_rename x z yes, isFirstOrderBody_rename x z no]
  | .retUnit _ | .impossible _ | .impossibleBy _ _ => rfl

@[simp]
theorem isFirstOrderBody_rename (x z : Var) : ∀ b : List (Stmt p),
    isFirstOrderBody (renameBody x z b) = isFirstOrderBody b
  | [] => rfl
  | s :: rest => by
    simp only [renameBody, isFirstOrderBody, Stmt.isFirstOrder_rename x z s,
      isFirstOrderBody_rename x z rest]

end

/-- Renaming in a telescope keeps its body first-order. -/
@[simp]
theorem Tele.isFirstOrder_rename {k : Binder} (x z : Var) (t : Tele p k) :
    (t.rename x z).isFirstOrder = t.isFirstOrder := by
  induction k, t using Tele.args_induction with
  | fields | returns => rfl
  | runs _ _ body => exact isFirstOrderBody_rename x z body
  | arg _ _ _ _ v rest ih =>
    simp only [Tele.rename, Tele.isFirstOrder]
    split
    · rfl
    · exact ih

mutual

/-- A first-order term may be substituted in one. -/
theorem Term.isFirstOrder_subst {x : Var} {r : Term p} (hr : r.isFirstOrder) : ∀ t : Term p,
    t.isFirstOrder → (t.subst x r).isFirstOrder
  | .mk _ (.atom _), h => by
    rw [Term.subst_atom]
    exact h
  | .mk _ (.var _), _ => by
    rw [Term.subst_var]
    split
    · exact hr
    · rfl
  | .mk _ (.unary _ a), h => by
    rw [Term.subst_unary]
    exact Term.isFirstOrder_subst hr a h
  | .mk _ (.binary _ a b), h => by
    obtain ⟨ha, hb⟩ := Bool.and_eq_true_iff.mp h
    rw [Term.subst_binary]
    exact Bool.and_eq_true_iff.mpr
      ⟨Term.isFirstOrder_subst hr a ha, Term.isFirstOrder_subst hr b hb⟩
  | .mk _ (.app f args), h => by
    obtain ⟨hf, hargs⟩ := Bool.and_eq_true_iff.mp h
    rw [Term.subst_app]
    exact Bool.and_eq_true_iff.mpr
      ⟨Term.isFirstOrder_subst hr f hf, isFirstOrderList_subst hr args hargs⟩
  | .mk _ (.list xs), h => by
    rw [Term.subst_list]
    exact isFirstOrderList_subst hr xs h
  | .mk _ (.bind _ _), h => by
    rw [Term.subst_bind]
    exact h

theorem isFirstOrderList_subst {x : Var} {r : Term p} (hr : r.isFirstOrder) :
    ∀ ts : List (Term p), isFirstOrderList ts → isFirstOrderList (ts.map (·.subst x r))
  | [], _ => rfl
  | t :: ts, h => by
    obtain ⟨ht, hts⟩ := Bool.and_eq_true_iff.mp h
    exact Bool.and_eq_true_iff.mpr
      ⟨Term.isFirstOrder_subst hr t ht, isFirstOrderList_subst hr ts hts⟩

theorem Stmt.isFirstOrder_subst {x : Var} {r : Term p} (hr : r.isFirstOrder) : ∀ s : Stmt p,
    s.isFirstOrder → (s.subst x r).isFirstOrder
  | .call _ a, h | .ret _ a, h => Term.isFirstOrder_subst hr a h
  | .ifThen _ cond yes, h => by
    obtain ⟨hcond, hyes⟩ := Bool.and_eq_true_iff.mp h
    rw [Stmt.subst_ifThen]
    exact Bool.and_eq_true_iff.mpr
      ⟨Term.isFirstOrder_subst hr cond hcond, isFirstOrderBody_subst hr yes hyes⟩
  | .ifElse _ cond yes no, h => by
    obtain ⟨h, hno⟩ := Bool.and_eq_true_iff.mp h
    obtain ⟨hcond, hyes⟩ := Bool.and_eq_true_iff.mp h
    rw [Stmt.subst_ifElse]
    exact Bool.and_eq_true_iff.mpr ⟨Bool.and_eq_true_iff.mpr
      ⟨Term.isFirstOrder_subst hr cond hcond, isFirstOrderBody_subst hr yes hyes⟩,
        isFirstOrderBody_subst hr no hno⟩
  | .retUnit _, _ => rfl

theorem isFirstOrderBody_subst {x : Var} {r : Term p} (hr : r.isFirstOrder) :
    ∀ b : List (Stmt p), isFirstOrderBody b → isFirstOrderBody (b.map (·.subst x r))
  | [], _ => rfl
  | s :: rest, h => by
    obtain ⟨hs, hrest⟩ := Bool.and_eq_true_iff.mp h
    exact Bool.and_eq_true_iff.mpr
      ⟨Stmt.isFirstOrder_subst hr s hs, isFirstOrderBody_subst hr rest hrest⟩

end

/-- A first-order term may be substituted in a telescope with a first-order body. -/
theorem Tele.isFirstOrder_subst {k : Binder} {x : Var} {r : Term p} (hr : r.isFirstOrder) :
    ∀ t : Tele p k, t.isFirstOrder → (t.subst x r).isFirstOrder
  | .fields, _ | .returns _ _, _ => rfl
  | .runs _ _ body, h => by
    rw [Tele.subst_runs]
    exact isFirstOrderBody_subst hr body h
  | .arg _ _ _ none rest, h => by
    rw [Tele.subst_arg_none]
    exact Tele.isFirstOrder_subst hr rest h
  | .arg _ _ _ (some v) rest, h => by
    rw [Tele.subst_arg_some]
    split
    · exact h
    · split
      -- the renamed scope is no subterm, which is why the recursion is on the size
      · refine Tele.isFirstOrder_subst hr (rest.refresh v r.maxIndex).2 ?_
        rw [Tele.refresh_eq, Tele.isFirstOrder_rename]
        exact h
      · exact Tele.isFirstOrder_subst hr rest h
termination_by t => t.size
decreasing_by all_goals simp only [Tele.size, Tele.size_refresh]; omega

/-! ## Impossible code -/

mutual

/-- A first-order statement is not taken for impossible. -/
theorem Stmt.endsImpossible_of_isFirstOrder : ∀ s : Stmt p, s.isFirstOrder →
    s.endsImpossible = false
  | .call _ _, _ | .ifThen _ _ _, _ | .ret _ _, _ | .retUnit _, _ => rfl
  | .ifElse _ _ yes no, h => by
    -- both branches would have to be impossible, so that one of them decides
    obtain ⟨h, -⟩ := Bool.and_eq_true_iff.mp h
    obtain ⟨-, hyes⟩ := Bool.and_eq_true_iff.mp h
    rw [Stmt.endsImpossible, endsImpossible_of_isFirstOrder yes hyes, Bool.false_and]

/-- A first-order body is not taken for impossible. -/
theorem endsImpossible_of_isFirstOrder : ∀ b : List (Stmt p), isFirstOrderBody b →
    endsImpossible b = false
  | [], _ => rfl
  | s :: rest, h => by
    obtain ⟨hs, hrest⟩ := Bool.and_eq_true_iff.mp h
    rw [endsImpossible, Stmt.endsImpossible_of_isFirstOrder s hs,
      endsImpossible_of_isFirstOrder rest hrest, Bool.and_false, Bool.or_false]

end

end DependentCore
