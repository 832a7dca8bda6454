import DependentCore.Proofs.Binding.Everywhere
import DependentCore.Proofs.Binding.Outline

/-!
# Heads and sorts

The head of a term is what is left of it when the subterms are taken out. For most heads it is
known of what sort a term with this head is: a type is of sort `typename`, a comparison is of sort
`bool`, an abstraction is of a pi type with its outline.

* `Form.head`: the head of a form,
* `Head.Fits`: a sort fits a head,
* `Term.HasFittingSort`: the sort that a node carries fits its head,
* `substitutive_hasFittingSort`: renaming and substitution keep this.
-/

namespace DependentCore

variable {p : Phase}

/-- A form without its subterms; of a binder, the outline is left. -/
inductive Head where
  | atom (a : Atom)
  | var
  | unary (op : Unary)
  | binary (op : Binary)
  | app
  | list
  | bind (k : Binder) (outline : List Quantity × Mutability)
deriving DecidableEq, Repr

/-- The head of a form. -/
def Form.head : Form p → Head
  | .atom a => .atom a
  | .var _ => .var
  | .unary op _ => .unary op
  | .binary op _ _ => .binary op
  | .app _ _ => .app
  | .list _ => .list
  | .bind k t => .bind k t.outline

/-- What the sort of a node with a given head has to be, by the head of the sort: `typename` has no
sort, types have the sort `typename`, conditions the sort `bool`, strings the sort `cstr_t`, and
abstractions a pi type of the same outline. Of other nodes the head says only that they have a
sort. -/
def Head.Fits (sort : Option Head) : Head → Prop
  | .atom .typename => sort = none
  | .atom .bool | .atom .unit | .atom .cstr | .atom .scope | .atom (.int _) | .unary .trueT
  | .binary .arrayT | .binary .refT | .bind .sigma _ | .bind .pi _ => sort = some (.atom .typename)
  | .atom (.lit _) | .unary .not | .binary (.logic _) | .binary (.compare _) =>
    sort = some (.atom .bool)
  | .atom (.str _) => sort = some (.atom .cstr)
  | .bind .abs outline => sort = some (.bind .pi outline)
  | .atom .auto | .atom (.num _) | .atom (.global _) | .var | .unary .addressOf | .unary .deref
  | .unary .scopeOf | .unary (.member _) | .binary .subscript | .binary .because
  | .binary (.arith _) | .app | .list => sort.isSome

/-- The sort that a node carries fits its head. -/
def Term.HasFittingSort (t : Term p) : Prop :=
  t.form.head.Fits (t.sort?.map (·.form.head))

/-! ## Heads -/

theorem Form.eq_atom_of_head {f : Form p} {a : Atom} (h : f.head = .atom a) : f = .atom a := by
  cases f with
  | atom => exact congrArg Form.atom (Head.atom.inj h)
  | _ => cases h

theorem Tele.outline_bare {k : Binder} (t : Tele p k) : t.bare.outline = t.outline := by
  induction k, t using Tele.args_induction with
  | fields | returns | runs => rfl
  | arg _ _ _ _ _ _ ih => rw [Tele.bare, Tele.outline_arg, Tele.outline_arg, ih]

theorem Term.head_rename (x y : Var) (t : Term p) : (t.rename x y).form.head = t.form.head := by
  obtain ⟨note, form⟩ := t
  cases form with
  | bind k t => exact congrArg (Head.bind k) (Tele.outline_rename x y t)
  | _ => rfl

theorem Term.sort?_rename (x y : Var) (t : Term p) :
    (t.rename x y).sort? = t.sort?.map (·.rename x y) := by
  obtain ⟨note, form⟩ := t
  cases note <;> rfl

/-- All nodes but the variable itself keep their head. -/
theorem Term.head_subst {x : Var} {r t : Term p} (h : t.form ≠ .var x) :
    (t.subst x r).form.head = t.form.head := by
  obtain ⟨note, form⟩ := t
  cases form with
  | var v => rw [Term.subst_var, if_neg fun hv => h (congrArg Form.var hv)]; rfl
  | atom => rw [Term.subst_atom]; rfl
  | unary => rw [Term.subst_unary]; rfl
  | binary => rw [Term.subst_binary]; rfl
  | app => rw [Term.subst_app]; rfl
  | list => rw [Term.subst_list]; rfl
  | bind k t =>
    rw [Term.subst_bind]
    exact congrArg (Head.bind k) (Tele.outline_subst x r t)

theorem Term.sort?_subst {x : Var} {r t : Term p} (h : t.form ≠ .var x) :
    (t.subst x r).sort? = t.sort?.map (·.subst x r) := by
  have hvar : t.isVariable x = false := by
    obtain ⟨note, form⟩ := t
    cases form with
    | var v => exact decide_eq_false fun hv => h (congrArg Form.var hv)
    | _ => rfl
  rw [Term.sort?, Term.note_subst hvar, Term.sort?]
  cases t.note <;> rfl

/-! ## Fitting sorts -/

/-- Only where any sort will do may the sort be a variable. -/
theorem Head.Fits.of_var {h : Head} (hvar : h.Fits (some .var)) (sort : Head) :
    h.Fits (some sort) := by
  unfold Head.Fits at hvar ⊢
  split at hvar <;> cases hvar
  all_goals rfl

theorem substitutive_hasFittingSort : Substitutive (Term.HasFittingSort (p := p)) where
  rename x y t h := by
    have hsort : (t.sort?.map (·.rename x y)).map (·.form.head) = t.sort?.map (·.form.head) := by
      rw [Option.map_map]
      exact congrArg (Option.map · t.sort?) (funext (Term.head_rename x y))
    rw [Term.HasFittingSort, Term.head_rename, Term.sort?_rename, hsort]
    exact h
  subst x r t hne h := by
    rw [Term.HasFittingSort, Term.head_subst hne, Term.sort?_subst hne]
    rw [Term.HasFittingSort] at h
    cases hty : t.sort? with
    | none =>
      rw [hty] at h
      exact h
    | some ty =>
      rw [hty] at h
      by_cases hvar : ty.form = .var x
      · -- the sort itself is replaced
        rw [Option.map_some, hvar] at h
        exact h.of_var _
      · rw [Option.map_some, Option.map_some, Term.head_subst hvar]
        exact h

end DependentCore
