import DependentCore.Proofs.Binding.Relabeling
import DependentCore.Reduction.Normal
import DependentCore.Typing.Rules

/-!
# Relabelings in the passes of normalisation

All that normalisation does in one step commutes with relabelings, as far as it does not look into
the environment. Effects, values and ends of control flow are not seen in names at all. Where names
are compared, as for members, a relabeling keeps different names different. Where new names are
made, only the indices of variables count, which a relabeling does not touch.

* `Term.hasEffect_relabel`, `Term.isValue_relabel`, `returnsAlways_relabel`: what names do not
  matter for,
* `Tele.apply_relabel`, `Term.beta?_relabel`: calls of functions,
* `selectElement?_relabel`, `compareLiterals?_relabel`: operations on values,
* `pruneStmts_relabel`, `dropUnreachable_relabel`: statements that are never reached.

What depends on the environment is in the module `Coupling`, which compares two environments.
-/

namespace DependentCore

variable {p : Phase} (σ : Relabeling)

/-! ## Parts of terms and telescopes -/

@[simp]
theorem Term.form_relabel (t : Term p) : (t.relabel σ).form = t.form.relabel σ := by
  cases t
  rfl

@[simp]
theorem Note.sort?_relabel (n : Note p (Term p)) :
    (n.relabel σ).sort? = n.sort?.map (·.relabel σ) := by
  cases n <;> rfl

@[simp]
theorem Term.sort?_relabel (t : Term p) : (t.relabel σ).sort? = t.sort?.map (·.relabel σ) := by
  obtain ⟨note, form⟩ := t
  exact note.sort?_relabel σ

/-- The signature of a function is relabeled with the function. -/
theorem Term.piSort?_relabel (t : Term p) :
    (t.relabel σ).piSort? = t.piSort?.map (·.relabel σ) := by
  rw [Term.piSort?, Term.piSort?, Term.sort?_relabel]
  rcases t.sort? with _ | ⟨note, form⟩
  · rfl
  · cases form with
    | bind k s => cases k <;> rfl
    | _ => rfl

@[simp]
theorem Term.isLit_relabel (b : Bool) (t : Term p) : (t.relabel σ).isLit b = t.isLit b := by
  obtain ⟨note, form⟩ := t
  cases form with
  | atom a => cases a <;> rfl
  | _ => rfl

/-- Whether a function has effects does not depend on names. -/
@[simp]
theorem Tele.mutability_relabel {k : Binder} (t : Tele p k) :
    (t.relabel σ).mutability = t.mutability := by
  induction k, t using Tele.args_induction with
  | fields | returns | runs => rfl
  | arg _ _ _ _ _ rest ih => exact ih

@[simp]
theorem Tele.arity_relabel {k : Binder} (t : Tele p k) : (t.relabel σ).arity = t.arity := by
  induction k, t using Tele.args_induction with
  | fields | returns | runs => rfl
  | arg _ _ _ _ _ rest ih => exact congrArg (· + 1) ih

theorem Tele.ret?_relabel {k : Binder} (t : Tele p k) :
    (t.relabel σ).ret? = t.ret?.map (·.relabel σ) := by
  induction k, t using Tele.args_induction with
  | fields | returns | runs => rfl
  | arg _ _ _ _ _ rest ih => exact ih

theorem Tele.body?_relabel {k : Binder} (t : Tele p k) :
    (t.relabel σ).body? = t.body?.map (relabelBody σ) := by
  induction k, t using Tele.args_induction with
  | fields | returns | runs => rfl
  | arg _ _ _ _ _ rest ih => exact ih

/-- The body may be dropped before or after relabeling. -/
theorem Tele.bare_relabel {k : Binder} (t : Tele p k) :
    (t.relabel σ).bare = t.bare.relabel σ := by
  induction k, t using Tele.args_induction with
  | fields | returns | runs => rfl
  | arg _ _ _ _ _ rest ih => rw [Tele.relabel, Tele.bare, Tele.bare, Tele.relabel, ih]

theorem Tele.signature_relabel (f : Function p) :
    (f.relabel σ).signature = f.signature.relabel σ :=
  f.bare_relabel σ

@[simp]
theorem length_relabelList (ts : List (Term p)) : (relabelList σ ts).length = ts.length := by
  rw [relabelList_eq_map, List.length_map]

/-! ## Effects and reachability -/

/-- Whether a call has effects is read off the sort of what is called, where names play no part. -/
theorem Term.hasMutableSort_relabel (t : Checked) :
    (t.relabel σ).hasMutableSort = t.hasMutableSort := by
  rw [Term.hasMutableSort, Term.hasMutableSort, Term.piSort?_relabel]
  cases t.piSort? with
  | none => rfl
  | some s => simp only [Option.map_some, Tele.mutability_relabel]

mutual

/-- A term has the same effects under other names. -/
@[simp]
theorem Term.hasEffect_relabel : ∀ t : Checked, (t.relabel σ).hasEffect = t.hasEffect
  | .mk _ form => form.hasEffect_relabel

@[simp]
theorem Form.hasEffect_relabel : ∀ f : Form .checked, (f.relabel σ).hasEffect = f.hasEffect
  | .atom _ | .var _ => rfl
  | .unary _ x => x.hasEffect_relabel
  | .binary _ x y => by
    rw [Form.relabel, Form.hasEffect, Form.hasEffect, x.hasEffect_relabel, y.hasEffect_relabel]
  | .app f args => by
    rw [Form.relabel, Form.hasEffect, Form.hasEffect, f.hasMutableSort_relabel,
      f.hasEffect_relabel, hasEffectList_relabel args]
  | .list xs => hasEffectList_relabel xs
  | .bind _ t => by rw [Form.relabel, Form.hasEffect, Form.hasEffect, t.hasEffect_relabel]

@[simp]
theorem Tele.hasEffect_relabel {k : Binder} :
    ∀ t : Tele .checked k, (t.relabel σ).hasEffect = t.hasEffect
  | .fields => rfl
  | .returns _ ret | .runs _ ret _ => ret.hasEffect_relabel
  | .arg _ _ ty _ rest => by
    rw [Tele.relabel, Tele.hasEffect, Tele.hasEffect, ty.hasEffect_relabel,
      rest.hasEffect_relabel]

@[simp]
theorem hasEffectList_relabel :
    ∀ ts : List Checked, hasEffectList (relabelList σ ts) = hasEffectList ts
  | [] => rfl
  | t :: ts => by
    rw [relabelList, hasEffectList, hasEffectList, t.hasEffect_relabel, hasEffectList_relabel ts]

end

mutual

/-- Whether control continues past a statement does not depend on names. -/
@[simp]
theorem Stmt.isTerminator_relabel : ∀ s : Stmt p, (s.relabel σ).isTerminator = s.isTerminator
  | .call _ _ | .ifThen _ _ _ | .ret _ _ | .retUnit _ | .impossible _ | .impossibleBy _ _ => rfl
  | .ifElse _ _ yes no => by
    rw [Stmt.relabel, Stmt.isTerminator, Stmt.isTerminator, returnsAlways_relabel yes,
      returnsAlways_relabel no]

/-- Whether all ways through a body return is seen in its shape. -/
@[simp]
theorem returnsAlways_relabel :
    ∀ b : List (Stmt p), returnsAlways (relabelBody σ b) = returnsAlways b
  | [] => rfl
  | s :: b => by
    rw [relabelBody, returnsAlways, returnsAlways, s.isTerminator_relabel,
      returnsAlways_relabel b]

end

theorem Stmt.stops_relabel (s : Stmt p) : (s.relabel σ).stops = s.stops := by
  cases s with
  | ifThen m cond yes =>
    simp only [Stmt.relabel, Stmt.stops, Term.isLit_relabel, returnsAlways_relabel]
  | ifElse m cond yes no =>
    simp only [Stmt.relabel, Stmt.stops, Stmt.isTerminator, Term.isLit_relabel,
      returnsAlways_relabel]
  | _ => rfl

mutual

theorem Stmt.endsImpossible_relabel :
    ∀ s : Stmt p, (s.relabel σ).endsImpossible = s.endsImpossible
  | .call _ _ | .ifThen _ _ _ | .ret _ _ | .retUnit _ | .impossible _ | .impossibleBy _ _ => rfl
  | .ifElse _ _ yes no => by
    rw [Stmt.relabel, Stmt.endsImpossible, Stmt.endsImpossible, endsImpossible_relabel yes,
      endsImpossible_relabel no]

/-- Whether an impossible statement ends a body is seen in its shape. -/
theorem endsImpossible_relabel :
    ∀ b : List (Stmt p), endsImpossible (relabelBody σ b) = endsImpossible b
  | [] => rfl
  | s :: b => by
    rw [relabelBody, endsImpossible, endsImpossible, s.endsImpossible_relabel,
      s.isTerminator_relabel, endsImpossible_relabel b]

end

theorem isEmpty_relabelBody (b : List (Stmt p)) : (relabelBody σ b).isEmpty = b.isEmpty := by
  cases b <;> rfl

mutual

theorem Stmt.dropUnreachable_relabel : ∀ s : Stmt p,
    (s.relabel σ).dropUnreachable = s.dropUnreachable.map (·.relabel σ)
  | .call _ _ | .ret _ _ | .retUnit _ | .impossible _ | .impossibleBy _ _ => rfl
  | .ifThen _ cond yes => by
    simp only [Stmt.relabel, Stmt.dropUnreachable, Term.isLit_relabel, isEmpty_relabelBody,
      dropUnreachable_relabel yes]
    split <;> rfl
  | .ifElse _ cond yes no => by
    simp only [Stmt.relabel, Stmt.dropUnreachable, Term.isLit_relabel, isEmpty_relabelBody,
      dropUnreachable_relabel yes, dropUnreachable_relabel no]
    split
    · rfl
    · split <;> rfl

/-- Unreachable statements are dropped alike, and the body is changed or not alike. -/
theorem dropUnreachable_relabel : ∀ b : List (Stmt p),
    dropUnreachable (relabelBody σ b) = (dropUnreachable b).map (relabelBody σ)
  | [] => rfl
  | s :: b => by
    simp only [relabelBody, dropUnreachable, s.dropUnreachable_relabel, Rewritten.map,
      Stmt.isTerminator_relabel, isEmpty_relabelBody, dropUnreachable_relabel b]
    split <;> rfl

end

/-! ## Beta reduction -/

/-- Arguments are put in from the left. Each substitution makes the same new indices, so it commutes
with the relabeling. -/
theorem Tele.supply_relabel {k : Binder} (floor : Nat) : ∀ (actuals : List (Term p)) (t : Tele p k),
    (t.relabel σ).supply floor (relabelList σ actuals) = (t.supply floor actuals).relabel σ
  | [], t => by cases t <;> rfl
  | _ :: _, .fields | _ :: _, .returns _ _ | _ :: _, .runs _ _ _ => rfl
  | actual :: actuals, .arg _ _ ty (some v) rest => by
    have ih := Tele.supply_relabel floor actuals (rest.refresh v floor).2
    simp only [relabelList, Tele.relabel, Option.map_some, Tele.supply, Tele.refresh_relabel, ih,
      Tele.subst_relabel]
  | _ :: actuals, .arg _ _ ty none rest => by
    simp only [relabelList, Tele.relabel, Option.map_none, Tele.supply,
      Tele.supply_relabel floor actuals rest]

theorem Tele.dropArgs_relabel {k : Binder} (t : Tele p k) :
    (t.relabel σ).dropArgs = t.dropArgs.relabel σ := by
  induction k, t using Tele.args_induction with
  | fields | returns | runs => rfl
  | arg _ _ _ _ _ rest ih => exact ih

/-- Relabeling commutes with the call of a function: the floor for new indices is the same. -/
theorem Tele.apply_relabel (f : Function p) (actuals : List (Term p)) :
    (f.relabel σ).apply (relabelList σ actuals) = (f.apply actuals).relabel σ := by
  simp only [Tele.apply, maxIndexList_relabel, Tele.supply_relabel, Tele.dropArgs_relabel]

theorem Note.retype_relabel (s : Signature p) (n : Note p (Term p)) :
    (n.relabel σ).retype (s.relabel σ) = (n.retype s).relabel σ := by
  cases n with
  | sort ty h =>
    cases ty
    rfl
  | _ => rfl

/-- A call is unfolded under the same conditions, which count arguments and look for effects. -/
theorem betaApply?_relabel (note fnote : Note .checked Checked) (f : Function .checked)
    (args : List Checked) :
    betaApply? (note.relabel σ) (fnote.relabel σ) (f.relabel σ) (relabelList σ args)
      = (betaApply? note fnote f args).map (·.relabel σ) := by
  cases args with
  | nil =>
    simp only [relabelList, betaApply?, Tele.body?_relabel]
    -- only the body that is a single `return` reduces
    rcases f.body? with _ | _ | ⟨s, _ | ⟨s', b⟩⟩
    · rfl
    · rfl
    · cases s <;> rfl
    · cases s <;> rfl
  | cons a as =>
    have hlist : relabelList σ (a :: as) = a.relabel σ :: relabelList σ as := rfl
    have happly := f.apply_relabel σ (a :: as)
    have heffect := hasEffectList_relabel σ (a :: as)
    have hlength := length_relabelList σ (a :: as)
    rw [hlist] at happly heffect hlength ⊢
    simp only [betaApply?, Tele.arity_relabel, hlength, heffect, happly]
    split
    · simp only [Tele.signature_relabel, Note.retype_relabel, Option.map_some]
      rfl
    · rfl

/-- Relabeling commutes with the rules for calls. -/
theorem Term.beta?_relabel (t : Checked) : (t.relabel σ).beta? = t.beta?.map (·.relabel σ) := by
  obtain ⟨note, form⟩ := t
  cases form with
  | binary op x y => cases op <;> rfl
  | app f args =>
    obtain ⟨fnote, fform⟩ := f
    cases fform with
    | bind k f =>
      cases k with
      | abs => exact betaApply?_relabel σ note fnote f args
      | _ => rfl
    | _ => rfl
  | _ => rfl

/-! ## Folding -/

section

variable {σ}

/-- Literals are compared by value, so names play no part. -/
theorem compareLiterals?_relabel (f g : Form .checked) :
    compareLiterals? (f.relabel σ) (g.relabel σ) = compareLiterals? f g := by
  cases f with
  | atom a =>
    cases g with
    | atom b => rfl
    | _ => cases a <;> rfl
  | _ => rfl

/-- The elements of a list without effects are those of the relabeled list. -/
theorem Form.pureElements?_relabel (f : Form .checked) :
    (f.relabel σ).pureElements? = f.pureElements?.map (relabelList σ) := by
  cases f with
  | list xs =>
    simp only [Form.relabel, Form.pureElements?, hasEffectList_relabel]
    split <;> rfl
  | _ => rfl

/-- Change the names of an argument. -/
def Arg.relabel (σ : Relabeling) (a : Arg p) : Arg p :=
  { a with ty := a.ty.relabel σ, var := a.var.map (·.relabel σ) }

theorem Tele.args_relabel {k : Binder} (t : Tele p k) :
    (t.relabel σ).args = t.args.map (·.relabel σ) := by
  induction k, t using Tele.args_induction with
  | fields | returns | runs => rfl
  | arg _ _ _ _ _ rest ih => exact congrArg (List.cons _) ih

/-- A variable has the new name of a field if it has the old one. -/
theorem Var.map_name_relabel_eq_some {v : Option Var} {field : String} :
    (v.map (·.relabel σ)).map (·.name) = some (σ.name field) ↔ v.map (·.name) = some field := by
  cases v with
  | none => simp
  | some v =>
    simp only [Option.map_some, Option.some.injEq]
    exact ⟨σ.injective, congrArg σ.name⟩

/-- A field is found at the same position, as different names stay different. -/
theorem Tele.positionOf?_relabel (fs : Fields .checked) (field : String) :
    (fs.relabel σ).positionOf? (σ.name field) = fs.positionOf? field := by
  rw [Tele.positionOf?, Tele.args_relabel, List.findIdx?_map, Tele.positionOf?]
  congr 1
  funext a
  simp only [Function.comp, Arg.relabel, Var.map_name_relabel_eq_some]

theorem getElem?_relabelList (ts : List Checked) (i : Nat) :
    (relabelList σ ts)[i]? = ts[i]?.map (·.relabel σ) := by
  rw [relabelList_eq_map, List.getElem?_map]

/-- An element is selected at the same position. -/
theorem selectElement?_relabel (x i : Checked) :
    selectElement? (x.relabel σ) (i.relabel σ) = (selectElement? x i).map (·.relabel σ) := by
  obtain ⟨note, form⟩ := i
  cases form with
  | atom a =>
    cases a with
    | num n =>
      show ((x.relabel σ).form.pureElements?.bind fun xs => (position? n).bind (xs[·]?))
        = (x.form.pureElements?.bind fun xs => (position? n).bind (xs[·]?)).map _
      rw [Term.form_relabel, Form.pureElements?_relabel]
      cases x.form.pureElements? with
      | none => rfl
      | some xs =>
        simp only [Option.map_some, Option.bind_some]
        cases position? n with
        | none => rfl
        | some i => exact getElem?_relabelList xs i
    | _ => rfl
  | _ => rfl

/-- The list and the position among the arguments of `slice` are read alike. -/
theorem dropElements?_relabel (args : List Checked) :
    dropElements? (relabelList σ args) = (dropElements? args).map (relabelList σ) := by
  rcases args with _ | ⟨_, _ | ⟨_, _ | ⟨⟨_, list⟩, _ | ⟨⟨_, start⟩, _⟩⟩⟩⟩
  · rfl
  · rfl
  · rfl
  · cases list <;> rfl
  · cases list with
    | list xs =>
      cases start with
      | atom a =>
        cases a with
        | num n =>
          show ((position? n).bind fun k => if k ≤ (relabelList σ xs).length
              && !hasEffectList ((relabelList σ xs).take k)
            then some ((relabelList σ xs).drop k) else none)
            = ((position? n).bind fun k => if k ≤ xs.length && !hasEffectList (xs.take k)
              then some (xs.drop k) else none).map _
          cases position? n with
          | none => rfl
          | some k =>
            have htake : (relabelList σ xs).take k = relabelList σ (xs.take k) := by
              simp only [relabelList_eq_map, List.map_take]
            have hdrop : (relabelList σ xs).drop k = relabelList σ (xs.drop k) := by
              simp only [relabelList_eq_map, List.map_drop]
            simp only [Option.bind_some, length_relabelList, htake, hdrop, hasEffectList_relabel]
            split <;> rfl
        | _ => rfl
      | _ => rfl
    | _ => rfl

/-! ## Pruning -/

/-- Which branch of an `if` is taken is seen in its condition, a literal. -/
theorem outcomeOfIf?_relabel (cond : Checked) (yes : Body .checked) (no : Option (Body .checked))
    (rest : Body .checked) :
    outcomeOfIf? (cond.relabel σ) (relabelBody σ yes) (no.map (relabelBody σ)) (relabelBody σ rest)
      = (outcomeOfIf? cond yes no rest).map fun o => (relabelBody σ o.1, o.2) := by
  have hno : (no.map (relabelBody σ)).getD [] = relabelBody σ (no.getD []) := by cases no <;> rfl
  simp only [outcomeOfIf?, Term.isLit_relabel, Term.hasEffect_relabel, endsImpossible_relabel, hno]
  split
  · rfl
  · split
    · rfl
    · split
      · rfl
      · split
        · rfl
        · cases no with
          | none =>
            simp only [Option.map_none]
            split <;> rfl
          | some no =>
            simp only [Option.map_some, endsImpossible_relabel]
            split <;> rfl

/-- What is left of a statement and of those after it is relabeled with them. -/
theorem Stmt.prune?_relabel (rest : Body .checked) (s : Stmt .checked) :
    (s.relabel σ).prune? (relabelBody σ rest)
      = (s.prune? rest).map fun o => (relabelBody σ o.1, o.2) := by
  cases s with
  | call m x =>
    simp only [Stmt.relabel, Stmt.prune?, Term.hasEffect_relabel]
    split <;> rfl
  | ifThen m cond yes => exact outcomeOfIf?_relabel cond yes none rest
  | ifElse m cond yes no => exact outcomeOfIf?_relabel cond yes (some no) rest
  | _ => rfl

theorem relabelBody_append (b b' : List (Stmt p)) :
    relabelBody σ (b ++ b') = relabelBody σ b ++ relabelBody σ b' := by
  simp only [relabelBody_eq_map, List.map_append]

/-- Relabeling commutes with the removal of branches that are not taken. -/
theorem pruneStmts_relabel (b : Body .checked) :
    pruneStmts (relabelBody σ b) = (pruneStmts b).map (relabelBody σ) := by
  induction b with
  | nil => rfl
  | cons s rest ih =>
    simp only [relabelBody, pruneStmts, Stmt.prune?_relabel, ih]
    rcases s.prune? rest with _ | ⟨spliced, _ | _⟩
    · rfl
    · simp only [Option.map_some, Rewritten.map, relabelBody_append]
    · rfl

/-! ## Unfolding -/

mutual

/-- Being a value is seen in the shape of a term. -/
theorem Term.isValue_relabel : ∀ t : Term p, (t.relabel σ).isValue = t.isValue
  | .mk _ form => form.isValue_relabel

theorem Form.isValue_relabel : ∀ f : Form p, (f.relabel σ).isValue = f.isValue
  | .atom _ | .var _ | .unary _ _ | .binary _ _ _ | .app _ _ | .bind _ _ => rfl
  | .list xs => isValueList_relabel xs

theorem isValueList_relabel : ∀ ts : List (Term p), isValueList (relabelList σ ts) = isValueList ts
  | [] => rfl
  | t :: ts => by
    rw [relabelList, isValueList, isValueList, t.isValue_relabel, isValueList_relabel ts]

end

/-- An abstraction that is applied stays one under other names. -/
theorem Term.isStuck_relabel (t : Checked) : (t.relabel σ).isStuck = t.isStuck := by
  obtain ⟨note, form⟩ := t
  cases form with
  | app f args =>
    obtain ⟨fnote, fform⟩ := f
    cases fform with
    | bind k t => cases k <;> rfl
    | _ => rfl
  | _ => rfl

end

end DependentCore
