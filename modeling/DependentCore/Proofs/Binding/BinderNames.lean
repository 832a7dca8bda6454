import DependentCore.Proofs.Binding.Replacement
import DependentCore.Proofs.Semantics.Substitution

/-!
# Names of binders

Substitution may give a binder a new index, but not a new name. So the binders of `t.subst x r`
have the names of binders of `t` and of `r`.

* `HaveNames P`: variables whose names have the property `P`,
* `Tele.formals`, `Tele.nestedVars`: the variables that the arguments of a telescope bind, and those
  that are bound further inside,
* `Term.haveNames_subst`: substitution keeps a property of the names of binders,
* `Tele.haveNames_nestedVars_subst`: it keeps one that only the nested binders have.
-/

namespace DependentCore

variable {p : Phase}

/-- The variables have names with a property. -/
def HaveNames (P : String → Prop) (vars : List (Option Var)) : Prop :=
  ∀ w, some w ∈ vars → P w.name

section
variable {P Q : String → Prop} {vars vars' : List (Option Var)}

theorem haveNames_append :
    HaveNames P (vars ++ vars') ↔ HaveNames P vars ∧ HaveNames P vars' := by
  simp only [HaveNames, List.mem_append, or_imp, forall_and]

theorem HaveNames.mono (h : HaveNames P vars) (hsub : vars' ⊆ vars) : HaveNames P vars' :=
  fun w hw => h w (hsub hw)

theorem HaveNames.imp (h : HaveNames P vars) (hPQ : ∀ name, P name → Q name) : HaveNames Q vars :=
  fun w hw => hPQ w.name (h w hw)

end

/-! ## Arguments and what is bound inside -/

/-- What the arguments of a telescope bind, in order. -/
def Tele.formals {k : Binder} (t : Tele p k) : List (Option Var) :=
  t.args.map (·.var)

theorem Tele.formals_arg {k : Binder} (mark : Mark p) (qty : Quantity) (ty : Term p)
    (v : Option Var) (rest : Tele p k) :
    (Tele.arg mark qty ty v rest).formals = v :: rest.formals :=
  rfl

/-- The variables that are bound inside the types of the arguments, the return type and the body of
a telescope. -/
def Tele.nestedVars {k : Binder} : Tele p k → List (Option Var)
  | .fields => []
  | .returns _ ret => ret.boundVars
  | .runs _ ret body => ret.boundVars ++ boundVarsBody body
  | .arg _ _ ty _ rest => ty.boundVars ++ rest.nestedVars

/-- The variables that a telescope binds are those of its arguments and the nested ones. -/
theorem Tele.mem_boundVars {k : Binder} {v : Option Var} (t : Tele p k) :
    v ∈ t.boundVars ↔ v ∈ t.formals ∨ v ∈ t.nestedVars := by
  induction k, t using Tele.args_induction with
  | fields | returns | runs =>
    simp [Tele.boundVars, Tele.nestedVars, Tele.formals, Tele.args]
  | arg _ _ _ ty w rest ih =>
    simp only [Tele.boundVars, Tele.nestedVars, Tele.formals_arg, List.mem_append, List.mem_cons,
      ih]
    grind

theorem Tele.haveNames_boundVars {k : Binder} {P : String → Prop} (t : Tele p k) :
    HaveNames P t.boundVars ↔ HaveNames P t.formals ∧ HaveNames P t.nestedVars := by
  simp only [HaveNames, t.mem_boundVars, or_imp, forall_and]

theorem Tele.mem_names {k : Binder} {name : String} (t : Tele p k) :
    some name ∈ t.names ↔ ∃ w, some w ∈ t.formals ∧ w.name = name := by
  simp only [Tele.names, Tele.formals, List.mem_map, Option.map_eq_some_iff]
  constructor
  · rintro ⟨arg, harg, w, hw, hname⟩
    exact ⟨w, ⟨arg, harg, hw⟩, hname⟩
  · rintro ⟨w, ⟨arg, harg, hw⟩, hname⟩
    exact ⟨arg, harg, w, hw, hname⟩

theorem Tele.mem_names_of_mem_formals {k : Binder} {t : Tele p k} {w : Var}
    (h : some w ∈ t.formals) : some w.name ∈ t.names :=
  t.mem_names.mpr ⟨w, h, rfl⟩

theorem Tele.nestedVars_rename {k : Binder} (x z : Var) (t : Tele p k) :
    (t.rename x z).nestedVars = t.nestedVars := by
  induction k, t using Tele.args_induction with
  | fields => rfl
  | returns _ ret => exact ret.boundVars_rename x z
  | runs _ ret body =>
    simp only [Tele.rename, Tele.nestedVars, ret.boundVars_rename, boundVarsBody_rename]
  | arg _ _ _ ty v rest ih =>
    rw [Tele.rename, Tele.nestedVars, Tele.nestedVars, ty.boundVars_rename]
    split
    · rfl
    · rw [ih]

/-! ## Substitution -/

section
variable {P : String → Prop} {x : Var} {r : Term p}

/-- Arguments may get new indices, but they keep their names. -/
theorem Tele.haveNames_formals_subst {k : Binder} (t : Tele p k) (h : HaveNames P t.formals) :
    HaveNames P (t.subst x r).formals := by
  intro w hw
  have hname : some w.name ∈ t.names := by
    rw [← Tele.names_subst x r t]
    exact Tele.mem_names_of_mem_formals hw
  obtain ⟨u, hu, hsame⟩ := t.mem_names.mp hname
  rw [← hsame]
  exact h u hu

mutual

/-- The binders of a term into which `r` is put have the names of its binders and those of `r`. -/
theorem Term.haveNames_subst (hr : HaveNames P r.boundVars) : ∀ t : Term p,
    HaveNames P t.boundVars → HaveNames P (t.subst x r).boundVars
  | .mk _ (.atom _), h => by
    rw [Term.subst_atom]
    exact h
  | .mk _ (.var v), h => by
    rw [Term.subst_var]
    by_cases hv : v = x
    · rwa [if_pos hv]
    · rwa [if_neg hv]
  | .mk _ (.unary _ a), h => by
    rw [Term.subst_unary]
    exact Term.haveNames_subst hr a h
  | .mk _ (.binary _ a b), h => by
    obtain ⟨ha, hb⟩ := haveNames_append.mp h
    rw [Term.subst_binary]
    exact haveNames_append.mpr ⟨Term.haveNames_subst hr a ha, Term.haveNames_subst hr b hb⟩
  | .mk _ (.app f args), h => by
    obtain ⟨hf, hargs⟩ := haveNames_append.mp h
    rw [Term.subst_app]
    exact haveNames_append.mpr
      ⟨Term.haveNames_subst hr f hf, haveNames_substList hr args hargs⟩
  | .mk _ (.list xs), h => by
    rw [Term.subst_list]
    exact haveNames_substList hr xs h
  | .mk _ (.bind _ t), h => by
    obtain ⟨hformals, hnested⟩ := t.haveNames_boundVars.mp h
    rw [Term.subst_bind]
    exact (Tele.haveNames_boundVars _).mpr
      ⟨t.haveNames_formals_subst hformals, Tele.haveNames_nestedVars_subst hr t hnested⟩
termination_by t => 2 * t.size
decreasing_by all_goals simp only [Term.size, Form.size]; omega

theorem haveNames_substList (hr : HaveNames P r.boundVars) : ∀ ts : List (Term p),
    HaveNames P (boundVarsList ts) → HaveNames P (boundVarsList (ts.map (·.subst x r)))
  | [], h => h
  | t :: ts, h => by
    obtain ⟨ht, hts⟩ := haveNames_append.mp h
    exact haveNames_append.mpr ⟨Term.haveNames_subst hr t ht, haveNames_substList hr ts hts⟩
termination_by ts => 2 * sizeList ts + 1
decreasing_by all_goals have := t.one_le_size; simp only [sizeList]; omega

/-- The binders inside a telescope into which `r` is put have the names of those that were there and
of the binders of `r`. -/
theorem Tele.haveNames_nestedVars_subst {k : Binder} (hr : HaveNames P r.boundVars) :
    ∀ t : Tele p k, HaveNames P t.nestedVars → HaveNames P (t.subst x r).nestedVars
  | .fields, h => h
  | .returns _ ret, h => Term.haveNames_subst hr ret h
  | .runs _ ret body, h => by
    obtain ⟨hret, hbody⟩ := haveNames_append.mp h
    rw [Tele.subst_runs]
    exact haveNames_append.mpr
      ⟨Term.haveNames_subst hr ret hret, haveNames_substBody hr body hbody⟩
  | .arg _ _ ty v rest, h => by
    obtain ⟨hty, hrest⟩ := haveNames_append.mp h
    have hty' := Term.haveNames_subst hr ty hty
    have hrest' := Tele.haveNames_nestedVars_subst hr rest hrest
    cases v with
    | none =>
      rw [Tele.subst_arg_none]
      exact haveNames_append.mpr ⟨hty', hrest'⟩
    | some v =>
      rw [Tele.subst_arg_some]
      by_cases hx : v = x
      · rw [if_pos hx]
        exact haveNames_append.mpr ⟨hty', hrest⟩
      · rw [if_neg hx]
        by_cases hocc : r.occursFree v
        · -- the renamed rest has the binders it had
          rw [if_pos hocc]
          have hnew := Tele.haveNames_nestedVars_subst hr (rest.refresh v r.maxIndex).2
            (by rwa [Tele.refresh_eq, Tele.nestedVars_rename])
          exact haveNames_append.mpr ⟨hty', hnew⟩
        · rw [if_neg hocc]
          exact haveNames_append.mpr ⟨hty', hrest'⟩
termination_by t => 2 * t.size
decreasing_by all_goals simp only [Tele.size, Tele.size_refresh]; omega

theorem Stmt.haveNames_subst (hr : HaveNames P r.boundVars) : ∀ s : Stmt p,
    HaveNames P s.boundVars → HaveNames P (s.subst x r).boundVars
  | .call _ a, h | .ret _ a, h | .impossibleBy _ a, h => Term.haveNames_subst hr a h
  | .ifThen _ cond yes, h => by
    obtain ⟨hcond, hyes⟩ := haveNames_append.mp h
    rw [Stmt.subst_ifThen]
    exact haveNames_append.mpr
      ⟨Term.haveNames_subst hr cond hcond, haveNames_substBody hr yes hyes⟩
  | .ifElse _ cond yes no, h => by
    obtain ⟨h, hno⟩ := haveNames_append.mp h
    obtain ⟨hcond, hyes⟩ := haveNames_append.mp h
    rw [Stmt.subst_ifElse]
    exact haveNames_append.mpr ⟨haveNames_append.mpr
      ⟨Term.haveNames_subst hr cond hcond, haveNames_substBody hr yes hyes⟩,
      haveNames_substBody hr no hno⟩
  | .retUnit _, h | .impossible _, h => h
termination_by s => 2 * s.size
decreasing_by all_goals simp only [Stmt.size]; omega

theorem haveNames_substBody (hr : HaveNames P r.boundVars) : ∀ b : List (Stmt p),
    HaveNames P (boundVarsBody b) → HaveNames P (boundVarsBody (b.map (·.subst x r)))
  | [], h => h
  | s :: b, h => by
    obtain ⟨hs, hb⟩ := haveNames_append.mp h
    exact haveNames_append.mpr ⟨Stmt.haveNames_subst hr s hs, haveNames_substBody hr b hb⟩
termination_by b => 2 * sizeBody b + 1
decreasing_by all_goals have := s.one_le_size; simp only [sizeBody]; omega

end

end

end DependentCore
