import DependentCore.Proofs.Globals.Numerals

/-!
# Sorts fit the nodes that carry them

The checker attaches to each node its sort, and other parts rely on it: whether a call has effects
is read off the sort of the function. Normalisation rewrites nodes under sorts that were attached to
something else. A definition is put under the sort of the reference to it, and a function that has
taken in its arguments gets a signature without them.

* `Term.SortFits`: the sort of a node fits its head, and if the node is a reference, what it refers
  to,
* `nodeInvariant_sortFits`, `rewriteInvariant_sortFits`: checking and normalisation maintain this,
* `sorts_fit`: so sorts fit in everything that is checked, and in normal forms.

A reference to the function `slice` that is built in has its signature. Where the environment has
a function of this name, that is unfolded instead, so there must be none.
-/

namespace DependentCore

/-- The sort of a node fits its head. If the node refers to a function, it also has the outline of
that function. -/
structure Term.SortFits (env : Env) (t : Checked) : Prop where
  head : t.HasFittingSort
  reference : t.References (env.Resolves SameOutline)

section
variable {env env' : Env}

/-! ## Checking -/

theorem substitutive_sortFits (env : Env) : Substitutive (Term.SortFits env) where
  rename x y t h :=
    ⟨substitutive_hasFittingSort.rename x y t h.head,
      (substitutive_resolves env).rename x y t h.reference⟩
  subst x r t hne h :=
    ⟨substitutive_hasFittingSort.subst x r t hne h.head,
      (substitutive_resolves env).subst x r t hne h.reference⟩

theorem Term.SortFits.grow (hgrows : env.Grows SameOutline env') {t : Checked}
    (h : t.SortFits env) : t.SortFits env' :=
  ⟨h.head, h.reference.grow (fun _ _ h => h) hgrows⟩

/-- The checker puts in nodes with sorts that fit. -/
theorem nodeInvariant_sortFits
    (hstored : ∀ g e, env.get? g = some e → e.item.Everywhere (Term.SortFits env)) :
    NodeInvariant env (Term.SortFits env) := by
  have hresolves : NodeInvariant env (Term.References (env.Resolves SameOutline)) :=
    nodeInvariant_resolves fun g e he => (hstored g e he).mono fun _ h => h.reference
  exact {
    substitutive := substitutive_sortFits env
    compound := fun t hatom hfits => ⟨hfits, hresolves.compound t hatom hfits⟩
    literal := fun note a hvalue hnum hfits =>
      ⟨hfits, hresolves.literal note a hvalue hnum hfits⟩
    numeral := fun n ty t hty hn => ⟨rfl, hresolves.numeral n ty t hty hn⟩
    global := fun ctx loc g t ht => by
      refine ⟨?_, hresolves.global ctx loc g t ht⟩
      obtain ⟨note, rfl, hnote⟩ := Env.resolves_of_assignGlobal ht
      cases hnote <;> rfl
    stored := hstored }

theorem unitInvariant_sortFits (fuel : Nat) : UnitInvariant fuel (fun _ => True) SameOutline
    fun env _ item => item.Everywhere (Term.SortFits env) :=
  unitInvariant_of_nodeInvariant nodeInvariant_sortFits fun hgrows h => h.grow hgrows

/-! ## Normalisation -/

/-- Conditions and the literals that they are evaluated to are of one sort. -/
theorem Head.Fits.literal {h : Head} {sort : Option Head} (hfits : h.Fits sort)
    (hcondition : h.isCondition) (b : Bool) : (Head.atom (.lit b)).Fits sort := by
  unfold Head.isCondition at hcondition
  split at hcondition
  · exact hfits
  · exact hfits
  · exact hfits
  · cases hcondition

/-- An abstraction has a pi type of its outline. -/
theorem Term.HasFittingSort.exists_pi {note : Note .checked Checked} {f : Function .checked}
    (h : (Term.mk note (.bind .abs f)).HasFittingSort) :
    ∃ ty h, note = .sort ty h ∧ ty.form.head = .bind .pi f.outline := by
  cases note with
  | place _ hp => cases hp
  | kind => cases h
  | sort ty hty => exact ⟨ty, hty, rfl, Option.some.inj h⟩

theorem hasFittingSort_abs {note : Note .checked Checked} {f : Function .checked}
    {s : Signature .checked} {h} (hs : s.outline = f.outline) :
    (Term.mk (.sort (.mk note (.bind .pi s)) h) (.bind .abs f)).HasFittingSort :=
  congrArg (fun o => some (Head.bind .pi o)) hs

/-- The signature of a definition has its outline, and so has the sort of a reference to it. -/
theorem Env.Resolves.hasFittingSort_unfold {g : GlobalName} {f : Function .checked}
    {note : Note .checked Checked} (hnote : env.Resolves SameOutline g note)
    (hf : env.function? g = some f) (hslice : env.get? sliceName = none) :
    (Term.mk note (.bind .abs f)).HasFittingSort := by
  obtain ⟨_, _, hget⟩ := Env.get?_of_function? hf
  cases hnote with
  | type hget' hs =>
    cases hget.symm.trans hget'
    cases hs
  | function hget' hs h =>
    cases hget.symm.trans hget'
    cases hs
    exact hasFittingSort_abs (h.trans (Tele.outline_bare f))
  | builtin hg =>
    rw [hg, hslice] at hget
    cases hget

/-- Normalisation rewrites nodes to ones that fit the sort. -/
theorem rewriteInvariant_sortFits (hslice : env.get? sliceName = none)
    (hdefined : ∀ {g f}, env.function? g = some f → f.Everywhere (Term.SortFits env)) :
    RewriteInvariant env (Term.SortFits env) where
  substitutive := substitutive_sortFits env
  parts {note f f'} h hhead := by
    refine ⟨?_, (stepInvariant_references env (substitutive_resolves env)).parts h.reference hhead⟩
    have hfits := h.head
    rw [Term.HasFittingSort, Term.form] at hfits ⊢
    rwa [hhead]
  literal h hcondition := ⟨h.head.literal hcondition _, trivial⟩
  number {note _ _ _ n} hn := by
    obtain ⟨ty, -, -, hty, -⟩ := arithResult?_eq_some hn
    refine ⟨?_, trivial⟩
    have hsome : (note.sort?.map (·.form.head)).isSome := by rw [hty]; rfl
    exact hsome
  list h := ⟨h.head, trivial⟩
  function {note f g} h := by
    obtain ⟨ty, _, rfl, -⟩ := h.head.exists_pi
    exact ⟨hasFittingSort_abs (Tele.outline_bare g), trivial⟩
  signature {ty _ _ s} h hty := by
    have hhead : ty.form.head = .bind .pi _ := Option.some.inj h.head
    have hfits := hty.head
    rw [Term.HasFittingSort, hhead] at hfits
    exact ⟨hfits, trivial⟩
  unfold hf h := ⟨h.reference.hasFittingSort_unfold hf hslice, trivial⟩
  defined := hdefined

end

/-- Consider an environment that arises by checking units in the root module and that has no global
named `slice`. In the terms, bodies and units that are checked in it, and in what it holds, the sort
of every node fits the node, and that of every node in a sort does; the same holds after
normalisation, with any limits on unfolding. -/
theorem sorts_fit {env limits : Env} (hbuilt : env.BuiltAtRoot)
    (hslice : env.get? sliceName = none) (hlimits : limits.modules = env.modules) :
    (∀ g e, env.get? g = some e → e.item.Everywhere Term.HasFittingSort) ∧
    (∀ t, env.Returns t → t.Everywhere Term.HasFittingSort ∧
      ∀ fuel stack attempts u left,
        (normalizeTerm limits fuel stack t).run attempts = some (u, left) →
          u.result.Everywhere Term.HasFittingSort) ∧
    (∀ fuel ctx b ret b', env.Opens ctx → env.Returns ret →
      env.checkBody fuel ctx b ret = .ok b' → EverywhereBody Term.HasFittingSort b' ∧
        ∀ fuel stack attempts u left,
          (normalizeBody limits fuel stack b').run attempts = some (u, left) →
            EverywhereBody Term.HasFittingSort u.result) ∧
    (∀ start fuel entries es, start.BuiltAtRoot →
      (checkUnit fuel entries).run.run start = (.ok es, env) →
        (∀ e ∈ es, e.item.Everywhere Term.HasFittingSort) ∧
        ∀ fuel es', limits.normalizeUnit? fuel es = some es' →
          ∀ e ∈ es', e.item.Everywhere Term.HasFittingSort) := by
  have hP : NodeInvariant env (Term.SortFits env) :=
    nodeInvariant_sortFits fun _ _ he => hbuilt.stored unitInvariant_sortFits he
  -- normalisation looks up the same definitions
  have hR : RewriteInvariant limits (Term.SortFits limits) := by
    refine rewriteInvariant_sortFits (by rw [Env.get?, hlimits]; exact hslice) fun hf => ?_
    obtain ⟨_, _, hget⟩ := Env.get?_of_function? hf
    exact (hbuilt.limits hlimits).stored unitInvariant_sortFits hget
  have hgrow : ∀ t : Checked, t.SortFits env → t.SortFits limits :=
    fun _ h => h.grow (.of_modules_eq hlimits)
  have hfits : ∀ t : Checked, t.SortFits limits → t.HasFittingSort := fun _ h => h.head
  refine ⟨fun g e he => ((hP.stored g e he).mono hgrow).mono hfits, fun t ht => ?_,
    fun fuel ctx b ret b' hctx hret hb => ?_, fun start fuel entries es hstart hunit => ?_⟩
  · have ht : t.Everywhere (Term.SortFits limits) := (ht.everywhere hP).mono hgrow
    refine ⟨ht.mono hfits, fun _ _ _ _ _ h => ?_⟩
    exact (everywhere_of_normalizeTerm hR h ht).mono hfits
  · have hb : EverywhereBody (Term.SortFits limits) b' :=
      (Env.everywhere_checkBody hP (hctx.everywhere hP) (hret.everywhere hP) hb).mono hgrow
    refine ⟨hb.mono hfits, fun _ _ _ _ _ h => ?_⟩
    exact (everywhere_of_normalizeBody hR h hb).mono hfits
  · have hes : ∀ e ∈ es, e.item.Everywhere (Term.SortFits limits) :=
      fun e he => (hstart.checked unitInvariant_sortFits hunit e he).mono hgrow
    refine ⟨fun e he => (hes e he).mono hfits, fun _ _ h e he => ?_⟩
    exact (Env.everywhere_of_normalizeUnit? hR h hes e he).mono hfits

/-- The comparison `twice(200) == 144`. -/
def twiceComparison : Written :=
  let at0 (form : Form .written) : Written := .mk (.place {} rfl) form
  at0 (.binary (.compare .eq) twiceCall (at0 (.atom (.num 144))))

/-- The comparison as checked. -/
def twiceComparisonAs : Checked :=
  Checked.term Checked.bool
    (.binary (.compare .eq) twiceCallAs (Checked.term byteType (.atom (.num 144))))

/-- The environment with `twice`, where only one definition may be in the course of being
unfolded. -/
def shallowEnv : Env :=
  { forwardEnv with unfoldLimit := 1 }

/-- The definition of `twice` is put under the sort of the reference to it, and then the comparison
is folded to `true` under the sort of the comparison. -/
theorem sorts_fit_comparison :
    forwardEnv.BuiltAtRoot ∧ forwardEnv.get? sliceName = none ∧
      shallowEnv.modules = forwardEnv.modules ∧
      forwardEnv.assign 16 {} twiceComparison = .ok twiceComparisonAs ∧
      twiceComparisonAs.Everywhere Term.HasFittingSort ∧
      ∃ u left, (normalizeTerm shallowEnv 20 [] twiceComparisonAs).run 1 = some (u, left) ∧
        u.result = Checked.term Checked.bool (.atom (.lit true)) ∧
        u.result.Everywhere Term.HasFittingSort := by
  have hbuilt : forwardEnv.BuiltAtRoot := .check (.empty rfl) rfl
  have hslice : forwardEnv.get? sliceName = none := by decide +kernel
  have hmodules : shallowEnv.modules = forwardEnv.modules := rfl
  have hassign : forwardEnv.assign 16 {} twiceComparison = .ok twiceComparisonAs := by
    decide +kernel
  have hnormal : ∃ r, (normalizeTerm shallowEnv 20 [] twiceComparisonAs).run 1 = some r ∧
      r.1.result = Checked.term Checked.bool (.atom (.lit true)) := by decide +kernel
  obtain ⟨-, hterms, -⟩ := sorts_fit hbuilt hslice hmodules
  obtain ⟨hfits, hnormalized⟩ := hterms twiceComparisonAs (.assign .empty hassign)
  obtain ⟨⟨u, left⟩, hu, hresult⟩ := hnormal
  exact ⟨hbuilt, hslice, hmodules, hassign, hfits, u, left, hu, hresult,
    hnormalized 20 [] 1 u left hu⟩

end DependentCore
