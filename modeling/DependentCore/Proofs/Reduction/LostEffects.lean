import DependentCore.Proofs.Reduction.Rules
import DependentCore.Proofs.Typing.Vocabulary
import DependentCore.Typing.Declare

/-!
# Effects that folding loses

Folding drops the operands of what it evaluates. Those of operators are literals, and elements of an
initializer list are dropped only if they have no effects. But `slice` looks at the elements of its
list only: the type, the size and the proof that it is called with are dropped whatever they do.

* `Term.hasEffectBesideList`: a call of `slice` has effects that its list does not have,
* `Term.hasEffect_of_fold?`: one equation for the effects before and after a step,
* `Term.Accepts.slice_call`: in a call that was accepted, only the arguments can have such effects,
* `folding_loses_effects_of_slice_arguments_only`: when folding keeps the effects of a term.
-/

namespace DependentCore

/-- Whether a call of the function `slice` that is built in has effects besides those of its list:
the function, or an argument other than the list and the position. -/
def Term.hasEffectBesideList (env : Env) : Checked → Bool
  | .mk _ (.app (.mk fnote (.atom (.global g))) (ty :: size :: _ :: _ :: rest)) =>
    env.isBuiltinSlice g && ((Term.mk fnote (.atom (.global g))).hasMutableSort || ty.hasEffect ||
      size.hasEffect || hasEffectList rest)
  | _ => false

theorem Term.hasEffectBesideList_eq_true {env : Env} {t : Checked}
    (h : t.hasEffectBesideList env) :
    ∃ note fnote g ty size list position rest,
      t = .mk note (.app (.mk fnote (.atom (.global g)))
        (ty :: size :: list :: position :: rest)) ∧
      env.isBuiltinSlice g ∧ ((Term.mk fnote (.atom (.global g))).hasMutableSort ∨ ty.hasEffect ∨
        size.hasEffect ∨ hasEffectList rest) := by
  unfold Term.hasEffectBesideList at h
  split at h
  · simp only [Bool.and_eq_true, Bool.or_eq_true, or_assoc] at h
    exact ⟨_, _, _, _, _, _, _, _, rfl, h⟩
  · cases h

/-! ## Effects of lists -/

theorem hasEffectList_append (xs ys : List Checked) :
    hasEffectList (xs ++ ys) = (hasEffectList xs || hasEffectList ys) := by
  induction xs with
  | nil => rfl
  | cons x xs ih => rw [List.cons_append, hasEffectList, hasEffectList, ih, Bool.or_assoc]

theorem hasEffectList_eq_false_iff {xs : List Checked} :
    hasEffectList xs = false ↔ ∀ x ∈ xs, x.hasEffect = false := by
  induction xs with
  | nil => simp [hasEffectList]
  | cons x xs ih => simp [hasEffectList, ih]

theorem Form.hasEffect_of_pureElements? {f : Form .checked} {xs : List Checked}
    (h : f.pureElements? = some xs) : f.hasEffect = false ∧ ∀ x ∈ xs, x.hasEffect = false := by
  unfold Form.pureElements? at h
  split at h
  · split at h
    · cases h
    · next hpure =>
      cases h
      rw [Bool.not_eq_true] at hpure
      exact ⟨hpure, hasEffectList_eq_false_iff.mp hpure⟩
  · cases h

theorem Term.hasEffect_eq_form (t : Checked) : t.hasEffect = t.form.hasEffect := by
  cases t
  rfl

/-! ## One step -/

section
variable {env : Env}

theorem hasEffect_of_compareLiterals? {x y : Checked} {o : Ordering}
    (h : compareLiterals? x.form y.form = some o) : x.hasEffect = false ∧ y.hasEffect = false := by
  rw [x.hasEffect_eq_form, y.hasEffect_eq_form]
  unfold compareLiterals? at h
  split at h
  · next hx hy => exact ⟨by rw [hx]; rfl, by rw [hy]; rfl⟩
  · next hx hy => exact ⟨by rw [hx]; rfl, by rw [hy]; rfl⟩
  · cases h

theorem hasEffect_of_arithResult? {ty : Option Checked} {op : ArithOp} {x y : Checked} {n : Int}
    (h : arithResult? env ty op x.form y.form = some n) :
    x.hasEffect = false ∧ y.hasEffect = false := by
  rw [x.hasEffect_eq_form, y.hasEffect_eq_form]
  unfold arithResult? at h
  split at h
  · next hx hy => exact ⟨by rw [hx]; rfl, by rw [hy]; rfl⟩
  · cases h

theorem hasEffect_of_selectMember? {x u : Checked} {field : String}
    (h : selectMember? env x field = some u) : x.hasEffect = false ∧ u.hasEffect = false := by
  obtain ⟨xs, hxs, h⟩ := Option.bind_eq_some_iff.mp h
  obtain ⟨ty, -, h⟩ := Option.bind_eq_some_iff.mp h
  obtain ⟨fs, -, h⟩ := Option.bind_eq_some_iff.mp h
  obtain ⟨i, -, h⟩ := Option.bind_eq_some_iff.mp h
  obtain ⟨hx, hpure⟩ := Form.hasEffect_of_pureElements? hxs
  exact ⟨x.hasEffect_eq_form.trans hx, hpure u (List.mem_of_getElem? h)⟩

theorem hasEffect_of_selectElement? {x i u : Checked} (h : selectElement? x i = some u) :
    x.hasEffect = false ∧ i.hasEffect = false ∧ u.hasEffect = false := by
  unfold selectElement? at h
  split at h
  · next n hn =>
    obtain ⟨xs, hxs, h⟩ := Option.bind_eq_some_iff.mp h
    obtain ⟨k, -, h⟩ := Option.bind_eq_some_iff.mp h
    obtain ⟨hx, hpure⟩ := Form.hasEffect_of_pureElements? hxs
    refine ⟨x.hasEffect_eq_form.trans hx, ?_, hpure u (List.mem_of_getElem? h)⟩
    rw [i.hasEffect_eq_form, hn]
    rfl
  · cases h

/-- What is left of the list has the effects that the list had. -/
theorem hasEffectList_of_dropElements? {args xs : List Checked}
    (h : dropElements? args = some xs) :
    ∃ ty size list position rest, args = ty :: size :: list :: position :: rest ∧
      list.hasEffect = hasEffectList xs ∧ position.hasEffect = false := by
  unfold dropElements? at h
  split at h
  · next ty size note ys note' n rest =>
    obtain ⟨k, -, h⟩ := Option.bind_eq_some_iff.mp h
    split at h
    · next hcond =>
      cases h
      simp only [Bool.and_eq_true, Bool.not_eq_true'] at hcond
      refine ⟨ty, size, _, _, rest, rfl, ?_, rfl⟩
      calc hasEffectList ys
          = hasEffectList (ys.take k ++ ys.drop k) := by rw [List.take_append_drop]
        _ = (hasEffectList (ys.take k) || hasEffectList (ys.drop k)) := hasEffectList_append _ _
        _ = hasEffectList (ys.drop k) := by rw [hcond.2, Bool.false_or]
    · cases h
  · cases h

/-- A term has the effects that are left after folding, and those that a call of `slice` has besides
its list. -/
theorem Term.hasEffect_of_fold? {t u : Checked} (h : t.fold? env = some u) :
    t.hasEffect = (u.hasEffect || t.hasEffectBesideList env) := by
  unfold Term.fold? at h
  split at h
  · cases h
    rfl
  · cases h
    rfl
  · next note op x y =>
    obtain ⟨o, ho, rfl⟩ := Option.map_eq_some_iff.mp h
    obtain ⟨hx, hy⟩ := hasEffect_of_compareLiterals? ho
    show (x.hasEffect || y.hasEffect) = false
    rw [hx, hy, Bool.or_self]
  · next note op x y =>
    obtain ⟨n, hn, rfl⟩ := Option.map_eq_some_iff.mp h
    obtain ⟨hx, hy⟩ := hasEffect_of_arithResult? hn
    show (x.hasEffect || y.hasEffect) = false
    rw [hx, hy, Bool.or_self]
  · next note field x =>
    obtain ⟨hx, hu⟩ := hasEffect_of_selectMember? h
    show x.hasEffect = (u.hasEffect || false)
    rw [hx, hu, Bool.or_self]
  · next note x i =>
    obtain ⟨hx, hi, hu⟩ := hasEffect_of_selectElement? h
    show (x.hasEffect || i.hasEffect) = (u.hasEffect || false)
    rw [hx, hi, hu]
  · next note fnote g args =>
    split at h
    · next hslice =>
      obtain ⟨xs, hxs, rfl⟩ := Option.map_eq_some_iff.mp h
      obtain ⟨ty, size, list, position, rest, rfl, hlist, hposition⟩ :=
        hasEffectList_of_dropElements? hxs
      show (_ || false || (ty.hasEffect || (size.hasEffect || (list.hasEffect ||
        (position.hasEffect || hasEffectList rest))))) = (hasEffectList xs ||
          (env.isBuiltinSlice g && (_ || ty.hasEffect || size.hasEffect || hasEffectList rest)))
      rw [hslice, hlist, hposition, Bool.true_and]
      ac_rfl
    · cases h
  · cases h

end

/-! ## Calls that were accepted -/

section
variable {fuel : Nat} {env : Env} {ctx : Context}

/-- An argument is found for each that is written. -/
theorem AcceptsArgs.length_eq : ∀ {xs : List Written} {s rest : Signature .checked}
    {xs' : List Checked}, AcceptsArgs fuel env ctx xs s xs' rest → s.arity = xs.length →
      xs'.length = xs.length
  | [], _, _, _, h, _ => by cases h <;> rfl
  | _ :: _, _, _, _, h, harity => by
    cases h with
    | returns => cases harity
    | cons _ _ h | auto _ _ h =>
      have hrest := Nat.succ.inj harity
      rw [List.length_cons, List.length_cons, h.length_eq (by rw [Tele.arity_instantiate, hrest])]

/-- The function `slice` that is built in is accepted without effects, with five arguments. -/
theorem Term.Accepts.slice_call {mode : Mode} {e : Written} {note fnote : Note .checked Checked}
    {g : GlobalName} {args : List Checked} (hslice : env.isBuiltinSlice g)
    (h : Term.Accepts fuel env ctx mode e
      (.mk note (.app (.mk fnote (.atom (.global g))) args))) :
    (Term.mk fnote (.atom (.global g))).hasMutableSort = false ∧ args.length = 5 := by
  cases h with
  | atom h => cases form_of_elaborateAtom h
  | var h => cases form_of_assignVar h
  | app hf hs _ harity hargs =>
    have hnone : env.get? g = none := by
      simp only [Env.isBuiltinSlice, Bool.and_eq_true, Option.isNone_iff_eq_none] at hslice
      exact hslice.2
    cases hf with
    | var h => cases form_of_assignVar h
    | atom hf =>
      cases form_of_elaborateAtom hf
      obtain ⟨t, ht, hf⟩ := Check.bind_eq_ok.mp hf
      obtain ⟨rfl, -⟩ := conclude_eq_ok hf
      rw [assignAtom, assignGlobal, hnone] at ht
      dsimp only at ht
      rw [if_pos hslice] at ht
      cases ht
      cases hs
      exact ⟨rfl, (hargs.length_eq harity).trans harity.symm⟩

end

/-- Folding loses effects only of the arguments of `slice`. If a term is folded, its effects are
those of the result and those that a call of `slice` has besides its list; so it keeps its effects
if it is no such call, or if there are none to lose, or if the elements that are left have effects
too. In a call that the checker accepts, it is the type, the size or the proof that has such effects
and not the function; also if the arguments have been replaced by others. -/
theorem folding_loses_effects_of_slice_arguments_only {env : Env} {t u : Checked}
    (h : t.fold? env = some u) :
    t.hasEffect = (u.hasEffect || t.hasEffectBesideList env) ∧
      (u.hasEffect = t.hasEffect ↔ (t.hasEffectBesideList env → u.hasEffect)) ∧
      ∀ {fuel ctx mode e note₀ f args₀ note args},
        Term.elaborate fuel env ctx mode e = .ok (.mk note₀ (.app f args₀)) →
        t = .mk note (.app f args) → args.length = args₀.length → t.hasEffectBesideList env →
        ∃ ty size list position proof, args = [ty, size, list, position, proof] ∧
          (ty.hasEffect ∨ size.hasEffect ∨ proof.hasEffect) := by
  have heffect := Term.hasEffect_of_fold? h
  refine ⟨heffect, ?_, ?_⟩
  · rw [heffect]
    cases u.hasEffect <;> cases t.hasEffectBesideList env <;> decide
  · intro fuel ctx mode e note₀ f args₀ note args haccepted ht hlength hbeside
    obtain ⟨_, fnote, g, ty, size, list, position, rest, rfl, hslice, hlost⟩ :=
      Term.hasEffectBesideList_eq_true hbeside
    cases ht
    obtain ⟨hf, hfive⟩ := (Term.accepts_of_elaborate e haccepted).slice_call hslice
    have hrest : rest.length = 1 := by
      simp only [List.length_cons] at hlength
      omega
    obtain ⟨proof, rfl⟩ := List.length_eq_one_iff.mp hrest
    refine ⟨ty, size, list, position, proof, rfl, ?_⟩
    simpa [hf, hasEffectList] using hlost

/-- The functions `p: (u64 n) mutable -> true_t(1 <= n)` and `m: () mutable -> u8`. -/
def effectfulProofs : Env :=
  let u64 : Written := .mk (.place {} rfl) (.atom (.int .u64))
  let u8 : Written := .mk (.place {} rfl) (.atom (.int ⟨.unsigned, .w8⟩))
  let n : Var := { name := "n" }
  let one : Written := .mk (.place {} rfl) (.atom (.num 1))
  let fits : Written := .mk (.place {} rfl)
    (.binary (.compare .lte) one (.mk (.place {} rfl) (.var n)))
  ((checkUnit 8 [
    ⟨{}, "p", .external (.arg {} .many u64 (some n)
      (.returns .yes (.mk (.place {} rfl) (.unary .trueT fits))))⟩,
    ⟨{}, "m", .external (.returns .yes u8)⟩]).run.run {}).2

/-- The call `slice(u8, 3, {1, 2, last}, 1, p(3))`. -/
def sliceWithProof (last : Written) : Written :=
  let written (form : Form .written) : Written := .mk (.place {} rfl) form
  let num (n : Int) := written (.atom (.num n))
  let proof := written (.app (written (.atom (.global { name := "p" }))) [num 3])
  written (.app (written (.atom (.global sliceName)))
    [written (.atom (.int ⟨.unsigned, .w8⟩)), num 3, written (.list [num 1, num 2, last]), num 1,
      proof])

/-- The call loses the effect of its proof, but an element that is left has an effect too. -/
theorem slice_keeps_effect_of_element :
    let m : Written := .mk (.place {} rfl) (.app (.mk (.place {} rfl)
      (.atom (.global { name := "m" }))) [])
    ∃ t u, effectfulProofs.assign 8 (Context.newScopeOf {} .yes) (sliceWithProof m) = .ok t ∧
      t.fold? effectfulProofs = some u ∧ t.hasEffectBesideList effectfulProofs ∧
      u.hasEffect = t.hasEffect := by
  intro m
  have hassign : effectfulProofs.assign 8 (Context.newScopeOf {} .yes) (sliceWithProof m) =
    .ok _ := rfl
  have hkeep {t u : Checked} (h : t.fold? effectfulProofs = some u) (hu : u.hasEffect) :
      u.hasEffect = t.hasEffect :=
    (folding_loses_effects_of_slice_arguments_only h).2.1.mpr fun _ => hu
  exact ⟨_, _, hassign, rfl, rfl, hkeep rfl rfl⟩

/-- With a literal in the place of that element, the effect of the proof is lost. -/
theorem slice_loses_effect_of_proof :
    ∃ t u, effectfulProofs.assign 8 (Context.newScopeOf {} .yes)
        (sliceWithProof (.mk (.place {} rfl) (.atom (.num 3)))) = .ok t ∧
      t.fold? effectfulProofs = some u ∧ t.hasEffect = true ∧ u.hasEffect = false :=
  ⟨_, _, rfl, rfl, rfl, rfl⟩

end DependentCore
