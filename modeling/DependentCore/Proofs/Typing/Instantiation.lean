import DependentCore.Proofs.Reduction.Rules
import DependentCore.Proofs.Typing.Purity

/-!
# Effects under instantiation

Whether a call has an effect is read off the sort that its function carries. A term of any type that
normalises to the type of a variable may be put for the variable; its sort need not be a pi type
itself, and then what it does goes unnoticed where it is called
(`instantiation_changes_effect`).

* `Term.piMutability?`: the mutability of a pi type, which normalisation keeps
  (`Rewrites.mutability?`),
* `Term.Accepts.sort_of_check`: the sort of a term that is checked against a type,
* `Call.FitsDeclared`: a call of a function as it is declared,
* `hasEffect_subst_eq_iff`: when replacing a variable leaves the effect of a term as it is.
-/

namespace DependentCore

/-! ## The mutability of pi types -/

/-- The mutability of a pi type. -/
def Term.piMutability? : Checked → Option Mutability
  | .mk _ (.bind .pi s) => some s.mutability
  | _ => none

theorem Term.hasMutableSort_of_sort {f ty : Checked} (h : f.sort? = some ty) :
    f.hasMutableSort = decide (ty.piMutability? = some .yes) := by
  unfold Term.hasMutableSort Term.piSort?
  rw [h]
  obtain ⟨note, form⟩ := ty
  cases form with
  | bind k s => cases k <;> simp [Term.piMutability?]
  | _ => rfl

theorem Term.isSome_piSort?_of_sort {f ty : Checked} (h : f.sort? = some ty) :
    f.piSort?.isSome = ty.piMutability?.isSome := by
  unfold Term.piSort?
  rw [h]
  obtain ⟨note, form⟩ := ty
  cases form with
  | bind k s => cases k <;> rfl
  | _ => rfl

theorem Term.piMutability?_of_steps {env : Env} {t u : Checked} (h : Term.Steps env t u) :
    t.piMutability? = none := by
  cases h <;> rfl

theorem Term.piMutability?_reduce {env : Env} {t : Checked} {m : Mutability}
    (h : t.piMutability? = some m) : (t.reduce env).result.piMutability? = some m := by
  refine Term.reduce_induction (P := (·.piMutability? = some m)) (fun t u ht hstep => ?_) h
  rw [Term.piMutability?_of_steps hstep] at ht
  cases ht

/-- The mutability of what a pass is over, if that is a pi type or a telescope. -/
def Subject.mutability? : Subject → Option Mutability
  | .term t | .parts t | .call t => t.piMutability?
  | .tele t => some t.mutability
  | .list _ | .body _ | .stmts _ | .stmt _ => none

/-- Normalisation keeps the mutability of pi types. -/
theorem Rewrites.mutability? {env : Env} {stack : List GlobalName} {a b : Subject} {c : Bool}
    (h : Rewrites env stack a b c) {m : Mutability} (ha : a.mutability? = some m) :
    b.mutability? = some m := by
  induction h with
  | again _ _ _ _ ihparts ihcall ihterm =>
    exact ihterm (ihcall (Term.piMutability?_reduce (ihparts ha)))
  | done _ _ _ ihparts ihcall => exact ihcall (Term.piMutability?_reduce (ihparts ha))
  | @bind _ _ k _ _ _ _ ih =>
    cases k with
    | pi => exact ih ha
    | _ => cases ha
  | returns | runs | fields | keep => exact ha
  | arg _ _ _ ih => exact ih ha
  | unfold hunfold =>
    -- only calls are unfolded
    unfold Term.unfolding? at hunfold
    split at hunfold
    · cases ha
    · cases hunfold
  | _ => cases ha

/-- Pi types with the same normal form have the same mutability. -/
theorem Env.piMutability?_of_equivalent {env : Env} {fuel : Nat} {a b : Checked} {m m' : Mutability}
    (h : env.equivalent fuel a b = .ok true) (ha : a.piMutability? = some m)
    (hb : b.piMutability? = some m') : m = m' := by
  obtain ⟨a', ha', h⟩ := Check.bind_eq_ok.mp h
  obtain ⟨b', hb', h⟩ := Check.bind_eq_ok.mp h
  have halpha : a'.alphaEq b' = true := Check.pure_eq_ok.mp h
  obtain ⟨_, hrewrites⟩ := Env.rewrites_of_normalize? (Env.normal_eq_ok.mp ha')
  obtain ⟨_, hrewrites'⟩ := Env.rewrites_of_normalize? (Env.normal_eq_ok.mp hb')
  have hm : a'.piMutability? = some m := hrewrites.mutability? ha
  have hm' : b'.piMutability? = some m' := hrewrites'.mutability? hb
  unfold Term.piMutability? at hm hm'
  split at hm
  · split at hm'
    · cases hm
      cases hm'
      exact congrArg Prod.snd (Tele.outline_of_alphaEqUnder halpha)
    · cases hm'
  · cases hm

/-! ## Sorts of accepted terms -/

section
variable {fuel : Nat} {env : Env} {ctx : Context}

/-- A term that is checked against a type has that type as its sort, or an equivalent one. -/
theorem Term.Accepts.sort_of_check {e : Written} {t ty : Checked}
    (h : Term.Accepts fuel env ctx (.check ty) e t) :
    ∃ sort, t.sort? = some sort ∧ (sort = ty ∨ env.equivalent fuel sort ty = .ok true) := by
  have hconclude {t : Checked} (h : Concludes fuel env (.check ty) t) :
      ∃ sort, t.sort? = some sort ∧ (sort = ty ∨ env.equivalent fuel sort ty = .ok true) :=
    (h ty rfl).imp fun _ h => h.imp_right .inr
  cases h with
  | @atom _ _ _ _ a _ h =>
    cases a with
    | num n =>
      simp only [elaborateAtom, Mode.expected?, elaborateNumeral] at h
      split at h
      · cases h
      · split at h
        · cases h
          exact ⟨ty, rfl, .inl rfl⟩
        · cases h
    | _ =>
      obtain ⟨u, -, h⟩ := Check.bind_eq_ok.mp h
      obtain ⟨rfl, hc⟩ := conclude_eq_ok h
      exact hconclude hc
  | var _ hc | trueT _ hc | addressOf _ _ _ hc | deref _ _ hc | scopeOf _ hc | not _ hc
  | member _ _ _ _ hc | arrayT _ _ hc | refT _ _ hc | element _ _ _ hc | position _ _ _ _ _ _ hc
  | logic _ _ hc | compare _ _ _ hc | arith _ _ _ hc | app _ _ _ _ _ hc | sigma _ hc | pi _ hc
  | abs _ hc => exact hconclude hc
  -- these take over the type that they are checked against
  | becauseOf h | arithOf h | array h | unit h | proof h | struct h =>
    cases h
    exact ⟨ty, rfl, .inl rfl⟩
  | because h => cases h

/-- The type that a variable is declared with. -/
def Context.declaredType? (ctx : Context) (x : Var) : Option Checked :=
  (ctx.lookup? x).map fun d =>
    match d.meaning with
    | .type => Checked.typename
    | .term _ ty => ty

theorem sort?_of_assignVar {loc : Location} {x : Var} {t : Checked}
    (h : assignVar ctx loc x = .ok t) : t.sort? = ctx.declaredType? x := by
  unfold assignVar at h
  unfold Context.declaredType?
  split at h
  · next hx =>
    cases h
    rw [hx]
    rfl
  · next hx =>
    cases h
    rw [hx]
    rfl
  · cases h

/-- A checked variable is what the context gives for it. -/
theorem Term.Accepts.assignVar_of_form {mode : Mode} {e : Written} {t : Checked} {x : Var}
    (h : Term.Accepts fuel env ctx mode e t) (ht : t.form = .var x) :
    ∃ loc, assignVar ctx loc x = .ok t := by
  cases h with
  | atom h =>
    rw [form_of_elaborateAtom h] at ht
    cases ht
  | var h =>
    rw [form_of_assignVar h] at ht
    cases ht
    exact ⟨_, h⟩
  | _ => cases ht

/-- Where a function is checked against a pi type, its sort is a pi type of the same mutability, or
no pi type. -/
theorem Term.Accepts.hasMutableSort_of_check {e : Written} {t ty : Checked} {m : Mutability}
    (h : Term.Accepts fuel env ctx (.check ty) e t) (hty : ty.piMutability? = some m) :
    t.hasMutableSort = (decide (m = .yes) && t.piSort?.isSome) := by
  obtain ⟨sort, hsort, hsame⟩ := h.sort_of_check
  rw [Term.hasMutableSort_of_sort hsort, Term.isSome_piSort?_of_sort hsort]
  cases hm : sort.piMutability? with
  | none => simp
  | some m' =>
    have hmm : m' = m := by
      obtain rfl | hequiv := hsame
      · exact Option.some.inj (hm.symm.trans hty)
      · exact Env.piMutability?_of_equivalent hequiv hm hty
    simp [hmm]

end

/-! ## Instantiation -/

/-- A call of a function whose sort is a pi type and, if it is the variable `x`, the type `ty`. -/
def Call.FitsDeclared (x : Var) (ty : Checked) (c : Call) : Prop :=
  c.callee.piSort?.isSome ∧ (c.isOf x → c.callee.sort? = some ty)

theorem Term.form_of_isVariable {x : Var} {t : Checked} (h : t.isVariable x) : t.form = .var x := by
  obtain ⟨_, form⟩ := t
  cases form with
  | var v => exact congrArg Form.var (of_decide_eq_true h)
  | _ => cases h

/-- What is called where the checker allows it is called as it is declared. -/
theorem Call.Allowed.fitsDeclared {fuel : Nat} {env : Env} {ctx : Context} {c : Call} {x : Var}
    {ty : Checked} (h : c.Allowed fuel env ctx) (hx : ctx.declaredType? x = some ty) :
    c.FitsDeclared x ty := by
  cases h with
  | intro hctx hf hs _ =>
    refine ⟨Option.isSome_of_eq_some hs, fun hof => ?_⟩
    simp only [Call.isOf, Bool.and_eq_true, Bool.not_eq_true', List.contains_eq_mem,
      decide_eq_false_iff_not] at hof
    -- around the call `x` is not bound again, so it is looked up with the same result
    obtain ⟨loc, hvar⟩ := hf.assignVar_of_form (Term.form_of_isVariable hof.1)
    rw [sort?_of_assignVar hvar, Context.declaredType?, hctx.lookup x hof.2]
    exact hx

/-- If one value is put for another one at some places, what holds somewhere is the same unless it
held at these places only, and the values differ. -/
theorem any_ite_eq_any_iff {α : Type} {xs : List α} {here p : α → Bool} {a b : Bool}
    (h : ∀ x ∈ xs, here x → p x = a) :
    xs.any (fun x => if here x then b else p x) = xs.any p ↔
      ¬(a ≠ b ∧ (∃ x ∈ xs, here x) ∧ ∀ x ∈ xs, p x → here x) := by
  rw [Bool.eq_iff_iff, List.any_eq_true, List.any_eq_true]
  grind

/-- Let `x` be declared with the type `ty`, and let `r` be a term without effects that is checked
against this type. Of an accepted term, let the values found for placeholders call functions only as
they are declared, and let no argument be renamed to `x`. Then putting `r` for `x` keeps the effect
of the term, but for one case: `ty` is the type of a mutable function, the sort of `r` is no pi
type, and the effect of the term consists of calls of `x`. -/
theorem hasEffect_subst_eq_iff {env : Env} {ctx : Context} {x : Var} {ty : Checked}
    (hx : ctx.declaredType? x = some ty)
    {fuel : Nat} {mode : Mode} {e : Written} {t : Checked}
    (he : e.elaborate fuel env ctx mode = .ok t) {fuel' : Nat} {r : Written} {r' : Checked}
    (hr : r.elaborate fuel' env ctx (.check ty) = .ok r') (hpure : r'.hasEffect = false)
    (hfill : ∀ c ∈ callsOfFillings (e.fillings t), c.FitsDeclared x ty)
    (hclash : ¬Term.Confuses x r' t) :
    (t.subst x r').hasEffect = t.hasEffect ↔
      ¬(ty.piMutability? = some .yes ∧ r'.piSort? = none ∧ (∃ c ∈ t.calls, c.isOf x) ∧
        ∀ c ∈ t.calls, c.callee.hasMutableSort → c.isOf x) := by
  have hcalls : ∀ c ∈ t.calls, c.FitsDeclared x ty := fun c hc =>
    ((Term.accepts_of_elaborate e he).justifies c hc).elim (hfill c) (·.fitsDeclared hx)
  have hof : ∀ c ∈ t.calls, c.isOf x →
      c.callee.hasMutableSort = decide (ty.piMutability? = some .yes) := fun c hc hcx =>
    Term.hasMutableSort_of_sort ((hcalls c hc).2 hcx)
  -- where `x` is called at all, its type is a pi type, so that the sort of `r` shows its mutability
  -- or shows none
  have hdiffer (hcalled : ∃ c ∈ t.calls, c.isOf x) :
      decide (ty.piMutability? = some .yes) ≠ r'.hasMutableSort ↔
        ty.piMutability? = some .yes ∧ r'.piSort? = none := by
    obtain ⟨c, hc, hcx⟩ := hcalled
    have hsome := (hcalls c hc).1
    rw [Term.isSome_piSort?_of_sort ((hcalls c hc).2 hcx)] at hsome
    obtain ⟨m, hm⟩ := Option.isSome_iff_exists.mp hsome
    rw [(Term.accepts_of_elaborate r hr).hasMutableSort_of_check hm, hm]
    cases r'.piSort? <;> simp
  rw [Term.hasEffect_subst hpure hclash fun c hc => (hcalls c hc).1, Term.hasEffect_eq_any]
  unfold Call.hasEffectAfter
  rw [any_ite_eq_any_iff hof]
  refine not_congr ⟨?_, ?_⟩
  · rintro ⟨hne, hcalled, honly⟩
    obtain ⟨hmut, hnone⟩ := (hdiffer hcalled).mp hne
    exact ⟨hmut, hnone, hcalled, honly⟩
  · rintro ⟨hmut, hnone, hcalled, honly⟩
    exact ⟨(hdiffer hcalled).mpr ⟨hmut, hnone⟩, hcalled, honly⟩

/-- The type `() mutable -> u64`. -/
def effectful : Checked :=
  Checked.pi (.returns .yes Checked.u64)

/-- The type `array_t(u64, size)`. -/
def arrayOf (size : Checked) : Checked :=
  Checked.type (.binary .arrayT Checked.u64 size)

/-- The type `(u64 n, array_t(u64, n)) -> u64`. -/
def sumType : Checked :=
  Checked.pi (.arg () .many Checked.u64 (some { name := "n" }) (.arg () .many
    (arrayOf (Checked.term Checked.u64 (.var { name := "n" }))) none (.returns .no Checked.u64)))

/-- Mutable code in which variables have the given types. -/
def mutableContext (decls : List (Var × Checked)) : Context :=
  { inner := ⟨decls.map fun d => (d.1, ⟨none, .term .many d.2⟩), []⟩, mutability := .yes }

/-- With `x` and `y` of the type `() mutable -> u64` and `zs` an array of `x()` numbers,
`sum(auto, zs)` is checked to `sum(x(), zs)`. Its effect is kept when `y` is put for `x`. -/
theorem hasEffect_subst_of_size_placeholder :
    let at0 (form : Form .written) : Written := .mk (.place {} rfl) form
    let x : Var := { name := "x" }
    let y : Var := { name := "y" }
    let sum : Var := { name := "sum" }
    let zs : Var := { name := "zs" }
    let callOfX := Checked.term Checked.u64 (.app (Checked.term effectful (.var x)) [])
    let ctx :=
      mutableContext [(zs, arrayOf callOfX), (sum, sumType), (y, effectful), (x, effectful)]
    let e := at0 (.app (at0 (.var sum)) [at0 (.atom .auto), at0 (.var zs)])
    let t := Checked.term Checked.u64 (.app (Checked.term sumType (.var sum))
      [callOfX, Checked.term (arrayOf callOfX) (.var zs)])
    let r := Checked.term effectful (.var y)
    ctx.declaredType? x = some effectful ∧ e.elaborate 20 {} ctx .assign = .ok t ∧
      (at0 (.var y)).elaborate 20 {} ctx (.check effectful) = .ok r ∧ r.hasEffect = false ∧
      (t.subst x r).hasEffect = t.hasEffect := by
  intro at0 x y sum zs callOfX ctx e t r
  have hx : ctx.declaredType? x = some effectful := rfl
  have he : e.elaborate 20 {} ctx .assign = .ok t := by decide +kernel +zetaReduce
  have hr : (at0 (.var y)).elaborate 20 {} ctx (.check effectful) = .ok r := rfl
  refine ⟨hx, he, hr, rfl, (hasEffect_subst_eq_iff hx he hr rfl ?_ ?_).mpr ?_⟩
  · intro c hc
    obtain rfl : c = ⟨[], Checked.term effectful (.var x)⟩ := List.mem_singleton.mp hc
    exact ⟨rfl, fun _ => rfl⟩
  · exact fun h => Nat.not_lt_zero _ h.maxIndex_lt
  · rintro ⟨-, ⟨⟩, -⟩

/-- The definition `F = () -> typename { return () mutable -> u64; }`. -/
def functionTypeEntry : Entry .written :=
  let at0 (form : Form .written) : Written := .mk (.place {} rfl) form
  let u64 := at0 (.atom (.int ⟨.unsigned, .w64⟩))
  ⟨{}, "F", .defined (.runs .no (at0 (.atom .typename))
    [.ret {} (at0 (.bind .pi (.returns .yes u64)))])⟩

/-- `e` is accepted, and `r` is accepted for the type of the variable `x` and has no effect; putting
`r` for `x` takes the effect of `e` from `before` to `after`. -/
def TakesEffect (env : Env) (ctx : Context) (e : Written) (x : Var) (r : Written)
    (before after : Bool) : Prop :=
  ∃ ty t r', ctx.declaredType? x = some ty ∧ e.elaborate 20 env ctx .assign = .ok t ∧
    r.elaborate 20 env ctx (.check ty) = .ok r' ∧ r'.hasEffect = false ∧
    t.hasEffect = before ∧ (t.subst x r').hasEffect = after

theorem takesEffect_of_runs {env : Env} {ctx : Context} {e r : Written} {x : Var} {ty : Checked}
    {before after : Bool} (hx : ctx.declaredType? x = some ty)
    (h : ∃ t, e.elaborate 20 env ctx .assign = .ok t ∧
      ∃ r', r.elaborate 20 env ctx (.check ty) = .ok r' ∧ r'.hasEffect = false ∧
        t.hasEffect = before ∧ (t.subst x r').hasEffect = after) :
    TakesEffect env ctx e x r before after := by
  obtain ⟨t, ht, r', hr, heffects⟩ := h
  exact ⟨ty, t, r', hx, ht, hr, heffects⟩

/-- Putting a term for a variable may change the effect of a term, in mutable code.
* With `x: () mutable -> u64` and `h: F()`, which has the same normal form, the effect of `x()` is
  lost in `h()`.
* With `x: F()`, `y: () mutable -> u64` and `f: (() mutable -> u64 k) -> array_t(u64, k())`, the
  term `sum(auto, f(x))` is checked to `sum(x(), f(x))`, which has no effect; `sum(y(), f(y))` has.
* With `y: u64` and `y:1: u64`, putting `y` for `y:1` in
  `(() mutable -> u64 y) -> array_t(u64, y())` gives `(() mutable -> u64 y:1) -> array_t(u64, y())`,
  where the effect of `y()` is lost. -/
theorem instantiation_changes_effect :
    let at0 (form : Form .written) : Written := .mk (.place {} rfl) form
    let var (v : Var) := at0 (.var v)
    let u64 := at0 (.atom (.int ⟨.unsigned, .w64⟩))
    let f : Var := { name := "f" }
    let h : Var := { name := "h" }
    let k : Var := { name := "k" }
    let sum : Var := { name := "sum" }
    let x : Var := { name := "x" }
    let y : Var := { name := "y" }
    let y₁ : Var := { name := "y", index := 1 }
    let typeF := Checked.term Checked.typename (.app (Checked.term
      (Checked.pi (.returns .no Checked.typename)) (.atom (.global { name := "F" }))) [])
    let typeOfF := Checked.pi (.arg () .many effectful (some k) (.returns .no
      (arrayOf (Checked.term Checked.u64 (.app (Checked.term effectful (.var k)) [])))))
    ∃ outcome env, (checkUnit 20 [functionTypeEntry]).run.run {} = (.ok outcome, env) ∧
      TakesEffect env (mutableContext [(h, typeF), (x, effectful)])
        (at0 (.app (var x) [])) x (var h) true false ∧
      TakesEffect env (mutableContext [(f, typeOfF), (sum, sumType), (y, effectful), (x, typeF)])
        (at0 (.app (var sum) [at0 (.atom .auto), at0 (.app (var f) [var x])])) x (var y)
        false true ∧
      TakesEffect env (mutableContext [(y, Checked.u64), (y₁, Checked.u64)])
        (at0 (.bind .pi (.arg {} .many (at0 (.bind .pi (.returns .yes u64))) (some y)
          (.returns .no (at0 (.binary .arrayT u64 (at0 (.app (var y) [])))))))) y₁ (var y)
        true false := by
  intro at0 var u64 f h k sum x y y₁ typeF typeOfF
  let env := ((checkUnit 20 [functionTypeEntry]).run.run {}).2
  refine ⟨_, env, rfl, ?_, ?_, ?_⟩
  · exact takesEffect_of_runs rfl (by decide +kernel +zetaReduce)
  · exact takesEffect_of_runs rfl (by decide +kernel +zetaReduce)
  · exact takesEffect_of_runs rfl (by decide +kernel +zetaReduce)

end DependentCore
