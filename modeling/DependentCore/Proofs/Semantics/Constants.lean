import DependentCore.Proofs.Globals.Numerals
import DependentCore.Proofs.Reduction.Coupling
import DependentCore.Proofs.Reduction.Scalars
import DependentCore.Proofs.Typing.Instantiation

/-!
# Constant expressions

An accepted expression over booleans and numbers has a value as soon as its variables have one,
unless it divides by zero. If literals are put for the variables, normalisation ends in the literal
of that value.

* `Env.isScalarType`, `Context.IsScalar`: boolean and integer types, aliases resolved, and contexts
  in which all variables are of such types,
* `Value.Fits`: a value is one of a scalar type,
* `Term.DividesByZero`: the evaluation of a term comes to a division by zero,
* `Term.Accepts.progress`: an accepted scalar term divides by zero, or has a value of its type,
* `Term.close`, `Valuation.ofLiterals`: literals put for variables, and their values,
* `constant_expressions_normalize_to_their_value`: the normal form is the literal of the value.
-/

namespace DependentCore

variable {env : Env} {fuel : Nat}

/-! ## Scalar types -/

/-- Whether a type is the boolean type or an integer type, aliases resolved. -/
def Env.isScalarType (env : Env) (ty : Checked) : Bool :=
  match ty.form with
  | .atom .bool => true
  | _ => (env.intType? ty).isSome

/-- All variables in scope are of boolean or integer types. -/
def Context.IsScalar (env : Env) (ctx : Context) : Prop :=
  ∀ v d, ctx.lookup? v = some d → ∃ qty ty, d.meaning = .term qty ty ∧ env.isScalarType ty

/-- A value is a boolean or a number of a type. -/
def Value.Fits (env : Env) (ty : Checked) : Value → Prop
  | .bool _ => ty.form = .atom .bool
  | .int n => ∃ it, env.intType? ty = some it ∧ it.contains n
  | .str _ | .list _ _ => False

theorem Env.exists_atom_of_isScalarType {ty : Checked} (h : env.isScalarType ty) :
    ∃ note a, ty = .mk note (.atom a) := by
  obtain ⟨note, form⟩ := ty
  cases form with
  | atom a => exact ⟨note, a, rfl⟩
  | _ => cases h

theorem Env.isScalarType_of_intType? {ty : Checked} (h : (env.intType? ty).isSome) :
    env.isScalarType ty := by
  unfold Env.isScalarType
  split
  · rfl
  · exact h

theorem Env.isScalarType_congr (env : Env) {ty ty' : Checked} (h : ty.form = ty'.form) :
    env.isScalarType ty = env.isScalarType ty' := by
  rw [Env.isScalarType, Env.isScalarType, env.intType?_congr (congrArg Form.head h), h]

theorem Env.normalize?_atom {note : Note .checked Checked} {a : Atom} {u : Checked}
    (h : env.normalize? fuel (.mk note (.atom a)) = some u) : u = .mk note (.atom a) := by
  have hsettles : (Term.mk note (.atom a)).Settles env _ := Term.settles_atom note a
  obtain ⟨n, hn⟩ := hsettles.normalize?
  have hmax := env.normalize?_mono (Nat.le_max_left fuel n) h
  rw [hn _ (Nat.le_max_right fuel n)] at hmax
  exact (Option.some.inj hmax).symm

/-- Equivalent scalar types are the same but for their sorts. -/
theorem Env.form_eq_of_equivalent {ty ty' : Checked} (hty : env.isScalarType ty)
    (hty' : env.isScalarType ty') (h : env.equivalent fuel ty ty' = .ok true) :
    ty.form = ty'.form := by
  obtain ⟨note, a, rfl⟩ := Env.exists_atom_of_isScalarType hty
  obtain ⟨note', b, rfl⟩ := Env.exists_atom_of_isScalarType hty'
  obtain ⟨u, hu, h⟩ := Check.bind_eq_ok.mp h
  obtain ⟨u', hu', h⟩ := Check.bind_eq_ok.mp h
  obtain rfl := Env.normalize?_atom (Env.normal_eq_ok.mp hu)
  obtain rfl := Env.normalize?_atom (Env.normal_eq_ok.mp hu')
  have hab : a = b := by
    simpa [Term.alphaEq, Term.alphaEqUnder, Form.alphaEqUnder] using Check.pure_eq_ok.mp h
  rw [hab]
  rfl

theorem Value.fits_congr {ty ty' : Checked} (h : ty.form = ty'.form) {w : Value}
    (hw : w.Fits env ty) : w.Fits env ty' := by
  obtain ⟨note, form⟩ := ty
  obtain ⟨note', form'⟩ := ty'
  obtain rfl : form = form' := h
  exact hw

theorem Value.Fits.bool {ty : Checked} {w : Value} (h : w.Fits env ty)
    (hty : ty.form = .atom .bool) : ∃ b, w = .bool b := by
  cases w with
  | bool b => exact ⟨b, rfl⟩
  | int n =>
    obtain ⟨it, hit, -⟩ := h
    rw [Env.intType?, hty] at hit
    cases hit
  | _ => cases h

theorem Value.Fits.int {ty : Checked} {w : Value} (h : w.Fits env ty)
    (hty : (env.intType? ty).isSome) : ∃ n, w = .int n := by
  cases w with
  | int n => exact ⟨n, rfl⟩
  | bool b =>
    have hbool : ty.form = .atom .bool := h
    rw [Env.intType?, hbool] at hty
    cases hty
  | _ => cases h

/-! ## Division by zero -/

/-- The evaluation of a term comes to a division by zero. A justification is not evaluated. -/
inductive Term.DividesByZero (env : Env) (ρ : Valuation) : Checked → Prop where
  | here {note x y} : y.Evaluates env ρ (.int 0) →
    Term.DividesByZero env ρ (.mk note (.binary (.arith .div) x y))
  | operand {note x} : Term.DividesByZero env ρ x →
    Term.DividesByZero env ρ (.mk note (.unary .not x))
  | left {note op x y} : Term.DividesByZero env ρ x →
    Term.DividesByZero env ρ (.mk note (.binary op x y))
  | right {note op x y} : op ≠ .because → Term.DividesByZero env ρ y →
    Term.DividesByZero env ρ (.mk note (.binary op x y))

/-- A term that divides by zero has no value. -/
theorem Term.DividesByZero.not_evaluates {ρ : Valuation} {t : Checked}
    (h : t.DividesByZero env ρ) : ∀ w, ¬t.Evaluates env ρ w := by
  induction h with
  | here hy =>
    intro w hw
    cases hw with
    | arith _ hb _ _ hn =>
      cases hb.unique hy
      exact (ArithOp.yields_div_iff.mp hn).1 rfl
  | operand _ ih =>
    intro w hw
    cases hw with
    | not hx => exact ih _ hx
  | left _ ih =>
    intro w hw
    cases hw with
    | subscript hx | because hx | logic hx | compareInt hx | compareBool hx | arith hx =>
      exact ih _ hx
  | right hop _ ih =>
    intro w hw
    cases hw with
    | because => exact hop rfl
    | subscript _ hy | logic _ hy | compareInt _ hy | compareBool _ hy | arith _ hy =>
      exact ih _ hy

theorem ArithOp.eval?_eq_none {op : ArithOp} {a b : Int} (h : op.eval? a b = none) :
    op = .div ∧ b = 0 := by
  cases op with
  | div => exact ⟨rfl, by simpa [ArithOp.eval?] using h⟩
  | _ => cases h

/-! ## Sorts of scalar terms -/

/-- A number is accepted for an integer type that contains it. -/
theorem elaborateAtom_num {ctx : Context} {loc : Location} {mode : Mode} {n : Int} {t : Checked}
    (h : elaborateAtom fuel env ctx loc mode (.num n) = .ok t) :
    ∃ ty it, mode.expected? = some ty ∧ env.intType? ty = some it ∧ it.contains n ∧
      t = Checked.term ty (.atom (.num n)) := by
  rw [elaborateAtom] at h
  split at h
  · next ty hmode =>
    unfold elaborateNumeral at h
    split at h
    · cases h
    · next it hit =>
      split at h
      · next hcontains =>
        cases h
        exact ⟨ty, it, hmode, hit, hcontains, rfl⟩
      · cases h
  · cases h

theorem Context.IsScalar.sort_of_assignVar {ctx : Context} (hctx : ctx.IsScalar env)
    {loc : Location} {v : Var} {t : Checked} (h : assignVar ctx loc v = .ok t) :
    ∃ d qty ty, ctx.lookup? v = some d ∧ d.meaning = .term qty ty ∧ env.isScalarType ty ∧
      t = Checked.term ty (.var v) := by
  unfold assignVar at h
  split at h
  · next hv =>
    obtain ⟨_, _, hmeaning, _⟩ := hctx v _ hv
    cases hmeaning
  · next hv =>
    obtain ⟨qty, ty, hmeaning, hty⟩ := hctx v _ hv
    cases hmeaning
    cases h
    exact ⟨_, _, _, hv, rfl, hty, rfl⟩
  · cases h

/-- The sort of a scalar term is scalar, or the type that is expected. -/
theorem Term.Accepts.isScalarType_sort : ∀ {e : Written} {ctx : Context} {mode : Mode}
    {t ty : Checked}, Term.Accepts fuel env ctx mode e t → e.isScalar → ctx.IsScalar env →
    t.sort? = some ty → env.isScalarType ty ∨ mode.expected? = some ty
  | .mk _ (.atom a), _, mode, _, _, h, he, _, hsort => by
    cases h with
    | atom h =>
      cases a with
      | lit b =>
        obtain ⟨u, hu, h⟩ := Check.bind_eq_ok.mp h
        cases hu
        obtain ⟨rfl, -⟩ := conclude_eq_ok h
        cases hsort
        exact .inl rfl
      | num n =>
        obtain ⟨_, _, hmode, -, -, rfl⟩ := elaborateAtom_num h
        cases hsort
        exact .inr hmode
      | _ => cases he
  | .mk _ (.var _), _, _, _, _, h, _, hctx, hsort => by
    cases h with
    | var h =>
      obtain ⟨_, _, _, -, -, hty, rfl⟩ := hctx.sort_of_assignVar h
      cases hsort
      exact .inl hty
  | .mk _ (.unary .not _), _, _, _, _, h, _, _, hsort => by
    cases h with
    | not =>
      cases hsort
      exact .inl rfl
  | .mk _ (.binary _ x _), _, _, _, _, h, he, hctx, hsort => by
    obtain ⟨hop, hx, -⟩ := Term.isScalar_binary.mp he
    cases h with
    | because _ _ h hty =>
      cases hsort
      obtain hscalar | hmode := h.isScalarType_sort hx hctx hty
      · exact .inl hscalar
      · cases hmode
    | logic | compare =>
      cases hsort
      exact .inl rfl
    | arith _ _ hint =>
      cases hsort
      exact .inl (Env.isScalarType_of_intType? hint)
    | becauseOf hmode | arithOf hmode =>
      cases hsort
      exact .inr hmode
    | _ => cases hop
termination_by structural e => e

/-- The type that is determined of a scalar term is scalar. -/
theorem Term.Accepts.isScalarType_of_assign {e : Written} {ctx : Context} {t ty : Checked}
    (h : Term.Accepts fuel env ctx .assign e t) (he : e.isScalar) (hctx : ctx.IsScalar env)
    (hsort : t.sort? = some ty) : env.isScalarType ty := by
  obtain hscalar | hmode := h.isScalarType_sort he hctx hsort
  · exact hscalar
  · cases hmode

/-- The sort of a scalar term that is checked against a scalar type is that type. -/
theorem Term.Accepts.form_of_check {e : Written} {ctx : Context} {t ty : Checked}
    (h : Term.Accepts fuel env ctx (.check ty) e t) (he : e.isScalar) (hctx : ctx.IsScalar env)
    (hty : env.isScalarType ty) : ∃ sort, t.sort? = some sort ∧ sort.form = ty.form := by
  obtain ⟨sort, hsort, rfl | hequiv⟩ := h.sort_of_check
  · exact ⟨_, hsort, rfl⟩
  · obtain hscalar | hmode := h.isScalarType_sort he hctx hsort
    · exact ⟨sort, hsort, Env.form_eq_of_equivalent hscalar hty hequiv⟩
    · cases hmode
      exact ⟨_, hsort, rfl⟩

/-- A scalar term is checked to a scalar term. -/
theorem Term.Accepts.isScalar : ∀ {e : Written} {ctx : Context} {mode : Mode} {t : Checked},
    Term.Accepts fuel env ctx mode e t → e.isScalar → t.isScalar
  | .mk _ (.atom _), _, _, .mk _ form, h, he => by
    cases h with
    | atom h =>
      obtain rfl : form = _ := form_of_elaborateAtom h
      exact he
  | .mk _ (.var _), _, _, .mk _ form, h, _ => by
    cases h with
    | var h =>
      obtain rfl : form = _ := form_of_assignVar h
      rfl
  | .mk _ (.unary .not x), _, _, _, h, he => by
    cases h with
    | not hx => exact hx.isScalar (Term.isScalar_unary.mp he).2
  | .mk _ (.binary op x y), _, _, t, h, he => by
    obtain ⟨hop, hx, hy⟩ := Term.isScalar_binary.mp he
    have ihx {ctx mode x'} (h : Term.Accepts fuel env ctx mode x x') : x'.isScalar :=
      h.isScalar hx
    have ihy {ctx mode y'} (h : Term.Accepts fuel env ctx mode y y') : y'.isScalar :=
      h.isScalar hy
    have ihpair {ctx x' y'} (h : AcceptsPair fuel env ctx x y x' y') :
        x'.isScalar ∧ y'.isScalar := by
      cases h with
      | leftFirst h₁ _ h₂ => exact ⟨ihx h₁, ihy h₂⟩
      | rightFirst h₁ _ h₂ => exact ⟨ihx h₂, ihy h₁⟩
    cases h with
    | because _ h₂ h₁ | becauseOf _ h₂ h₁ | logic h₁ h₂ | arithOf _ _ h₁ h₂ =>
      exact Term.isScalar_binary.mpr ⟨rfl, ihx h₁, ihy h₂⟩
    | compare h | arith h => exact Term.isScalar_binary.mpr ⟨rfl, ihpair h⟩
    | _ => cases hop
termination_by structural e => e

/-- Two operands that are checked together have one scalar type. -/
theorem AcceptsPair.sorts {ctx : Context} {x y : Written} {x' y' : Checked}
    (h : AcceptsPair fuel env ctx x y x' y') (hx : x.isScalar) (hy : y.isScalar)
    (hctx : ctx.IsScalar env) : ∃ tx ty, x'.sort? = some tx ∧ y'.sort? = some ty ∧
      ty.form = tx.form ∧ env.isScalarType tx := by
  cases h with
  | leftFirst h₁ hsort h₂ =>
    have hscalar := h₁.isScalarType_of_assign hx hctx hsort
    obtain ⟨ty, hty, hform⟩ := h₂.form_of_check hy hctx hscalar
    exact ⟨_, ty, hsort, hty, hform, hscalar⟩
  | rightFirst h₁ hsort h₂ =>
    have hscalar := h₁.isScalarType_of_assign hy hctx hsort
    obtain ⟨tx, htx, hform⟩ := h₂.form_of_check hx hctx hscalar
    exact ⟨tx, _, htx, hsort, hform.symm, env.isScalarType_congr hform ▸ hscalar⟩

/-! ## Progress -/

/-- A term divides by zero, or has a value of its sort if that is scalar. -/
def Term.Progresses (env : Env) (ρ : Valuation) (t : Checked) : Prop :=
  t.DividesByZero env ρ ∨
    ∃ w, t.Evaluates env ρ w ∧ ∀ ty, t.sort? = some ty → env.isScalarType ty → w.Fits env ty

/-- The valuation gives values of their types to the variables of a term. -/
def Context.Valued (env : Env) (ρ : Valuation) (ctx : Context) (e : Written) : Prop :=
  ∀ v, e.occursFree v → ∀ d qty ty, ctx.lookup? v = some d → d.meaning = .term qty ty →
    ∃ w, ρ v = some w ∧ w.Fits env ty

section
variable {ρ : Valuation} {ctx : Context} {note : Note .written Written} {x y : Written}

theorem Context.Valued.operand {op : Unary} (h : ctx.Valued env ρ (.mk note (.unary op x))) :
    ctx.Valued env ρ x :=
  fun v hv => h v (by simp [Term.occursFree, Form.occursFree, hv])

theorem Context.Valued.left {op : Binary} (h : ctx.Valued env ρ (.mk note (.binary op x y))) :
    ctx.Valued env ρ x :=
  fun v hv => h v (by simp [Term.occursFree, Form.occursFree, hv])

theorem Context.Valued.right {op : Binary} (h : ctx.Valued env ρ (.mk note (.binary op x y))) :
    ctx.Valued env ρ y :=
  fun v hv => h v (by simp [Term.occursFree, Form.occursFree, hv])

end

section
variable {ρ : Valuation} {x y ty : Checked}

theorem Term.Progresses.bool (h : x.Progresses env ρ) (hsort : x.sort? = some ty)
    (hty : ty.form = .atom .bool) : x.DividesByZero env ρ ∨ ∃ b, x.Evaluates env ρ (.bool b) := by
  obtain h | ⟨w, hw, hfits⟩ := h
  · exact .inl h
  · have hscalar : env.isScalarType ty := by rw [Env.isScalarType, hty]
    obtain ⟨b, rfl⟩ := (hfits ty hsort hscalar).bool hty
    exact .inr ⟨b, hw⟩

theorem Term.Progresses.int (h : x.Progresses env ρ) (hsort : x.sort? = some ty)
    (hty : (env.intType? ty).isSome) : x.DividesByZero env ρ ∨ ∃ n, x.Evaluates env ρ (.int n) := by
  obtain h | ⟨w, hw, hfits⟩ := h
  · exact .inl h
  · obtain ⟨n, rfl⟩ := (hfits ty hsort (Env.isScalarType_of_intType? hty)).int hty
    exact .inr ⟨n, hw⟩

/-- A term with a value of its sort progresses. -/
theorem Term.progresses_of_fits {w : Value} (hw : x.Evaluates env ρ w) (hsort : x.sort? = some ty)
    (hfits : w.Fits env ty) : x.Progresses env ρ := by
  refine .inr ⟨w, hw, fun ty' hty' _ => ?_⟩
  cases hsort.symm.trans hty'
  exact hfits

theorem Term.progresses_logic {op : BoolOp}
    (hx : x.DividesByZero env ρ ∨ ∃ b, x.Evaluates env ρ (.bool b))
    (hy : y.DividesByZero env ρ ∨ ∃ b, y.Evaluates env ρ (.bool b)) :
    (Checked.term Checked.bool (.binary (.logic op) x y)).Progresses env ρ := by
  obtain hx | ⟨a, ha⟩ := hx
  · exact .inl (.left hx)
  obtain hy | ⟨b, hb⟩ := hy
  · exact .inl (.right (by simp) hy)
  exact Term.progresses_of_fits (.logic ha hb (BoolOp.eval_eq_iff.mp rfl)) rfl rfl

/-- A comparison of terms of one scalar type has a value if they have. -/
theorem Term.progresses_compare {op : RelOp} {tx : Checked} (hx : x.Progresses env ρ)
    (hy : y.Progresses env ρ) (hsortx : x.sort? = some tx) (hsorty : y.sort? = some ty)
    (hform : ty.form = tx.form) (htx : env.isScalarType tx) :
    (Checked.term Checked.bool (.binary (.compare op) x y)).Progresses env ρ := by
  obtain hx | ⟨w, hw, hfits⟩ := hx
  · exact .inl (.left hx)
  obtain hy | ⟨w', hw', hfits'⟩ := hy
  · exact .inl (.right (by simp) hy)
  have hfitsx := hfits tx hsortx htx
  have hfitsy := Value.fits_congr hform
    (hfits' ty hsorty (env.isScalarType_congr hform ▸ htx))
  cases w with
  | bool a =>
    obtain ⟨b, rfl⟩ := hfitsy.bool hfitsx
    exact Term.progresses_of_fits (.compareBool hw hw' (RelOp.eval_compare_bool_eq_iff.mp rfl)) rfl
      rfl
  | int a =>
    obtain ⟨it, hit, -⟩ := hfitsx
    obtain ⟨b, rfl⟩ := hfitsy.int (by rw [hit]; rfl)
    exact Term.progresses_of_fits (.compareInt hw hw' (RelOp.eval_compare_int_eq_iff.mp rfl)) rfl
      rfl
  | _ => cases hfitsx

/-- Arithmetic on numbers has a value of its type, unless it divides by zero. -/
theorem Term.progresses_arith {op : ArithOp} (hty : (env.intType? ty).isSome)
    (hx : x.DividesByZero env ρ ∨ ∃ n, x.Evaluates env ρ (.int n))
    (hy : y.DividesByZero env ρ ∨ ∃ n, y.Evaluates env ρ (.int n)) :
    (Checked.term ty (.binary (.arith op) x y)).Progresses env ρ := by
  obtain ⟨it, hit⟩ := Option.isSome_iff_exists.mp hty
  obtain hx | ⟨a, ha⟩ := hx
  · exact .inl (.left hx)
  obtain hy | ⟨b, hb⟩ := hy
  · exact .inl (.right (by simp) hy)
  cases hn : op.eval? a b with
  | none =>
    obtain ⟨rfl, rfl⟩ := ArithOp.eval?_eq_none hn
    exact .inl (.here hb)
  | some n =>
    have hstored : it.Stores n (it.wrap n) := IntType.wrap_eq_iff.mp rfl
    exact Term.progresses_of_fits
      (.arith ha hb rfl hit (ArithOp.eval?_eq_some_iff.mp hn) hstored) rfl ⟨it, hit, hstored.1⟩

end

variable {ρ : Valuation}

theorem progresses_of_elaborateAtom {ctx : Context} {loc : Location} {mode : Mode} {a : Atom}
    {t : Checked} (ha : a.isScalar) (h : elaborateAtom fuel env ctx loc mode a = .ok t) :
    t.Progresses env ρ := by
  cases a with
  | lit b =>
    obtain ⟨u, hu, h⟩ := Check.bind_eq_ok.mp h
    cases hu
    obtain ⟨rfl, -⟩ := conclude_eq_ok h
    exact Term.progresses_of_fits .lit rfl rfl
  | num n =>
    obtain ⟨ty, it, -, hit, hcontains, rfl⟩ := elaborateAtom_num h
    exact Term.progresses_of_fits .num rfl ⟨it, hit, hcontains⟩
  | _ => cases ha

/-- A scalar term that is accepted divides by zero, or has a value of its type. -/
theorem Term.Accepts.progress : ∀ {e : Written} {ctx : Context} {mode : Mode} {t : Checked},
    Term.Accepts fuel env ctx mode e t → e.isScalar → ctx.IsScalar env → ctx.Valued env ρ e →
    t.Progresses env ρ
  | .mk _ (.atom _), _, _, _, h, he, _, _ => by
    cases h with
    | atom h => exact progresses_of_elaborateAtom he h
  | .mk _ (.var _), _, _, _, h, _, hctx, hρ => by
    cases h with
    | var h hconcludes =>
      obtain ⟨d, qty, ty, hv, hmeaning, hty, rfl⟩ := hctx.sort_of_assignVar h
      obtain ⟨w, hw, hfits⟩ :=
        hρ _ (by simp [Term.occursFree, Form.occursFree]) d qty ty hv hmeaning
      exact Term.progresses_of_fits (.var hw) rfl hfits
  | .mk _ (.unary .not x), _, _, _, h, he, hctx, hρ => by
    have hx := (Term.isScalar_unary.mp he).2
    cases h with
    | not h =>
      obtain ⟨ty, hsort, hty⟩ := h.form_of_check hx hctx rfl
      obtain hdiv | ⟨b, hb⟩ := (h.progress hx hctx hρ.operand).bool hsort hty
      · exact .inl (.operand hdiv)
      · exact Term.progresses_of_fits (.not hb) rfl rfl
  | .mk _ (.binary op x y), ctx, _, _, h, he, hctx, hρ => by
    obtain ⟨hop, hx, hy⟩ := Term.isScalar_binary.mp he
    have ihx {mode x'} (h : Term.Accepts fuel env ctx mode x x') : x'.Progresses env ρ :=
      h.progress hx hctx hρ.left
    have ihy {mode y'} (h : Term.Accepts fuel env ctx mode y y') : y'.Progresses env ρ :=
      h.progress hy hctx hρ.right
    have ihpair {x' y'} (h : AcceptsPair fuel env ctx x y x' y') :
        x'.Progresses env ρ ∧ y'.Progresses env ρ := by
      cases h with
      | leftFirst h₁ _ h₂ => exact ⟨ihx h₁, ihy h₂⟩
      | rightFirst h₁ _ h₂ => exact ⟨ihx h₂, ihy h₁⟩
    cases h with
    | because _ _ h hsort =>
      obtain hdiv | ⟨w, hw, hfits⟩ := h.progress hx hctx hρ.left
      · exact .inl (.left hdiv)
      · refine .inr ⟨w, .because hw, fun ty hty => ?_⟩
        cases hty
        exact hfits _ hsort
    | becauseOf hmode _ h =>
      obtain hdiv | ⟨w, hw, hfits⟩ := h.progress hx hctx hρ.left
      · exact .inl (.left hdiv)
      · refine .inr ⟨w, .because hw, fun ty hty hscalar => ?_⟩
        cases hty
        obtain ⟨ty', hsort, hform⟩ := h.form_of_check hx hctx hscalar
        exact Value.fits_congr hform (hfits ty' hsort (env.isScalarType_congr hform ▸ hscalar))
    | logic h₁ h₂ =>
      obtain ⟨tx, hsortx, htx⟩ := h₁.form_of_check hx hctx rfl
      obtain ⟨ty, hsorty, hty⟩ := h₂.form_of_check hy hctx rfl
      exact Term.progresses_logic ((ihx h₁).bool hsortx htx) ((ihy h₂).bool hsorty hty)
    | compare hpair =>
      obtain ⟨hx', hy'⟩ := ihpair hpair
      obtain ⟨tx, ty, hsortx, hsorty, hform, htx⟩ := hpair.sorts hx hy hctx
      exact Term.progresses_compare hx' hy' hsortx hsorty hform htx
    | arith hpair hsort hint =>
      obtain ⟨hx', hy'⟩ := ihpair hpair
      obtain ⟨tx, ty, hsortx, hsorty, hform, -⟩ := hpair.sorts hx hy hctx
      cases hsort.symm.trans hsortx
      have hinty : (env.intType? ty).isSome :=
        env.intType?_congr (congrArg Form.head hform) ▸ hint
      exact Term.progresses_arith hint (hx'.int hsortx hint) (hy'.int hsorty hinty)
    | arithOf _ hint h₁ h₂ =>
      have hscalar := Env.isScalarType_of_intType? hint
      obtain ⟨tx, hsortx, hformx⟩ := h₁.form_of_check hx hctx hscalar
      obtain ⟨ty, hsorty, hformy⟩ := h₂.form_of_check hy hctx hscalar
      have hintx : (env.intType? tx).isSome :=
        env.intType?_congr (congrArg Form.head hformx) ▸ hint
      have hinty : (env.intType? ty).isSome :=
        env.intType?_congr (congrArg Form.head hformy) ▸ hint
      exact Term.progresses_arith hint ((ihx h₁).int hsortx hintx) ((ihy h₂).int hsorty hinty)
    | _ => cases hop
termination_by structural e => e

/-! ## Literals for variables -/

/-- The value of a boolean or a number. -/
def Atom.value? : Atom → Option Value
  | .lit b => some (.bool b)
  | .num n => some (.int n)
  | _ => none

/-- The value of a literal. -/
def Term.value? : Checked → Option Value
  | .mk _ (.atom a) => a.value?
  | _ => none

/-- The valuation in which a variable has the value of the first literal chosen for it. -/
def Valuation.ofLiterals (choice : List (Var × Checked)) : Valuation :=
  fun v => (choice.find? (·.1 = v)).bind (·.2.value?)

/-- Put terms for variables, one after the other. -/
def Term.close (choice : List (Var × Checked)) (t : Checked) : Checked :=
  choice.foldl (fun t c => t.subst c.1 c.2) t

/-- A literal that was accepted for the type of a variable. -/
def Context.Chosen (env : Env) (ctx : Context) (v : Var) (l : Checked) : Prop :=
  ∃ fuel d qty ty loc a, ctx.lookup? v = some d ∧ d.meaning = .term qty ty ∧ a.isScalar ∧
    env.check fuel ctx (.mk (.place loc rfl) (.atom a)) ty = .ok l

theorem Term.value?_eq_some {l : Checked} {w : Value} (h : l.value? = some w) :
    ∃ note a, l = .mk note (.atom a) ∧ w.literal? = some a := by
  obtain ⟨note, form⟩ := l
  cases form with
  | atom a =>
    cases a with
    | lit | num =>
      cases h
      exact ⟨note, _, rfl, rfl⟩
    | _ => cases h
  | _ => cases h

theorem Term.evaluates_of_value? {l : Checked} {w : Value} (h : l.value? = some w)
    (ρ : Valuation) : l.Evaluates env ρ w := by
  obtain ⟨note, a, rfl, ha⟩ := Term.value?_eq_some h
  cases w with
  | bool b =>
    cases ha
    exact .lit
  | int n =>
    cases ha
    exact .num
  | _ => cases ha

theorem Term.isScalar_of_value? {l : Checked} {w : Value} (h : l.value? = some w) :
    l.isScalar := by
  obtain ⟨note, a, rfl, ha⟩ := Term.value?_eq_some h
  exact Value.isScalar_of_literal? ha

theorem Atom.exists_value?_of_isScalar {a : Atom} (h : a.isScalar) : ∃ w, a.value? = some w := by
  cases a with
  | lit | num => exact ⟨_, rfl⟩
  | _ => cases h

/-- A chosen literal has a value of the type of its variable. -/
theorem Context.Chosen.fits {ctx : Context} {v : Var} {l : Checked} (h : ctx.Chosen env v l)
    (hctx : ctx.IsScalar env) : ∃ w, l.value? = some w ∧ ∀ d qty ty, ctx.lookup? v = some d →
      d.meaning = .term qty ty → w.Fits env ty := by
  obtain ⟨fuel, d, qty, ty, loc, a, hv, hmeaning, ha, hl⟩ := h
  have haccepts := Term.accepts_of_elaborate _ hl
  obtain ⟨w, hw⟩ : ∃ w, l.value? = some w := by
    obtain ⟨lnote, form⟩ := l
    cases haccepts with
    | atom h =>
      obtain rfl : form = .atom a := form_of_elaborateAtom h
      exact Atom.exists_value?_of_isScalar ha
  refine ⟨w, hw, fun d' qty' ty' hv' hmeaning' => ?_⟩
  cases hv.symm.trans hv'
  cases hmeaning.symm.trans hmeaning'
  have hscalar : env.isScalarType ty := by
    obtain ⟨qty', ty', hmeaning', hty'⟩ := hctx v d hv
    cases hmeaning.symm.trans hmeaning'
    exact hty'
  obtain ⟨ty', hsort, hform⟩ := haccepts.form_of_check ha hctx hscalar
  have heval : l.Evaluates env .empty w := Term.evaluates_of_value? hw _
  have hvalued : ctx.Valued env .empty (.mk (.place loc rfl) (.atom a)) := by
    intro x hx
    cases hx
  obtain hdiv | ⟨w', hw', hfits⟩ := haccepts.progress ha hctx hvalued
  · exact absurd heval (hdiv.not_evaluates w)
  · cases heval.unique hw'
    exact Value.fits_congr hform (hfits ty' hsort (env.isScalarType_congr hform ▸ hscalar))

/-- A scalar term keeps its value when literals are put for the variables that have their values. -/
theorem Term.evaluates_close {choice : List (Var × Checked)} {t : Checked} {w : Value}
    (hchoice : ∀ c ∈ choice, ∃ w, c.2.value? = some w) (ht : t.isScalar)
    (h : t.Evaluates env (.ofLiterals choice) w) :
    (t.close choice).isScalar ∧ (t.close choice).Evaluates env .empty w := by
  induction choice generalizing t with
  | nil => exact ⟨ht, h⟩
  | cons c rest ih =>
    obtain ⟨v, l⟩ := c
    obtain ⟨wl, hl⟩ := hchoice (v, l) List.mem_cons_self
    have hsubst : (t.subst v l).Evaluates env (.ofLiterals rest) w := by
      refine Gives.subst h (Term.isFirstOrder_of_isScalar ht) (fun w hw => ?_) fun y w hne hw => ?_
      · have hw : l.value? = some w := by simpa [Valuation.ofLiterals] using hw
        exact Term.evaluates_of_value? hw _
      · simpa [Valuation.ofLiterals, hne.symm] using hw
    exact ih (fun c hc => hchoice c (List.mem_cons_of_mem _ hc))
      (Term.isScalar_subst (Term.isScalar_of_value? hl) ht) hsubst

/-- The variables that literals were chosen for have values of their types. -/
theorem Context.valued_of_chosen {ctx : Context} {e : Written} {choice : List (Var × Checked)}
    (hctx : ctx.IsScalar env) (hchoice : ∀ v l, (v, l) ∈ choice → ctx.Chosen env v l)
    (hcover : ∀ v, e.occursFree v → ∃ l, (v, l) ∈ choice) :
    ctx.Valued env (.ofLiterals choice) e := by
  intro v hv d qty ty hlookup hmeaning
  obtain ⟨l, hl⟩ := hcover v hv
  obtain ⟨⟨v', l'⟩, hfind⟩ : ∃ c, choice.find? (·.1 = v) = some c :=
    Option.isSome_iff_exists.mp (List.find?_isSome.mpr ⟨(v, l), hl, by simp⟩)
  obtain rfl : v' = v := by simpa using List.find?_some hfind
  obtain ⟨w, hw, hfits⟩ := (hchoice _ _ (List.mem_of_find?_eq_some hfind)).fits hctx
  exact ⟨w, by rw [Valuation.ofLiterals, hfind]; exact hw, hfits d qty ty hlookup hmeaning⟩

/-- Constant expressions are evaluated completely. An accepted expression over booleans and numbers
has a value, which is one of its type, unless it divides by zero; and if literals that were accepted
for the types of its variables are put for them, normalisation ends in the literal of this value. -/
theorem constant_expressions_normalize_to_their_value {ctx : Context} {mode : Mode} {e : Written}
    {t : Checked} {choice : List (Var × Checked)} (hctx : ctx.IsScalar env) (he : e.isScalar)
    (h : e.elaborate fuel env ctx mode = .ok t)
    (hchoice : ∀ v l, (v, l) ∈ choice → ctx.Chosen env v l)
    (hcover : ∀ v, e.occursFree v → ∃ l, (v, l) ∈ choice) :
    (¬t.DividesByZero env (.ofLiterals choice) ↔ ∃ w, t.Evaluates env (.ofLiterals choice) w) ∧
    ∀ w, t.Evaluates env (.ofLiterals choice) w →
      (∀ ty, t.sort? = some ty → env.isScalarType ty → w.Fits env ty) ∧
      ∃ note a n, w.literal? = some a ∧
        ∀ m, n ≤ m → env.normalize? m (t.close choice) = some (.mk note (.atom a)) := by
  have haccepts := Term.accepts_of_elaborate e h
  have hprogress := haccepts.progress he hctx (Context.valued_of_chosen hctx hchoice hcover)
  refine ⟨⟨fun hdefined => ?_, fun ⟨w, hw⟩ hdiv => hdiv.not_evaluates w hw⟩, fun w hw => ⟨?_, ?_⟩⟩
  · obtain ⟨w, hw, -⟩ := hprogress.resolve_left hdefined
    exact ⟨w, hw⟩
  · obtain hdiv | ⟨w', hw', hfits⟩ := hprogress
    · exact absurd hw (hdiv.not_evaluates w)
    · cases hw.unique hw'
      exact hfits
  · have hvalues : ∀ c ∈ choice, ∃ w, c.2.value? = some w := fun c hc =>
      have ⟨w, hw, _⟩ := (hchoice c.1 c.2 hc).fits hctx
      ⟨w, hw⟩
    obtain ⟨hscalar, hclosed⟩ := Term.evaluates_close hvalues (haccepts.isScalar he) hw
    obtain ⟨note, a, c, ha, hsettles⟩ := Term.settles_of_evaluates hscalar hclosed
    obtain ⟨n, hn⟩ := hsettles.normalize?
    exact ⟨note, a, n, ha, hn⟩

/-- Where `small` is an alias of the signed type of 8 bits, `x / (y because y != 0) == -128` is
accepted for variables of this type; with -128 for `x` and -1 for `y` it becomes `true`, since the
quotient 128 wraps around. -/
theorem least_number_divided_by_minus_one :
    let at0 (form : Form .written) : Written := .mk (.place {} rfl) form
    let x : Var := { name := "x" }
    let y : Var := { name := "y" }
    let num (n : Int) : Written := at0 (.atom (.num n))
    let small : Checked := Checked.type (.atom (.global { name := "small" }))
    let ctx : Context :=
      { inner := ⟨[(x, ⟨none, .term .many small⟩), (y, ⟨none, .term .many small⟩)], []⟩ }
    let nonzero := at0 (.binary .because (at0 (.var y))
      (at0 (.binary (.compare .neq) (at0 (.var y)) (num 0))))
    let e := at0 (.binary (.compare .eq) (at0 (.binary (.arith .div) (at0 (.var x)) nonzero))
      (num (-128)))
    let env := ((checkUnit 20 [⟨{}, "small", .integer ⟨.signed, .w8⟩⟩]).run.run {}).2
    ∃ t a b, e.elaborate 20 env ctx .assign = .ok t ∧
      env.check 20 ctx (num (-128)) small = .ok a ∧ env.check 20 ctx (num (-1)) small = .ok b ∧
      ∃ note n, ∀ m, n ≤ m →
        env.normalize? m (t.close [(x, a), (y, b)]) = some (.mk note (.atom (.lit true))) := by
  intro at0 x y num small ctx nonzero e env
  let lit (n : Int) : Checked := Checked.term small (.atom (.num n))
  let var (v : Var) : Checked := Checked.term small (.var v)
  let t : Checked := Checked.term Checked.bool (.binary (.compare .eq)
    (Checked.term small (.binary (.arith .div) (var x) (Checked.term small (.binary .because (var y)
      (Checked.term Checked.bool (.binary (.compare .neq) (var y) (lit 0)))))))
    (lit (-128)))
  have ht : e.elaborate 20 env ctx .assign = .ok t := rfl
  have ha : env.check 20 ctx (num (-128)) small = .ok (lit (-128)) := rfl
  have hb : env.check 20 ctx (num (-1)) small = .ok (lit (-1)) := rfl
  have hctx : ctx.IsScalar env := by
    intro v d hd
    have hsmall : d = ⟨none, .term .many small⟩ := by
      simp only [ctx, Context.lookup?, Context.declarations, Context.scopes, Scope.find?,
        List.filterMap_cons, List.filterMap_nil, List.find?_cons, List.find?_nil] at hd
      by_cases hx : x = v <;> by_cases hy : y = v <;> simp_all
    exact ⟨_, _, congrArg Declaration.meaning hsmall, rfl⟩
  have hchoice : ∀ v l, (v, l) ∈ [(x, lit (-128)), (y, lit (-1))] → ctx.Chosen env v l := by
    simp only [List.mem_cons, List.not_mem_nil, or_false, Prod.mk.injEq]
    rintro v l (⟨rfl, rfl⟩ | ⟨rfl, rfl⟩)
    · exact ⟨20, _, _, _, {}, .num (-128), rfl, rfl, rfl, ha⟩
    · exact ⟨20, _, _, _, {}, .num (-1), rfl, rfl, rfl, hb⟩
  have hcover : ∀ v, e.occursFree v → ∃ l, (v, l) ∈ [(x, lit (-128)), (y, lit (-1))] := by
    intro v hv
    have hxy : x = v ∨ y = v := by
      simpa [e, nonzero, num, at0, Term.occursFree, Form.occursFree, Note.occursFree] using hv
    obtain rfl | rfl := hxy
    · exact ⟨_, .head _⟩
    · exact ⟨_, .tail _ (.head _)⟩
  have heval : t.Evaluates env (.ofLiterals [(x, lit (-128)), (y, lit (-1))]) (.bool true) :=
    .compareInt (a := -128) (b := -128)
      (.arith (t := ⟨.signed, .w8⟩) (n := 128) (.var rfl) (.because (.var rfl)) rfl rfl
        ⟨0, by decide⟩ ⟨by decide, by decide⟩) .num (iff_of_true rfl rfl)
  obtain ⟨-, note, a, n, hlit, hn⟩ :=
    (constant_expressions_normalize_to_their_value hctx rfl ht hchoice hcover).2 _ heval
  cases hlit
  exact ⟨t, _, _, ht, ha, hb, note, n, hn⟩

end DependentCore
