import DependentCore.Proofs.Reduction.Rules
import DependentCore.Proofs.Semantics.Substitution

/-!
# Normal forms of scalar terms

A scalar term is built from variables, booleans and numbers by the operators on them and by
justifications. There is nothing to unfold in it, and each step at its root makes it smaller. So
normalisation ends, and it evaluates all that can be evaluated.

* `Term.isScalar`: whether a term is scalar,
* `Term.Settles`: normalisation ends in a term, with any fuel from some amount on,
* `Term.settles_of_isScalar`: a scalar term has a normal form,
* `Term.settles_of_evaluates`: that of a term without variables is the literal of its value, if it
  has one. A justification need not have a value, but it is normalised as well.
-/

namespace DependentCore

variable {p : Phase} {env : Env}

/-! ## Scalar terms -/

/-- Whether an atom is a boolean or a number. -/
def Atom.isScalar : Atom → Bool
  | .lit _ | .num _ => true
  | _ => false

/-- Whether an operation is one on booleans. -/
def Unary.isScalar : Unary → Bool
  | .not => true
  | _ => false

/-- Whether an operation is one on booleans and numbers, or a justification. -/
def Binary.isScalar : Binary → Bool
  | .because | .logic _ | .compare _ | .arith _ => true
  | _ => false

mutual

/-- Whether a term is built from variables, booleans and numbers by the operators on them and by
justifications. -/
def Term.isScalar : Term p → Bool
  | .mk _ form => form.isScalar

/-- Whether a form is one of a scalar term. -/
def Form.isScalar : Form p → Bool
  | .atom a => a.isScalar
  | .var _ => true
  | .unary op x => op.isScalar && x.isScalar
  | .binary op x y => op.isScalar && x.isScalar && y.isScalar
  | .app _ _ | .list _ | .bind _ _ => false

end

theorem Term.isScalar_unary {note : Note p (Term p)} {op : Unary} {x : Term p} :
    (Term.mk note (.unary op x)).isScalar ↔ op.isScalar ∧ x.isScalar :=
  Bool.and_eq_true_iff

theorem Term.isScalar_binary {note : Note p (Term p)} {op : Binary} {x y : Term p} :
    (Term.mk note (.binary op x y)).isScalar ↔ op.isScalar ∧ x.isScalar ∧ y.isScalar := by
  simp only [Term.isScalar, Form.isScalar, Bool.and_eq_true, and_assoc]

/-- A scalar term is first-order. -/
theorem Term.isFirstOrder_of_isScalar : ∀ {t : Term p}, t.isScalar → t.isFirstOrder
  | .mk _ (.atom a), h => by
    cases a with
    | lit | num => rfl
    | _ => cases h
  | .mk _ (.var _), _ => rfl
  | .mk _ (.unary _ x), h => by
    have hx : x.isFirstOrder := Term.isFirstOrder_of_isScalar (Term.isScalar_unary.mp h).2
    exact hx
  | .mk _ (.binary _ _ _), h => by
    obtain ⟨-, hx, hy⟩ := Term.isScalar_binary.mp h
    exact Bool.and_eq_true_iff.mpr
      ⟨Term.isFirstOrder_of_isScalar hx, Term.isFirstOrder_of_isScalar hy⟩

/-- A scalar term put for a variable keeps a term scalar. -/
theorem Term.isScalar_subst {x : Var} {r : Term p} (hr : r.isScalar) :
    ∀ {t : Term p}, t.isScalar → (t.subst x r).isScalar
  | .mk _ (.atom _), h => by
    rw [Term.subst_atom]
    exact h
  | .mk _ (.var v), h => by
    rw [Term.subst_var]
    split
    · exact hr
    · exact h
  | .mk _ (.unary _ _), h => by
    obtain ⟨hop, ha⟩ := Term.isScalar_unary.mp h
    rw [Term.subst_unary]
    exact Term.isScalar_unary.mpr ⟨hop, Term.isScalar_subst hr ha⟩
  | .mk _ (.binary _ _ _), h => by
    obtain ⟨hop, ha, hb⟩ := Term.isScalar_binary.mp h
    rw [Term.subst_binary]
    exact Term.isScalar_binary.mpr ⟨hop, Term.isScalar_subst hr ha, Term.isScalar_subst hr hb⟩

/-! ## Scalar terms shrink -/

/-- A scalar result of rewriting a term, which is smaller if it is reported to differ. -/
structure Term.Shrinks (t : Checked) (r : Rewritten Checked) : Prop where
  isScalar : r.result.isScalar
  size : if r.changed then r.result.size < t.size else r.result = t

theorem Term.Shrinks.refl {t : Checked} (h : t.isScalar) : t.Shrinks ⟨t, false⟩ :=
  ⟨h, rfl⟩

theorem Term.Shrinks.trans {t u v : Checked} {c d : Bool} (h : t.Shrinks ⟨u, c⟩)
    (h' : u.Shrinks ⟨v, d⟩) : t.Shrinks ⟨v, c || d⟩ := by
  refine ⟨h'.isScalar, ?_⟩
  have hu := h.size
  have hv := h'.size
  cases c <;> cases d <;> simp_all
  omega

/-- A step at the root of a scalar term gives a smaller one. -/
theorem Term.Steps.shrinks {t u : Checked} (h : Term.Steps env t u) (ht : t.isScalar) :
    t.Shrinks ⟨u, true⟩ := by
  cases h with
  | because =>
    refine ⟨(Term.isScalar_binary.mp ht).2.1, ?_⟩
    simp only [Term.size, Form.size, if_true]
    omega
  | not | logic =>
    refine ⟨rfl, ?_⟩
    simp only [Term.size, Form.size, if_true]
    omega
  | @compare _ _ x _ _ _ | @arith _ _ x _ _ _ =>
    have hpos := x.one_le_size
    refine ⟨rfl, ?_⟩
    simp only [Term.size, Form.size, if_true]
    omega
  | supply | ret | member | element | slice => cases ht

theorem Term.shrinks_reduce {t : Checked} (ht : t.isScalar) : t.Shrinks (t.reduce env) := by
  have hstep {u : Checked} {step : Option Checked} (hu : u.isScalar)
      (h : ∀ v, step = some v → Term.Steps env u v) : u.Shrinks (Rewritten.ofStep u step) := by
    cases step with
    | none => exact .refl hu
    | some v => exact (h v rfl).shrinks hu
  have hbeta := hstep ht fun u hu => Term.steps_of_beta? hu
  exact hbeta.trans (hstep hbeta.isScalar fun u hu => Term.steps_of_fold? hu)

theorem Term.unfolding?_of_isScalar {t : Checked} (h : t.isScalar) (stack : List GlobalName) :
    t.unfolding? env stack = none := by
  obtain ⟨note, form⟩ := t
  cases form with
  | app f args => cases h
  | _ => rfl

/-! ## Normalisation -/

/-- Normalisation of a term ends with a result if there is enough fuel. It takes no attempt to
unfold a definition, whatever definitions are being unfolded. -/
def Term.Settles (env : Env) (t : Checked) (r : Rewritten Checked) : Prop :=
  ∃ n, ∀ m, n ≤ m → ∀ stack, normalizeTerm env m stack t = pure r

/-- The result is the normal form. -/
theorem Term.Settles.normalize? {t : Checked} {r : Rewritten Checked} (h : t.Settles env r) :
    ∃ n, ∀ m, n ≤ m → env.normalize? m t = some r.result := by
  obtain ⟨n, hn⟩ := h
  refine ⟨n, fun m hm => ?_⟩
  rw [Env.normalize?, hn m hm]
  rfl

/-- An atom is its own normal form. -/
theorem normalizeTerm_atom (env : Env) (n : Nat) (stack : List GlobalName)
    (note : Note .checked Checked) (a : Atom) :
    normalizeTerm env (n + 2) stack (.mk note (.atom a)) = pure ⟨.mk note (.atom a), false⟩ :=
  rfl

theorem Term.settles_atom (note : Note .checked Checked) (a : Atom) :
    (Term.mk note (.atom a)).Settles env ⟨.mk note (.atom a), false⟩ := by
  refine ⟨2, fun m hm stack => ?_⟩
  obtain ⟨k, rfl⟩ : ∃ k, m = k + 2 := ⟨m - 2, by omega⟩
  exact normalizeTerm_atom env k stack note a

/-- Normalisation of the parts of a term ends with a result if there is enough fuel. -/
def Term.PartsSettle (env : Env) (t : Checked) (r : Rewritten Checked) : Prop :=
  ∃ n, ∀ m, n ≤ m → ∀ stack, normalizeParts env m stack t = pure r

theorem Term.unfoldCall_of_isScalar {t : Checked} (h : t.isScalar) (n : Nat)
    (stack : List GlobalName) : unfoldCall env (n + 1) stack t = pure ⟨t, false⟩ := by
  rw [unfoldCall, Term.unfolding?_of_isScalar h]
  rfl

/-- One round of the normalisation of a scalar term. -/
theorem normalizeTerm_of_parts {t t₁ : Checked} {c : Bool} {n : Nat} {stack : List GlobalName}
    (hparts : normalizeParts env (n + 1) stack t = pure ⟨t₁, c⟩) (ht₁ : t₁.isScalar) :
    normalizeTerm env (n + 2) stack t =
      if c || (t₁.reduce env).changed then do
        let again ← normalizeTerm env (n + 1) stack (t₁.reduce env).result
        return ⟨again.result, true⟩
      else
        return ⟨(t₁.reduce env).result, false⟩ := by
  have hcall : unfoldCall env (n + 1) stack (t₁.reduce env).result = _ :=
    Term.unfoldCall_of_isScalar (Term.shrinks_reduce ht₁).isScalar n stack
  simp only [Term.reduce] at hcall ⊢
  rw [normalizeTerm, hparts]
  simp only [pure_bind, hcall, Bool.or_false, Bool.or_assoc]
  rfl

/-- A scalar term settles in what its reduced form settles in. -/
theorem Term.Settles.of_parts {t t₁ u : Checked} {c d : Bool} (hparts : t.PartsSettle env ⟨t₁, c⟩)
    (ht₁ : t₁.isScalar) (hchanged : c || (t₁.reduce env).changed)
    (hagain : (t₁.reduce env).result.Settles env ⟨u, d⟩) : t.Settles env ⟨u, true⟩ := by
  obtain ⟨n, hn⟩ := hparts
  obtain ⟨n', hn'⟩ := hagain
  refine ⟨max n n' + 2, fun m hm stack => ?_⟩
  obtain ⟨k, rfl⟩ : ∃ k, m = k + 2 := ⟨m - 2, by omega⟩
  rw [normalizeTerm_of_parts (hn (k + 1) (by omega) stack) ht₁, if_pos hchanged,
    hn' (k + 1) (by omega) stack, pure_bind]

/-- A scalar term whose parts are normal settles if it does not reduce. -/
theorem Term.settles_of_unchanged {t : Checked} (hparts : t.PartsSettle env ⟨t, false⟩)
    (ht : t.isScalar) (hchanged : (t.reduce env).changed = false) : t.Settles env ⟨t, false⟩ := by
  obtain ⟨n, hn⟩ := hparts
  have hshrinks : t.Shrinks (t.reduce env) := Term.shrinks_reduce ht
  have hsame : (t.reduce env).result = t := by
    have hsize := hshrinks.size
    rwa [hchanged, if_neg Bool.false_ne_true] at hsize
  refine ⟨n + 2, fun m hm stack => ?_⟩
  obtain ⟨k, rfl⟩ : ∃ k, m = k + 2 := ⟨m - 2, by omega⟩
  rw [normalizeTerm_of_parts (hn (k + 1) (by omega) stack) ht, hchanged, hsame]
  rfl

theorem Term.partsSettle_unary {note : Note .checked Checked} {op : Unary} {x : Checked}
    {r : Rewritten Checked} (hx : x.Settles env r) :
    (Term.mk note (.unary op x)).PartsSettle env (r.map fun x => .mk note (.unary op x)) := by
  obtain ⟨n, hn⟩ := hx
  refine ⟨n + 1, fun m hm stack => ?_⟩
  obtain ⟨k, rfl⟩ : ∃ k, m = k + 1 := ⟨m - 1, by omega⟩
  rw [normalizeParts, hn k (by omega) stack, pure_bind]

theorem Term.partsSettle_binary {note : Note .checked Checked} {op : Binary} {x y : Checked}
    {r s : Rewritten Checked} (hx : x.Settles env r) (hy : y.Settles env s) :
    (Term.mk note (.binary op x y)).PartsSettle env
      (r.map₂ (fun x y => .mk note (.binary op x y)) s) := by
  obtain ⟨n, hn⟩ := hx
  obtain ⟨n', hn'⟩ := hy
  refine ⟨max n n' + 1, fun m hm stack => ?_⟩
  obtain ⟨k, rfl⟩ : ∃ k, m = k + 1 := ⟨m - 1, by omega⟩
  rw [normalizeParts, hn k (by omega) stack, pure_bind, hn' k (by omega) stack, pure_bind]

theorem Term.partsSettle_leaf {note : Note .checked Checked} {form : Form .checked}
    (h : (∃ a, form = .atom a) ∨ ∃ v, form = .var v) :
    (Term.mk note form).PartsSettle env ⟨.mk note form, false⟩ := by
  refine ⟨1, fun m hm stack => ?_⟩
  obtain ⟨k, rfl⟩ : ∃ k, m = k + 1 := ⟨m - 1, by omega⟩
  obtain ⟨a, rfl⟩ | ⟨v, rfl⟩ := h <;> rfl

/-- The parts of a scalar term settle in a scalar term if all smaller scalar terms settle. -/
theorem Term.partsSettle_of_isScalar {t : Checked} (ht : t.isScalar)
    (ih : ∀ x : Checked, x.size < t.size → x.isScalar → ∃ r, x.Settles env r ∧ x.Shrinks r) :
    ∃ r, t.PartsSettle env r ∧ t.Shrinks r := by
  obtain ⟨note, form⟩ := t
  cases form with
  | atom a => exact ⟨_, Term.partsSettle_leaf (.inl ⟨a, rfl⟩), .refl ht⟩
  | var v => exact ⟨_, Term.partsSettle_leaf (.inr ⟨v, rfl⟩), .refl ht⟩
  | unary op x =>
    obtain ⟨hop, hx⟩ := Term.isScalar_unary.mp ht
    obtain ⟨⟨x', c⟩, hsettles, hshrinks⟩ := ih x (by simp only [Term.size, Form.size]; omega) hx
    refine ⟨_, Term.partsSettle_unary hsettles, ?_, ?_⟩
    · exact Term.isScalar_unary.mpr ⟨hop, hshrinks.isScalar⟩
    have hsize := hshrinks.size
    cases c with
    | false => exact congrArg (fun x => Term.mk note (.unary op x)) hsize
    | true =>
      simp only [Rewritten.map, Term.size, Form.size, if_true] at hsize ⊢
      omega
  | binary op x y =>
    obtain ⟨hop, hx, hy⟩ := Term.isScalar_binary.mp ht
    obtain ⟨⟨x', c⟩, hsettles, hshrinks⟩ := ih x (by simp only [Term.size, Form.size]; omega) hx
    obtain ⟨⟨y', d⟩, hsettles', hshrinks'⟩ := ih y (by simp only [Term.size, Form.size]; omega) hy
    refine ⟨_, Term.partsSettle_binary hsettles hsettles',
      Term.isScalar_binary.mpr ⟨hop, hshrinks.isScalar, hshrinks'.isScalar⟩, ?_⟩
    have hsize := hshrinks.size
    have hsize' := hshrinks'.size
    cases c <;> cases d <;>
      simp_all only [Rewritten.map₂, Term.size, Form.size, Bool.or_self, Bool.or_false,
        Bool.or_true, if_true, if_false, Bool.false_eq_true]
    all_goals omega
  | app | list | bind => cases ht

/-- Normalisation of a scalar term ends. -/
theorem Term.settles_of_isScalar {t : Checked} (ht : t.isScalar) :
    ∃ r, t.Settles env r ∧ t.Shrinks r := by
  obtain ⟨⟨t₁, c⟩, hparts, hshrinks⟩ : ∃ r, t.PartsSettle env r ∧ t.Shrinks r :=
    Term.partsSettle_of_isScalar ht fun x _ hx => Term.settles_of_isScalar hx
  have hreduced : t.Shrinks ⟨(t₁.reduce env).result, c || (t₁.reduce env).changed⟩ :=
    hshrinks.trans (Term.shrinks_reduce hshrinks.isScalar)
  cases hchanged : c || (t₁.reduce env).changed with
  | true =>
    rw [hchanged] at hreduced
    have hsize : (t₁.reduce env).result.size < t.size := hreduced.size
    obtain ⟨⟨u, d⟩, hagain, hu⟩ := Term.settles_of_isScalar hreduced.isScalar
    exact ⟨⟨u, true⟩, .of_parts hparts hshrinks.isScalar hchanged hagain, hreduced.trans hu⟩
  | false =>
    obtain ⟨rfl, hroot⟩ := Bool.or_eq_false_iff.mp hchanged
    obtain rfl : t₁ = t := hshrinks.size
    exact ⟨_, Term.settles_of_unchanged hparts ht hroot, .refl ht⟩
termination_by t.size

/-! ## Evaluation -/

/-- The literal of a boolean or a number. -/
def Value.literal? : Value → Option Atom
  | .bool b => some (.lit b)
  | .int n => some (.num n)
  | .str _ | .list _ _ => none

theorem Value.isScalar_of_literal? {w : Value} {a : Atom} (h : w.literal? = some a) :
    a.isScalar := by
  cases w <;> cases h <;> rfl

/-- A term settles in the literal to which it reduces once its parts have settled. -/
theorem Term.settles_of_reduce {t t₁ : Checked} {c : Bool} {note : Note .checked Checked} {a : Atom}
    (hparts : t.PartsSettle env ⟨t₁, c⟩) (ht₁ : t₁.isScalar)
    (hreduce : t₁.reduce env = ⟨.mk note (.atom a), true⟩) :
    t.Settles env ⟨.mk note (.atom a), true⟩ := by
  have hagain : (t₁.reduce env).result.Settles env ⟨.mk note (.atom a), false⟩ := by
    rw [hreduce]
    exact Term.settles_atom note a
  exact .of_parts hparts ht₁ (by rw [hreduce, Bool.or_true]) hagain

/-- The normal form of a scalar term without variables is the literal of its value. -/
theorem Term.settles_of_evaluates {w : Value} : ∀ {t : Checked}, t.isScalar →
    t.Evaluates env .empty w →
    ∃ note a c, w.literal? = some a ∧ t.Settles env ⟨.mk note (.atom a), c⟩
  | .mk note (.atom (.lit b)), _, h => by
    cases h
    exact ⟨note, .lit b, false, rfl, Term.settles_atom note _⟩
  | .mk note (.atom (.num n)), _, h => by
    cases h
    exact ⟨note, .num n, false, rfl, Term.settles_atom note _⟩
  | .mk _ (.var _), _, h => by
    cases h with
    | var hv => cases hv
  | .mk note (.unary .not x), ht, h => by
    cases h with
    | not hx =>
      obtain ⟨xnote, a, c, ha, hsettles⟩ :=
        Term.settles_of_evaluates (Term.isScalar_unary.mp ht).2 hx
      cases ha
      exact ⟨note, _, true, rfl,
        Term.settles_of_reduce (Term.partsSettle_unary hsettles) rfl rfl⟩
  | .mk note (.binary op x y), ht, h => by
    obtain ⟨hop, hx, hy⟩ := Term.isScalar_binary.mp ht
    cases h with
    | subscript => cases hop
    -- the justification is normalised although it may have no value
    | because hw =>
      obtain ⟨xnote, a, c, ha, hsettles⟩ := Term.settles_of_evaluates hx hw
      obtain ⟨⟨y', d⟩, hsettles', hshrinks⟩ : ∃ r, y.Settles env r ∧ y.Shrinks r :=
        Term.settles_of_isScalar hy
      have hscalar : (Term.mk note (.binary .because ⟨xnote, .atom a⟩ y')).isScalar :=
        Term.isScalar_binary.mpr ⟨rfl, Value.isScalar_of_literal? ha, hshrinks.isScalar⟩
      exact ⟨xnote, a, true, ha,
        Term.settles_of_reduce (Term.partsSettle_binary hsettles hsettles') hscalar rfl⟩
    | logic ha hb hc =>
      obtain ⟨xnote, a, c, ha, hsettles⟩ := Term.settles_of_evaluates hx ha
      obtain ⟨ynote, b, d, hb, hsettles'⟩ := Term.settles_of_evaluates hy hb
      cases ha
      cases hb
      obtain rfl := BoolOp.eval_eq_iff.mpr hc
      exact ⟨note, _, true, rfl,
        Term.settles_of_reduce (Term.partsSettle_binary hsettles hsettles') rfl rfl⟩
    | compareInt ha hb hc =>
      obtain ⟨xnote, a, c, ha, hsettles⟩ := Term.settles_of_evaluates hx ha
      obtain ⟨ynote, b, d, hb, hsettles'⟩ := Term.settles_of_evaluates hy hb
      cases ha
      cases hb
      obtain rfl := RelOp.eval_compare_int_eq_iff.mpr hc
      exact ⟨note, _, true, rfl,
        Term.settles_of_reduce (Term.partsSettle_binary hsettles hsettles') rfl rfl⟩
    | compareBool ha hb hc =>
      obtain ⟨xnote, a, c, ha, hsettles⟩ := Term.settles_of_evaluates hx ha
      obtain ⟨ynote, b, d, hb, hsettles'⟩ := Term.settles_of_evaluates hy hb
      cases ha
      cases hb
      obtain rfl := RelOp.eval_compare_bool_eq_iff.mpr hc
      exact ⟨note, _, true, rfl,
        Term.settles_of_reduce (Term.partsSettle_binary hsettles hsettles') rfl rfl⟩
    | arith ha hb hty hint hn hm =>
      obtain ⟨xnote, a, c, ha, hsettles⟩ := Term.settles_of_evaluates hx ha
      obtain ⟨ynote, b, d, hb, hsettles'⟩ := Term.settles_of_evaluates hy hb
      cases ha
      cases hb
      obtain rfl := IntType.wrap_eq_iff.mpr hm
      refine ⟨note, _, true, rfl,
        Term.settles_of_reduce (Term.partsSettle_binary hsettles hsettles') rfl ?_⟩
      simp [Term.reduce, Term.beta?, Term.fold?, Term.form, arithResult?, Rewritten.ofStep, hty,
        hint, ArithOp.eval?_eq_some_iff.mpr hn]

end DependentCore
