import DependentCore.Proofs.Typing.Visibility

/-!
# Both directions of checking

A term that has a type passes against that type, and both ways give the same tree. For most forms
there is little to say: their type is determined first and then compared with the one that is asked
for. The other forms have a rule of their own for either direction.

* The type of an initializer list or of a numeral is never determined.
* Against a type, the term of a `because` is checked against it as well.
* Against an integer type, both operands of an arithmetic operation are checked against it. If no
  type is given, one operand gives the type and only the other one is checked.

The last rule may take the operands in either order, and the operand that gives the type may be an
operation itself, with the same choice.

* `Form.elaborate_of_isDetermined`: the rules that determine a type first,
* `conclude_sort`: a type with a normal form is equivalent to itself,
* `Term.elaborate_check_of_assign`: the two directions, with fuel that is enough for both,
* `check_agrees_with_assign`: the same for all amounts of fuel.
-/

namespace DependentCore

/-! ## Types that are determined first -/

/-- The type of a term of this form is determined in any mode, and then compared with the one that
is asked for. -/
def Form.isDetermined : Form .written → Bool
  | .atom _ | .list _ | .binary .because _ _ | .binary (.arith _) _ _ => false
  | _ => true

theorem conclude_assign_bind (fuel : Nat) (env : Env) (ctx : Context) (loc : Location)
    (mode : Mode) (t : Checked) :
    (conclude fuel env ctx loc .assign t >>= conclude fuel env ctx loc mode) =
      conclude fuel env ctx loc mode t :=
  rfl

theorem reject_bind {α β : Type} (cause : Cause) (loc : Location) (ctx : Context)
    (expected : Option Checked) (f : α → Check β) :
    (reject cause loc ctx expected >>= f) = reject cause loc ctx expected :=
  rfl

/-- The mode of such a form matters only for the comparison that comes last. -/
theorem Form.elaborate_of_isDetermined {form : Form .written} (h : form.isDetermined) (fuel : Nat)
    (env : Env) (ctx : Context) (loc : Location) (mode : Mode) :
    form.elaborate fuel env ctx loc mode =
      form.elaborate fuel env ctx loc .assign >>= conclude fuel env ctx loc mode := by
  cases form with
  | atom | list => cases h
  | var v => simp only [Form.elaborate, bind_assoc, conclude_assign_bind]
  | unary op x =>
    cases op with
    | trueT | scopeOf | not | member =>
      simp only [Form.elaborate, bind_assoc, conclude_assign_bind]
    | addressOf =>
      simp only [Form.elaborate]
      split
      · simp only [bind_assoc, conclude_assign_bind]
      · rw [reject_bind]
    | deref =>
      simp only [Form.elaborate, bind_assoc]
      congr 1; funext x'
      congr 1; funext ty
      split
      · rw [conclude_assign_bind]
      · rw [reject_bind]
  | binary op x y =>
    cases op with
    | because | arith => cases h
    | arrayT | refT | logic => simp only [Form.elaborate, bind_assoc, conclude_assign_bind]
    | subscript =>
      simp only [Form.elaborate, bind_assoc]
      congr 1; funext x'
      congr 1; funext ty
      split
      · simp only [bind_assoc, conclude_assign_bind]
      · split
        · split
          · rw [reject_bind]
          · simp only [bind_assoc]
            congr 1; funext i'
            split
            · rw [reject_bind]
            · rw [conclude_assign_bind]
        · rw [reject_bind]
      · rw [reject_bind]
    | compare op =>
      simp only [Form.elaborate, bind_assoc]
      congr 1; funext q
      congr 1; funext ty
      split
      · rw [reject_bind]
      · rw [conclude_assign_bind]
  | app f args =>
    simp only [Form.elaborate, bind_assoc]
    congr 1; funext f'
    split
    · rw [reject_bind]
    · split
      · rw [reject_bind]
      · split
        · rw [reject_bind]
        · simp only [bind_assoc, conclude_assign_bind]
  | bind k t =>
    cases k with
    | sigma | pi | abs => simp only [Form.elaborate, bind_assoc, conclude_assign_bind]

/-! ## Terms with a type -/

section

variable {fuel : Nat} {env : Env} {ctx : Context} {loc : Location} {t ty n : Checked}

theorem conclude_sort (hty : t.sort? = some ty) (hn : env.normalize? fuel ty = some n) :
    conclude fuel env ctx loc (.check ty) t = .ok t := by
  have hnormal : env.normal fuel ty = .ok n := Env.normal_eq_ok.mpr hn
  have hself : env.equivalent fuel ty ty = .ok true := by
    refine Check.bind_eq_ok.mpr ⟨n, hnormal, Check.bind_eq_ok.mpr ⟨n, hnormal, ?_⟩⟩
    exact congrArg Except.ok (Term.alphaEq_iff.mpr rfl)
  refine Check.bind_eq_ok.mpr ⟨ty, typeOf_eq_ok.mpr hty, ?_⟩
  exact Check.bind_eq_ok.mpr ⟨true, hself, rfl⟩

/-- An atom whose type is determined has it also when it is asked for. -/
theorem elaborateAtom_check_of_assign {a : Atom}
    (h : elaborateAtom fuel env ctx loc .assign a = .ok t) (hty : t.sort? = some ty)
    (hn : env.normalize? fuel ty = some n) :
    elaborateAtom fuel env ctx loc (.check ty) a = .ok t := by
  cases a with
  | num => cases h
  | _ =>
    obtain ⟨u, hu, h⟩ := Check.bind_eq_ok.mp h
    cases h
    exact Check.bind_eq_ok.mpr ⟨_, hu, conclude_sort hty hn⟩

/-- A term that needs a type is given the one that it is checked against. -/
theorem Term.sort?_of_needsType : ∀ {x : Written}, x.needsType →
    x.elaborate fuel env ctx (.check ty) = .ok t → t.sort? = some ty
  | .mk (.place _ _) (.atom (.num _)), _, h => by
    simp only [Term.elaborate, Form.elaborate, elaborateAtom, Mode.expected?, elaborateNumeral] at h
    split at h
    · cases h
    · split at h <;> cases h
      rfl
  | .mk (.place _ _) (.list _), _, h => by
    simp only [Term.elaborate, Form.elaborate, Mode.expected?] at h
    obtain ⟨xs, -, h⟩ := Check.bind_eq_ok.mp h
    cases h
    rfl
  | .mk (.place _ _) (.atom .auto), _, h => by cases h

/-- Both operands of a pair pass against the type of the first one, whichever of them gave the type.
If it was the second one, the first one needs a type and has the one it was given. -/
theorem elaboratePair_check {x y : Written} {goX goY : Mode → Check Checked} {x' y' : Checked}
    (h : elaboratePair ctx x y goX goY = .ok (x', y')) (hty : x'.sort? = some ty)
    (hneeds : ∀ {s}, x.needsType → goX (.check s) = .ok x' → x'.sort? = some s)
    (hx : goX .assign = .ok x' → goX (.check ty) = .ok x')
    (hy : goY .assign = .ok y' → y'.sort? = some ty → goY (.check ty) = .ok y') :
    goX (.check ty) = .ok x' ∧ goY (.check ty) = .ok y' := by
  unfold elaboratePair at h
  split at h
  · next hfirst =>
    obtain ⟨y'', hassign, h⟩ := Check.bind_eq_ok.mp h
    obtain ⟨s, hs, h⟩ := Check.bind_eq_ok.mp h
    obtain ⟨x'', hcheck, h⟩ := Check.bind_eq_ok.mp h
    cases h
    have hsort : x'.sort? = some s := hneeds (Bool.and_eq_true_iff.mp hfirst).1 hcheck
    obtain rfl : ty = s := Option.some.inj (hty.symm.trans hsort)
    exact ⟨hcheck, hy hassign (typeOf_eq_ok.mp hs)⟩
  · obtain ⟨x'', hassign, h⟩ := Check.bind_eq_ok.mp h
    obtain ⟨s, hs, h⟩ := Check.bind_eq_ok.mp h
    obtain ⟨y'', hcheck, h⟩ := Check.bind_eq_ok.mp h
    cases h
    obtain rfl : ty = s := Option.some.inj (hty.symm.trans (typeOf_eq_ok.mp hs))
    exact ⟨hx hassign, hcheck⟩

theorem Form.elaborate_check_of_isDetermined {form : Form .written} (hform : form.isDetermined)
    (h : form.elaborate fuel env ctx loc .assign = .ok t) (hty : t.sort? = some ty)
    (hn : env.normalize? fuel ty = some n) :
    form.elaborate fuel env ctx loc (.check ty) = .ok t := by
  rw [Form.elaborate_of_isDetermined hform, h]
  exact conclude_sort hty hn

end

section

variable {fuel : Nat} {env : Env}

mutual

/-- A term passes against the type that is determined for it. -/
theorem Term.elaborate_check_of_assign : ∀ (x : Written) {ctx : Context} {t ty n : Checked},
    x.elaborate fuel env ctx .assign = .ok t → t.sort? = some ty →
    env.normalize? fuel ty = some n → x.elaborate fuel env ctx (.check ty) = .ok t
  | .mk (.place _ _) form, _, _, _, _, h, hty, hn => form.elaborate_check_of_assign h hty hn

theorem Form.elaborate_check_of_assign : ∀ (form : Form .written) {ctx : Context} {loc : Location}
    {t ty n : Checked}, form.elaborate fuel env ctx loc .assign = .ok t → t.sort? = some ty →
    env.normalize? fuel ty = some n → form.elaborate fuel env ctx loc (.check ty) = .ok t
  | .atom _, _, _, _, _, _, h, hty, hn => elaborateAtom_check_of_assign h hty hn
  | .binary .because x _, _, _, _, _, _, h, hty, hn => by
    obtain ⟨reason, hreason, h⟩ := Check.bind_eq_ok.mp h
    obtain ⟨x', hx, h⟩ := Check.bind_eq_ok.mp h
    obtain ⟨s, hs, h⟩ := Check.bind_eq_ok.mp h
    cases h
    cases hty
    have hcheck := x.elaborate_check_of_assign hx (typeOf_eq_ok.mp hs) hn
    exact Check.bind_eq_ok.mpr ⟨reason, hreason, Check.bind_eq_ok.mpr ⟨x', hcheck, rfl⟩⟩
  | .binary (.arith _) x y, _, _, _, ty, _, h, hty, hn => by
    obtain ⟨⟨x', y'⟩, hpair, h⟩ := Check.bind_eq_ok.mp h
    obtain ⟨_, hs, h⟩ := Check.bind_eq_ok.mp h
    split at h
    · cases h
    · next hint =>
      cases h
      cases hty
      -- the type that was found is an integer type, so that both operands are checked against it
      have hsome : (env.intType? ty).isSome := by
        simpa only [Option.isSome_iff_ne_none, ne_eq, Option.isNone_iff_eq_none] using hint
      have hsort : x'.sort? = some ty := typeOf_eq_ok.mp hs
      obtain ⟨hx, hy⟩ := elaboratePair_check hpair hsort Term.sort?_of_needsType
        (fun hx => x.elaborate_check_of_assign hx hsort hn)
        (fun hy hsort' => y.elaborate_check_of_assign hy hsort' hn)
      simp only [Form.elaborate, Mode.expected?, Option.filter_some, hsome, if_true]
      exact Check.bind_eq_ok.mpr ⟨x', hx, Check.bind_eq_ok.mpr ⟨y', hy, rfl⟩⟩
  | .list _, _, _, _, _, _, h, _, _ => by cases h
  | .var _, _, _, _, _, _, h, hty, hn | .unary _ _, _, _, _, _, _, h, hty, hn
  | .binary .arrayT _ _, _, _, _, _, _, h, hty, hn | .binary .refT _ _, _, _, _, _, _, h, hty, hn
  | .binary .subscript _ _, _, _, _, _, _, h, hty, hn
  | .binary (.logic _) _ _, _, _, _, _, _, h, hty, hn
  | .binary (.compare _) _ _, _, _, _, _, _, h, hty, hn | .app _ _, _, _, _, _, _, h, hty, hn
  | .bind _ _, _, _, _, _, _, h, hty, hn => Form.elaborate_check_of_isDetermined rfl h hty hn

end

end

/-- Checking agrees with determining a type: if a term is checked to `t` of type `ty`, and `ty` has
a normal form, then checking the term against `ty` gives `t` as well, with any fuel that is enough
for both. -/
theorem check_agrees_with_assign {env : Env} {ctx : Context} {e : Written} {t ty n : Checked}
    {fuel₁ fuel₂ : Nat} (hassign : env.assign fuel₁ ctx e = .ok t) (hty : t.sort? = some ty)
    (hn : env.normalize? fuel₂ ty = some n) {fuel : Nat} (h₁ : fuel₁ ≤ fuel) (h₂ : fuel₂ ≤ fuel) :
    env.check fuel ctx e ty = .ok t := by
  have hassign : e.elaborate fuel env ctx .assign = .ok t := Term.elaborate_mono h₁ hassign
  exact e.elaborate_check_of_assign hassign hty (env.normalize?_mono h₂ hn)

/-- In `1 + ((2 * x) because x < 9)` the literals take their type from `x`, which stands deep inside
the right operand. -/
theorem check_agrees_with_assign_nested_numerals :
    let x : Var := { name := "x" }
    let u8 := Checked.type (.atom (.int ⟨.unsigned, .w8⟩))
    let written (form : Form .written) : Written := .mk (.place {} rfl) form
    let num (n : Int) := written (.atom (.num n))
    let product := written (.binary (.arith .times) (num 2) (written (.var x)))
    let small := written (.binary (.compare .lt) (written (.var x)) (num 9))
    let e := written (.binary (.arith .plus) (num 1) (written (.binary .because product small)))
    let ctx := Context.withDecl {} x ⟨none, .term .many u8⟩
    ∃ t, Env.assign {} 4 ctx e = .ok t ∧ t.sort? = some u8 ∧
      Env.check {} 8 ctx e u8 = .ok t := by
  intro x u8 written num product small e ctx
  have hassign : Env.assign {} 4 ctx e = .ok _ := rfl
  have hn : Env.normalize? {} 2 u8 = some u8 := rfl
  exact ⟨_, hassign, rfl, check_agrees_with_assign hassign rfl hn (by decide) (by decide)⟩

end DependentCore
