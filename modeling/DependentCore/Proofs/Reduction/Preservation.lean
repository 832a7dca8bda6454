import DependentCore.Proofs.Globals.Stored
import DependentCore.Proofs.Reduction.Meaning
import DependentCore.Proofs.Typing.Derivations
import DependentCore.Syntax.Equality

/-!
# Normalisation of accepted programs keeps values

The checker changes no operators, so what it makes of first-order code is first-order, and the
environment that a first-order unit is checked into holds first-order functions only. In such an
environment `Rewrites.sound` applies to every accepted first-order term.

* `Term.Accepts.isFirstOrder`, `AcceptsBody.isFirstOrder`: checking keeps code first-order,
* `functions_isFirstOrder_of_checkUnit`: the functions of a checked unit are first-order,
* `evaluates_normalize_of_checkUnit`: a term that a first-order unit accepts has the same value
  before and after normalisation, whatever the limits for unfolding are.
-/

namespace DependentCore

variable {fuel : Nat} {env : Env}

/-! ## Checking keeps code first-order -/

theorem Term.isFirstOrder_eq {p : Phase} (t : Term p) : t.isFirstOrder = t.form.isFirstOrder := by
  cases t
  rfl

mutual

/-- What a first-order term is checked to is first-order. -/
theorem Term.Accepts.isFirstOrder : ∀ {e : Written} {ctx : Context} {mode : Mode} {t : Checked},
    Term.Accepts fuel env ctx mode e t → e.isFirstOrder → t.isFirstOrder
  | .mk _ (.atom _), _, _, _, h, hfo => by
    cases h with
    | atom h =>
      rw [Term.isFirstOrder_eq, form_of_elaborateAtom h]
      exact hfo
  | .mk _ (.var _), _, _, _, h, _ => by
    cases h with
    | var h => rw [Term.isFirstOrder_eq, form_of_assignVar h]; rfl
  | .mk _ (.unary _ x), _, _, _, h, hfo => by
    have ih {ctx mode x'} (hx : Term.Accepts fuel env ctx mode x x') : x'.isFirstOrder :=
      hx.isFirstOrder hfo
    cases h with
    | trueT hx | deref hx | scopeOf hx | not hx | member hx | addressOf _ hx => exact (ih hx :)
  | .mk _ (.binary _ x y), _, _, _, h, hfo => by
    obtain ⟨hx, hy⟩ := Bool.and_eq_true_iff.mp hfo
    have ihx {ctx mode x'} (h : Term.Accepts fuel env ctx mode x x') : x'.isFirstOrder :=
      h.isFirstOrder hx
    have ihy {ctx mode y'} (h : Term.Accepts fuel env ctx mode y y') : y'.isFirstOrder :=
      h.isFirstOrder hy
    -- whichever operand is checked first, both are checked to first-order terms
    have ihpair {ctx x' y'} (h : AcceptsPair fuel env ctx x y x' y') :
        (x'.isFirstOrder && y'.isFirstOrder) = true := by
      cases h with
      | leftFirst h₁ _ h₂ => exact Bool.and_eq_true_iff.mpr ⟨ihx h₁, ihy h₂⟩
      | rightFirst h₁ _ h₂ => exact Bool.and_eq_true_iff.mpr ⟨ihx h₂, ihy h₁⟩
    cases h with
    | arrayT h₁ h₂ | refT h₁ h₂ | logic h₁ h₂ => exact Bool.and_eq_true_iff.mpr ⟨ihx h₁, ihy h₂⟩
    | element h₁ _ h₂ | arithOf _ _ h₁ h₂ => exact Bool.and_eq_true_iff.mpr ⟨ihx h₁, ihy h₂⟩
    | position h₁ _ _ _ h₂ => exact Bool.and_eq_true_iff.mpr ⟨ihx h₁, ihy h₂⟩
    | because _ h₂ h₁ | becauseOf _ h₂ h₁ => exact Bool.and_eq_true_iff.mpr ⟨ihx h₁, ihy h₂⟩
    | compare h | arith h => exact ihpair h
  | .mk _ (.app f args), _, _, _, h, hfo => by
    obtain ⟨hf, hargs⟩ := Bool.and_eq_true_iff.mp hfo
    cases h with
    | app h₁ _ _ _ h₂ =>
      exact Bool.and_eq_true_iff.mpr ⟨h₁.isFirstOrder hf, h₂.isFirstOrder hargs⟩
  | .mk _ (.list xs), _, _, _, h, hfo => by
    cases h with
    | array _ _ _ h => exact h.isFirstOrder hfo
    | struct _ _ _ h => exact h.isFirstOrder hfo
    | unit | proof => rfl
  | .mk _ (.bind _ _), _, _, _, h, hfo => by
    cases h with
    | sigma | pi => rfl
    | abs => cases hfo

theorem AcceptsElements.isFirstOrder : ∀ {xs : List Written} {ctx : Context} {ty : Checked}
    {xs' : List Checked}, AcceptsElements fuel env ctx ty xs xs' → isFirstOrderList xs →
      isFirstOrderList xs'
  | [], _, _, _, h, _ => by
    cases h
    rfl
  | x :: xs, _, _, _, h, hfo => by
    obtain ⟨hx, hxs⟩ := Bool.and_eq_true_iff.mp hfo
    cases h with
    | cons h₁ h₂ => exact Bool.and_eq_true_iff.mpr ⟨h₁.isFirstOrder hx, h₂.isFirstOrder hxs⟩

theorem AcceptsFields.isFirstOrder : ∀ {xs : List Written} {ctx : Context}
    {fs : Fields .checked} {xs' : List Checked}, AcceptsFields fuel env ctx xs fs xs' →
      isFirstOrderList xs → isFirstOrderList xs'
  | [], _, _, _, h, _ => by cases h <;> rfl
  | x :: xs, _, _, _, h, hfo => by
    obtain ⟨hx, hxs⟩ := Bool.and_eq_true_iff.mp hfo
    cases h with
    | fields => rfl
    | cons h₁ h₂ => exact Bool.and_eq_true_iff.mpr ⟨h₁.isFirstOrder hx, h₂.isFirstOrder hxs⟩

theorem AcceptsArgs.isFirstOrder : ∀ {xs : List Written} {ctx : Context}
    {s rest : Signature .checked} {xs' : List Checked}, AcceptsArgs fuel env ctx xs s xs' rest →
      isFirstOrderList xs → isFirstOrderList xs'
  | [], _, _, _, _, h, _ => by cases h <;> rfl
  | x :: xs, _, _, _, _, h, hfo => by
    obtain ⟨hx, hxs⟩ := Bool.and_eq_true_iff.mp hfo
    cases h with
    | returns => rfl
    | cons _ h₁ h₂ => exact Bool.and_eq_true_iff.mpr ⟨h₁.isFirstOrder hx, h₂.isFirstOrder hxs⟩
    | auto hauto =>
      -- an argument that is left out is not first-order
      unfold Term.isAuto at hauto
      split at hauto
      · cases hx
      · cases hauto

end

mutual

theorem Stmt.Accepts.isFirstOrder : ∀ {s : Stmt .written} {ctx : Context} {ret : Checked}
    {s' : Stmt .checked}, Stmt.Accepts fuel env ctx ret s s' → s.isFirstOrder → s'.isFirstOrder
  | .call _ _, _, _, _, h, hfo => by
    cases h with
    | call _ h => exact h.isFirstOrder hfo
  | .ifThen _ _ _, _, _, _, h, hfo => by
    obtain ⟨hcond, hyes⟩ := Bool.and_eq_true_iff.mp hfo
    cases h with
    | ifThen h₁ h₂ => exact Bool.and_eq_true_iff.mpr ⟨h₁.isFirstOrder hcond, h₂.isFirstOrder hyes⟩
  | .ifElse _ _ _ _, _, _, _, h, hfo => by
    obtain ⟨hfo, hno⟩ := Bool.and_eq_true_iff.mp hfo
    obtain ⟨hcond, hyes⟩ := Bool.and_eq_true_iff.mp hfo
    cases h with
    | ifElse h₁ h₂ h₃ =>
      exact Bool.and_eq_true_iff.mpr ⟨Bool.and_eq_true_iff.mpr
        ⟨h₁.isFirstOrder hcond, h₂.isFirstOrder hyes⟩, h₃.isFirstOrder hno⟩
  | .ret _ _, _, _, _, h, hfo => by
    cases h with
    | ret h => exact h.isFirstOrder hfo
  | .retUnit _, _, _, _, h, _ => by
    cases h
    rfl

/-- What a first-order body is checked to is first-order. -/
theorem AcceptsBody.isFirstOrder : ∀ {b : List (Stmt .written)} {ctx : Context} {ret : Checked}
    {b' : List (Stmt .checked)}, AcceptsBody fuel env ctx ret b b' → isFirstOrderBody b →
      isFirstOrderBody b'
  | [], _, _, _, h, _ => by
    cases h
    rfl
  | _ :: _, _, _, _, h, hfo => by
    obtain ⟨hs, hrest⟩ := Bool.and_eq_true_iff.mp hfo
    cases h with
    | cons h₁ h₂ => exact Bool.and_eq_true_iff.mpr ⟨h₁.isFirstOrder hs, h₂.isFirstOrder hrest⟩

end

theorem Tele.Accepts.isFirstOrder {k : Binder} : ∀ {f : Tele .written k} {ctx : Context}
    {f' : Tele .checked k}, Tele.Accepts fuel env ctx f f' → f.isFirstOrder → f'.isFirstOrder
  | .fields, _, _, h, _ => by
    cases h
    rfl
  | .returns _ _, _, _, h, _ => by
    cases h
    rfl
  | .runs _ _ _, _, _, h, hfo => by
    cases h with
    | runs _ h => exact h.isFirstOrder hfo
  | .arg _ _ _ _ _, _, _, h, hfo => by
    cases h with
    | arg _ _ h => exact h.isFirstOrder hfo

/-! ## The functions of a unit -/

/-- Checking establishes that items are first-order. -/
theorem establishes_isFirstOrder (fuel : Nat) :
    Establishes fuel (fun item => item.isFirstOrder) fun item => item.isFirstOrder := by
  intro env loc item item' _ hfo h
  cases item with
  | integer t =>
    cases h
    rfl
  | struct fs | declared s | external s =>
    obtain ⟨_, _, h⟩ := Check.bind_eq_ok.mp h
    cases h
    rfl
  | defined f =>
    obtain ⟨f', hf', h⟩ := Check.bind_eq_ok.mp h
    cases h
    exact (Tele.accepts_of_elaborate f hf').isFirstOrder hfo

/-- The functions of the environment that a first-order unit is checked into are first-order, also
if the unit is rejected. -/
theorem functions_isFirstOrder_of_checkUnit {entries : List (Entry .written)}
    (hfo : ∀ e ∈ entries, e.item.isFirstOrder) {start : Env} (hstart : start.modules = {})
    {outcome : Except Failure (List (Entry .checked))}
    (hunit : (checkUnit fuel entries).run.run start = (outcome, env)) {g : GlobalName}
    {f : Function .checked} (hf : env.function? g = some f) : f.isFirstOrder := by
  have hkeeps := checkUnit_keeps (establishes_isFirstOrder fuel) (fun _ _ => rfl) hfo
  have hall := (hkeeps start (Env.all_of_modules_eq_empty hstart)).1
  rw [hunit] at hall
  exact hall.of_function? hf

/-! ## Preservation -/

/-- Normalisation keeps the values of first-order programs. Let a first-order unit be checked from
the empty environment, and a first-order term be accepted there, in any context and mode. If the
term has a value where variables have any given values, then its normal form, under any limits for
unfolding, has that value and no other. -/
theorem evaluates_normalize_of_checkUnit {entries : List (Entry .written)}
    (hentries : ∀ e ∈ entries, e.item.isFirstOrder) {start : Env} (hstart : start.modules = {})
    {outcome : Except Failure (List (Entry .checked))}
    (hunit : (checkUnit fuel entries).run.run start = (outcome, env))
    {e : Written} (he : e.isFirstOrder) {ctx : Context} {mode : Mode} {t : Checked}
    (hcheck : e.elaborate fuel env ctx mode = .ok t)
    {limits : Env} (hlimits : limits.modules = env.modules) {ρ : Valuation} {v : Value}
    (hv : t.Evaluates limits ρ v) {n : Nat} {u : Checked} (hu : limits.normalize? n t = some u) :
    u.Evaluates limits ρ v ∧ ∀ w, u.Evaluates limits ρ w → w = v := by
  have hfunctions : ∀ g f, limits.function? g = some f → f.isFirstOrder := by
    intro g f hf
    have hf' : env.function? g = some f := by
      rw [← hf, Env.function?, Env.function?, Env.get?, Env.get?, hlimits]
    exact functions_isFirstOrder_of_checkUnit hentries hstart hunit hf'
  have ht : t.isFirstOrder := (Term.accepts_of_elaborate e hcheck).isFirstOrder he
  obtain ⟨c, hrewrites⟩ := Env.rewrites_of_normalize? hu
  have hsound : t.Sound limits u := hrewrites.sound hfunctions
  have huv : u.Evaluates limits ρ v := hsound.value (.inl ht) ρ _ hv
  refine ⟨huv, fun w hw => ?_⟩
  cases huv.unique hw
  rfl

/-- The unit of one function: `u8 shift(u8 n) { if (n == 0) { return 7; } return n + 100; }`. -/
def shiftUnit : List (Entry .written) :=
  let at0 (form : Form .written) : Written := .mk (.place {} rfl) form
  let u8 := at0 (.atom (.int ⟨.unsigned, .w8⟩))
  let n : Var := { name := "n" }
  let num (k : Int) := at0 (.atom (.num k))
  [⟨{}, "shift", .defined (.arg {} .many u8 (some n) (.runs .no u8
    [.ifThen {} (at0 (.binary (.compare .eq) (at0 (.var n)) (num 0))) [.ret {} (num 7)],
      .ret {} (at0 (.binary (.arith .plus) (at0 (.var n)) (num 100)))]))⟩]

/-- The term `shift(200) + x` has the value 45 where `x` is 1, since `shift(200)` wraps to 44; and
so has its normal form. -/
theorem shift_evaluates_normalize :
    let at0 (form : Form .written) : Written := .mk (.place {} rfl) form
    let x : Var := { name := "x" }
    let u8 : Checked := Checked.type (.atom (.int ⟨.unsigned, .w8⟩))
    let ctx : Context := { inner := ⟨[(x, ⟨none, .term .many u8⟩)], []⟩ }
    let e := at0 (.binary (.arith .plus)
      (at0 (.app (at0 (.atom (.global { name := "shift" }))) [at0 (.atom (.num 200))]))
      (at0 (.var x)))
    let ρ : Valuation := fun v => if v = x then some (.int 1) else none
    ∃ outcome env t u, (checkUnit 20 shiftUnit).run.run {} = (outcome, env) ∧
      e.elaborate 20 env ctx .assign = .ok t ∧ t.Evaluates env ρ (.int 45) ∧
      env.normalize? 20 t = some u ∧ u.Evaluates env ρ (.int 45) := by
  intro at0 x u8 ctx e ρ
  let n : Var := { name := "n" }
  let env := ((checkUnit 20 shiftUnit).run.run {}).2
  let sig : Signature .checked := .arg () .many u8 (some n) (.returns .no u8)
  let num (k : Int) : Checked := Checked.term u8 (.atom (.num k))
  let t : Checked := Checked.term u8 (.binary (.arith .plus)
    (Checked.term u8 (.app (Checked.term (Checked.pi sig) (.atom (.global { name := "shift" })))
      [num 200])) (Checked.term u8 (.var x)))
  let u : Checked := Checked.term u8 (.binary (.arith .plus) (num 44) (Checked.term u8 (.var x)))
  have ht : e.elaborate 20 env ctx .assign = .ok t := by decide +kernel +zetaReduce
  have hu : env.normalize? 20 t = some u := by decide +kernel +zetaReduce
  have hbody : Gives env (Valuation.empty.bind (some n) (.int 200)) (.body
      [.ifThen () (Checked.term Checked.bool (.binary (.compare .eq) (Checked.term u8 (.var n))
        (num 0))) [.ret () (num 7)],
        .ret () (Checked.term u8 (.binary (.arith .plus) (Checked.term u8 (.var n)) (num 100)))])
      (.ending (some (.int 44))) :=
    .next (.skip (.compareInt (a := 200) (b := 0) (.var rfl) .num (by simp [RelOp.Holds])))
      (.stop (.ret (.arith (a := 200) (t := ⟨.unsigned, .w8⟩) (n := 300) (.var rfl) .num rfl rfl rfl
        ⟨by decide, by decide⟩)))
  have hv : t.Evaluates env ρ (.int 45) :=
    .arith (t := ⟨.unsigned, .w8⟩) (n := 45)
      (.app (.cons .num .nil) (.global rfl rfl hbody)) (.var rfl) rfl rfl rfl
      ⟨by decide, by decide⟩
  refine ⟨_, env, t, u, rfl, ht, hv, hu, ?_⟩
  exact (evaluates_normalize_of_checkUnit (by decide) rfl rfl (by decide) ht rfl hv hu).1

end DependentCore
