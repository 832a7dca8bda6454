import DependentCore.Binding.Index
import DependentCore.Proofs.Semantics.Operators

/-!
# Evaluation

A call-by-value semantics of checked terms. A value is a boolean, a number, a text, or a list of
values. Evaluation has no result where the language leaves it undefined: at a division by zero, a
subscript out of range, a variable without a value, or an `impossible`.

* `Value`, `Valuation`: values, and the values of variables,
* `Code`, `Result`: what is evaluated (a term, a list of terms, a function at given arguments, a
  statement or a body), and what comes out of it,
* `Gives`: the evaluation relation. Statements end with a value that they return, or with none if
  control goes on behind them,
* `Gives.unique`: evaluation has at most one result,
* `Gives.within`: only variables that occur in the code contribute to the result.

A justification is not evaluated. The body of a global is closed, so it is run with the values of
its arguments alone; that of an applied abstraction may also use the variables around it.
-/

namespace DependentCore

/-- A value. The elements of a list have the names of the fields of its type; an array has none. -/
inductive Value where
  | bool (b : Bool)
  | int (n : Int)
  | str (s : String)
  | list (names : List (Option String)) (elems : List Value)

/-- The value of a function that returns nothing. -/
def Value.unit : Value :=
  .list [] []

/-! ## Valuations -/

/-- The values of variables. -/
abbrev Valuation := Var → Option Value

namespace Valuation

/-- The valuation without variables. -/
def empty : Valuation :=
  fun _ => none

/-- The valuation in which a variable, if there is one, has the given value. -/
def bind (ρ : Valuation) (v : Option Var) (w : Value) : Valuation :=
  fun y => if v = some y then some w else ρ y

/-- What a variable of index at most `K` has as its value in `ρ`, its image under `f` has in `σ`. -/
def Along (f : Var → Var) (K : Nat) (ρ σ : Valuation) : Prop :=
  ∀ y w, y.index ≤ K → ρ y = some w → σ (f y) = some w

/-- Variables of index at most `K` that have a value in `ρ` have it in `σ`. -/
abbrev Within : Nat → Valuation → Valuation → Prop :=
  Along id

theorem within_empty (K : Nat) (σ : Valuation) : Within K empty σ :=
  nofun

theorem Along.mono {f : Var → Var} {K L : Nat} {ρ σ : Valuation} (h : Along f K ρ σ)
    (hle : L ≤ K) : Along f L ρ σ :=
  fun y w hy => h y w (Nat.le_trans hy hle)

theorem Along.left {f : Var → Var} {K L : Nat} {ρ σ : Valuation} (h : Along f (max K L) ρ σ) :
    Along f K ρ σ :=
  h.mono (Nat.le_max_left _ _)

theorem Along.right {f : Var → Var} {K L : Nat} {ρ σ : Valuation} (h : Along f (max K L) ρ σ) :
    Along f L ρ σ :=
  h.mono (Nat.le_max_right _ _)

/-- A variable may be given a value on both sides if no other one is taken to its image. -/
theorem Along.bind {f : Var → Var} {K : Nat} {ρ σ : Valuation} (h : Along f K ρ σ)
    {v : Option Var} (w : Value) (hv : ∀ y, y.index ≤ K → (v = some (f y) ↔ v = some y)) :
    Along f K (ρ.bind v w) (σ.bind v w) := by
  intro y u hy hu
  unfold Valuation.bind at hu ⊢
  by_cases hvy : v = some y
  · rw [if_pos hvy] at hu
    rwa [if_pos ((hv y hy).mpr hvy)]
  · rw [if_neg hvy] at hu
    rw [if_neg (mt (hv y hy).mp hvy)]
    exact h y u hy hu

theorem Within.bind {K : Nat} {ρ σ : Valuation} (h : Within K ρ σ) (v : Option Var) (w : Value) :
    Within K (ρ.bind v w) (σ.bind v w) :=
  Along.bind h w fun _ _ => Iff.rfl

/-- A variable of a larger index may have any value. -/
theorem within_bind_of_lt {K : Nat} (ρ : Valuation) {v : Var} (hv : K < v.index) (w : Value) :
    Within K ρ (ρ.bind (some v) w) := by
  intro y u hy hu
  have hne : some v ≠ some y := by
    rintro ⟨⟩
    omega
  rw [Valuation.bind, id, if_neg hne]
  exact hu

end Valuation

/-! ## Functions and types -/

/-- The valuation and the body that a function runs in, from the values of its arguments. -/
def Tele.enter? {k : Binder} (ρ : Valuation) :
    Tele .checked k → List Value → Option (Valuation × Body .checked)
  | .runs _ _ body, [] => some (ρ, body)
  | .arg _ _ _ v rest, w :: ws => rest.enter? (ρ.bind v w) ws
  | _, _ => none

/-- The names of the arguments of a telescope. -/
def Tele.names {p : Phase} {k : Binder} (t : Tele p k) : List (Option String) :=
  t.args.map fun a => a.var.map (·.name)

/-- The names of the elements of a list of a type. -/
def Env.layout? (env : Env) (ty : Checked) : Option (List (Option String)) :=
  match ty.form with
  | .binary .arrayT _ _ | .atom .unit | .unary .trueT _ => some []
  | _ => (env.fields? ty).map Tele.names

/-! ## Semantics -/

/-- What is evaluated. -/
inductive Code where
  | term (t : Checked)
  | list (ts : List Checked)
  /-- A function at given arguments. -/
  | call (f : Checked) (args : List Value)
  | stmt (s : Stmt .checked)
  | body (b : Body .checked)

/-- What evaluation gives. -/
inductive Result where
  | value (w : Value)
  | values (ws : List Value)
  /-- The value that statements return, or none if control goes on behind them. -/
  | ending (o : Option Value)

/-- `Gives env ρ c r` says that the code `c` evaluates to `r` where variables have the values
given. -/
inductive Gives (env : Env) : Valuation → Code → Result → Prop where
  | lit {ρ note b} : Gives env ρ (.term (.mk note (.atom (.lit b)))) (.value (.bool b))
  | num {ρ note n} : Gives env ρ (.term (.mk note (.atom (.num n)))) (.value (.int n))
  | str {ρ note s} : Gives env ρ (.term (.mk note (.atom (.str s)))) (.value (.str s))
  | var {ρ note v w} : ρ v = some w → Gives env ρ (.term (.mk note (.var v))) (.value w)
  | not {ρ note x b} : Gives env ρ (.term x) (.value (.bool b)) →
    Gives env ρ (.term (.mk note (.unary .not x))) (.value (.bool !b))
  | member {ρ note field x names ws i w} : Gives env ρ (.term x) (.value (.list names ws)) →
    names.findIdx? (· = some field) = some i → ws[i]? = some w →
    Gives env ρ (.term (.mk note (.unary (.member field) x))) (.value w)
  | subscript {ρ note x y names ws n w} {i : Nat} : Gives env ρ (.term x) (.value (.list names ws)) →
    Gives env ρ (.term y) (.value (.int n)) → n = i ∧ IntType.u64.contains n → ws[i]? = some w →
    Gives env ρ (.term (.mk note (.binary .subscript x y))) (.value w)
  | because {ρ note x reason w} : Gives env ρ (.term x) (.value w) →
    Gives env ρ (.term (.mk note (.binary .because x reason))) (.value w)
  | logic {ρ note op x y a b} {c : Bool} : Gives env ρ (.term x) (.value (.bool a)) →
    Gives env ρ (.term y) (.value (.bool b)) → (c ↔ op.Holds a b) →
    Gives env ρ (.term (.mk note (.binary (.logic op) x y))) (.value (.bool c))
  | compareInt {ρ note op x y a b} {c : Bool} : Gives env ρ (.term x) (.value (.int a)) →
    Gives env ρ (.term y) (.value (.int b)) → (c ↔ op.Holds a b) →
    Gives env ρ (.term (.mk note (.binary (.compare op) x y))) (.value (.bool c))
  | compareBool {ρ note op x y a b} {c : Bool} : Gives env ρ (.term x) (.value (.bool a)) →
    Gives env ρ (.term y) (.value (.bool b)) → (c ↔ op.Holds a b) →
    Gives env ρ (.term (.mk note (.binary (.compare op) x y))) (.value (.bool c))
  | arith {ρ note op x y a b ty t n m} : Gives env ρ (.term x) (.value (.int a)) →
    Gives env ρ (.term y) (.value (.int b)) → note.sort? = some ty → env.intType? ty = some t →
    op.Yields a b n → t.Stores n m →
    Gives env ρ (.term (.mk note (.binary (.arith op) x y))) (.value (.int m))
  | listOf {ρ note xs ws ty names} : note.sort? = some ty → env.layout? ty = some names →
    Gives env ρ (.list xs) (.values ws) →
    Gives env ρ (.term (.mk note (.list xs))) (.value (.list names ws))
  | app {ρ note f args ws w} : Gives env ρ (.list args) (.values ws) →
    Gives env ρ (.call f ws) (.value w) → Gives env ρ (.term (.mk note (.app f args))) (.value w)
  | nil {ρ} : Gives env ρ (.list []) (.values [])
  | cons {ρ x xs w ws} : Gives env ρ (.term x) (.value w) → Gives env ρ (.list xs) (.values ws) →
    Gives env ρ (.list (x :: xs)) (.values (w :: ws))
  | global {ρ note g f ws ρ' b o} : env.function? g = some f →
    f.enter? .empty ws = some (ρ', b) → Gives env ρ' (.body b) (.ending o) →
    Gives env ρ (.call (.mk note (.atom (.global g))) ws) (.value (o.getD .unit))
  | abs {ρ note f ws ρ' b o} : f.enter? ρ ws = some (ρ', b) →
    Gives env ρ' (.body b) (.ending o) →
    Gives env ρ (.call (.mk note (.bind .abs f)) ws) (.value (o.getD .unit))
  | stmtCall {ρ mark x w} : Gives env ρ (.term x) (.value w) →
    Gives env ρ (.stmt (.call mark x)) (.ending none)
  | ifThen {ρ mark cond yes o} : Gives env ρ (.term cond) (.value (.bool true)) →
    Gives env ρ (.body yes) (.ending o) → Gives env ρ (.stmt (.ifThen mark cond yes)) (.ending o)
  | skip {ρ mark cond yes} : Gives env ρ (.term cond) (.value (.bool false)) →
    Gives env ρ (.stmt (.ifThen mark cond yes)) (.ending none)
  | ifElse {ρ mark cond yes no o} (b : Bool) : Gives env ρ (.term cond) (.value (.bool b)) →
    Gives env ρ (.body (if b then yes else no)) (.ending o) →
    Gives env ρ (.stmt (.ifElse mark cond yes no)) (.ending o)
  | ret {ρ mark x w} : Gives env ρ (.term x) (.value w) →
    Gives env ρ (.stmt (.ret mark x)) (.ending (some w))
  | retUnit {ρ mark} : Gives env ρ (.stmt (.retUnit mark)) (.ending (some .unit))
  | bodyNil {ρ} : Gives env ρ (.body []) (.ending none)
  | stop {ρ s rest w} : Gives env ρ (.stmt s) (.ending (some w)) →
    Gives env ρ (.body (s :: rest)) (.ending (some w))
  | next {ρ s rest o} : Gives env ρ (.stmt s) (.ending none) →
    Gives env ρ (.body rest) (.ending o) → Gives env ρ (.body (s :: rest)) (.ending o)

/-- A term evaluates to a value. -/
abbrev Term.Evaluates (env : Env) (ρ : Valuation) (t : Checked) (w : Value) : Prop :=
  Gives env ρ (.term t) (.value w)

/-! ## Results are unique -/

/-- Evaluation has at most one result. -/
theorem Gives.unique {env : Env} {ρ : Valuation} {c : Code} {r : Result} (h : Gives env ρ c r) :
    ∀ {r' : Result}, Gives env ρ c r' → r = r' := by
  induction h with
  | lit | num | str | nil | retUnit | bodyNil =>
    rintro _ ⟨⟩
    rfl
  | var hv =>
    intro r' h'
    cases h' with
    | var hv' => rw [Option.some.inj (hv.symm.trans hv')]
  | not _ ih =>
    intro r' h'
    cases h' with
    | not hx => cases ih hx; rfl
  | member _ hi hw ih =>
    intro r' h'
    cases h' with
    | member hx hi' hw' =>
      cases ih hx
      cases hi.symm.trans hi'
      rw [Option.some.inj (hw.symm.trans hw')]
  | subscript _ _ hi hw ihx ihy =>
    intro r' h'
    cases h' with
    | subscript hx hy hi' hw' =>
      cases ihx hx
      cases ihy hy
      cases Int.ofNat_inj.mp (hi.1.symm.trans hi'.1)
      rw [Option.some.inj (hw.symm.trans hw')]
  | because _ ih =>
    intro r' h'
    cases h' with
    | because hx => exact ih hx
  | logic _ _ hc ihx ihy =>
    intro r' h'
    cases h' with
    | logic hx hy hc' =>
      cases ihx hx
      cases ihy hy
      rw [Bool.eq_iff_iff.mpr (hc.trans hc'.symm)]
  -- two rules share the operator, but their operands have values of different kinds
  | compareInt _ _ hc ihx ihy =>
    intro r' h'
    cases h' with
    | compareInt hx hy hc' =>
      cases ihx hx
      cases ihy hy
      rw [Bool.eq_iff_iff.mpr (hc.trans hc'.symm)]
    | compareBool hx _ => cases ihx hx
  | compareBool _ _ hc ihx ihy =>
    intro r' h'
    cases h' with
    | compareInt hx _ => cases ihx hx
    | compareBool hx hy hc' =>
      cases ihx hx
      cases ihy hy
      rw [Bool.eq_iff_iff.mpr (hc.trans hc'.symm)]
  | arith _ _ hty ht hn hm ihx ihy =>
    intro r' h'
    cases h' with
    | arith hx hy hty' ht' hn' hm' =>
      cases ihx hx
      cases ihy hy
      cases hty.symm.trans hty'
      cases ht.symm.trans ht'
      cases hn.unique hn'
      rw [hm.unique hm']
  | listOf hty hnames _ ih =>
    intro r' h'
    cases h' with
    | listOf hty' hnames' hxs =>
      cases hty.symm.trans hty'
      cases hnames.symm.trans hnames'
      cases ih hxs
      rfl
  | app _ _ ihargs ihf =>
    intro r' h'
    cases h' with
    | app hargs hf => cases ihargs hargs; exact ihf hf
  | cons _ _ ihx ihxs =>
    intro r' h'
    cases h' with
    | cons hx hxs => cases ihx hx; cases ihxs hxs; rfl
  | global hf henter _ ih =>
    intro r' h'
    cases h' with
    | global hf' henter' hbody =>
      cases hf.symm.trans hf'
      cases henter.symm.trans henter'
      cases ih hbody
      rfl
  | abs henter _ ih =>
    intro r' h'
    cases h' with
    | abs henter' hbody =>
      cases henter.symm.trans henter'
      cases ih hbody
      rfl
  | stmtCall _ _ =>
    rintro _ ⟨⟩
    rfl
  | ifThen _ _ ihcond ihyes =>
    intro r' h'
    cases h' with
    | ifThen _ hyes => exact ihyes hyes
    | skip hcond => cases ihcond hcond
  | skip _ ihcond =>
    intro r' h'
    cases h' with
    | ifThen hcond _ => cases ihcond hcond
    | skip _ => rfl
  | ifElse _ _ _ ihcond ihbranch =>
    intro r' h'
    cases h' with
    | ifElse b hcond hbranch => cases ihcond hcond; exact ihbranch hbranch
  | ret _ ih =>
    intro r' h'
    cases h' with
    | ret hx => cases ih hx; rfl
  | stop _ ih =>
    intro r' h'
    cases h' with
    | stop hs => exact ih hs
    | next hs _ => cases ih hs
  | next _ _ ihs ihrest =>
    intro r' h'
    cases h' with
    | stop hs => cases ihs hs
    | next _ hrest => exact ihrest hrest

/-! ## Variables that do not occur -/

/-- The largest index of a variable in the code. -/
def Code.maxIndex : Code → Nat
  | .term t => t.maxIndex
  | .list ts => maxIndexList ts
  | .call f _ => f.maxIndex
  | .stmt s => s.maxIndex
  | .body b => maxIndexBody b

theorem Tele.maxIndex_rest_le {p : Phase} {k : Binder} (mark : Mark p) (qty : Quantity)
    (ty : Term p) (v : Option Var) (rest : Tele p k) :
    rest.maxIndex ≤ (Tele.arg mark qty ty v rest).maxIndex := by
  cases v <;> simp only [Tele.maxIndex] <;> omega

/-- A function is entered in the same way from a valuation that has the same values. -/
theorem Tele.enter?_within {k : Binder} {K : Nat} : ∀ {t : Tele .checked k} {ws : List Value}
    {ρ σ ρ' : Valuation} {b : Body .checked}, t.enter? ρ ws = some (ρ', b) → t.maxIndex ≤ K →
      Valuation.Within K ρ σ →
      ∃ σ', t.enter? σ ws = some (σ', b) ∧ Valuation.Within K ρ' σ' ∧ maxIndexBody b ≤ K
  | .runs _ _ body, [], _, σ, _, _, h, hK, hσ => by
    cases h
    exact ⟨σ, rfl, hσ, Nat.le_trans (Nat.le_max_right _ _) hK⟩
  | .arg _ _ _ v rest, w :: _, _, _, _, _, h, hK, hσ =>
    Tele.enter?_within (t := rest) h (Nat.le_trans (Tele.maxIndex_rest_le ..) hK) (hσ.bind v w)

/-- Only variables that occur in the code contribute to its result. -/
theorem Gives.within {env : Env} {ρ : Valuation} {c : Code} {r : Result} (h : Gives env ρ c r) :
    ∀ {σ : Valuation}, Valuation.Within c.maxIndex ρ σ → Gives env σ c r := by
  induction h with
  | lit => intros; exact .lit
  | num => intros; exact .num
  | str => intros; exact .str
  | var hv =>
    intro σ hσ
    exact .var (hσ _ _ (Nat.le_max_right _ _) hv)
  | not _ ih =>
    intro σ hσ
    exact .not (ih hσ.right)
  | member _ hi hw ih =>
    intro σ hσ
    exact .member (ih hσ.right) hi hw
  | subscript _ _ hi hw ihx ihy =>
    intro σ hσ
    exact .subscript (ihx hσ.right.left) (ihy hσ.right.right) hi hw
  | because _ ih =>
    intro σ hσ
    exact .because (ih hσ.right.left)
  | logic _ _ hc ihx ihy =>
    intro σ hσ
    exact .logic (ihx hσ.right.left) (ihy hσ.right.right) hc
  | compareInt _ _ hc ihx ihy =>
    intro σ hσ
    exact .compareInt (ihx hσ.right.left) (ihy hσ.right.right) hc
  | compareBool _ _ hc ihx ihy =>
    intro σ hσ
    exact .compareBool (ihx hσ.right.left) (ihy hσ.right.right) hc
  | arith _ _ hty ht hn hm ihx ihy =>
    intro σ hσ
    exact .arith (ihx hσ.right.left) (ihy hσ.right.right) hty ht hn hm
  | listOf hty hnames _ ih =>
    intro σ hσ
    exact .listOf hty hnames (ih hσ.right)
  | app _ _ ihargs ihf =>
    intro σ hσ
    exact .app (ihargs hσ.right.right) (ihf hσ.right.left)
  | nil => intros; exact .nil
  | cons _ _ ihx ihxs =>
    intro σ hσ
    exact .cons (ihx hσ.left) (ihxs hσ.right)
  -- a global function is entered with no other values than its arguments
  | global hf henter hbody _ =>
    intro σ _
    exact .global hf henter hbody
  | abs henter _ ih =>
    intro σ hσ
    obtain ⟨σ', henter', hσ', hb⟩ := Tele.enter?_within henter (Nat.le_max_right _ _) hσ
    exact .abs henter' (ih (hσ'.mono hb))
  | stmtCall _ ih =>
    intro σ hσ
    exact .stmtCall (ih hσ)
  | ifThen _ _ ihcond ihyes =>
    intro σ hσ
    exact .ifThen (ihcond hσ.left) (ihyes hσ.right)
  | skip _ ihcond =>
    intro σ hσ
    exact .skip (ihcond hσ.left)
  | ifElse b _ _ ihcond ihbranch =>
    intro σ hσ
    refine .ifElse b (ihcond hσ.left) (ihbranch ?_)
    cases b with
    | true => exact hσ.right.left
    | false => exact hσ.right.right
  | ret _ ih =>
    intro σ hσ
    exact .ret (ih hσ)
  | retUnit => intros; exact .retUnit
  | bodyNil => intros; exact .bodyNil
  | stop _ ih =>
    intro σ hσ
    exact .stop (ih hσ.left)
  | next _ _ ihs ihrest =>
    intro σ hσ
    exact .next (ihs hσ.left) (ihrest hσ.right)

end DependentCore
