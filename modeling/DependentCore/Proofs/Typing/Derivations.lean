import DependentCore.Typing.Elaborate

/-!
# Typing rules

The checker as a system of rules. `Term.Accepts fuel env ctx mode e t` says that the written term
`e` is accepted in a context and a mode, with the checked term `t` as its result; there is one
rule for each way in which the checker succeeds.

* `Accepts` for terms, operand pairs, elements, fields, arguments, telescopes and statements,
* `Term.accepts_of_elaborate` and its companions: whatever the checker returns is derived by the
  rules.

What holds of every accepted program is proved by induction on its derivation, so that no such
proof looks into the checker again.
-/

namespace DependentCore

/-! ## Successful checks -/

/-- A sequence of two checks succeeds if both do. -/
theorem Check.bind_eq_ok {α β : Type} {x : Check α} {f : α → Check β} {b : β} :
    (x >>= f) = .ok b ↔ ∃ a, x = .ok a ∧ f a = .ok b := by
  cases x <;> simp [bind, Except.bind]

theorem Check.pure_eq_ok {α : Type} {a b : α} : (pure a : Check α) = .ok b ↔ a = b := by
  simp [pure, Except.pure]

theorem reject_ne_ok {α : Type} {cause : Cause} {loc : Location} {ctx : Context}
    {expected : Option Checked} {a : α} : reject cause loc ctx expected ≠ .ok a :=
  nofun

theorem typeOf_eq_ok {ctx : Context} {loc : Location} {t ty : Checked} :
    typeOf ctx loc t = .ok ty ↔ t.sort? = some ty := by
  unfold typeOf
  cases t.sort? <;> simp [reject]

section
variable [c : Indexing]

theorem Env.normal_eq_ok {env : Env} {fuel : Nat} {t u : Checked} :
    env.normal fuel t = .ok u ↔ env.normalize? fuel t = some u := by
  unfold Env.normal
  cases env.normalize? fuel t <;> simp [fueled]

/-- The type of a term is one that is expected of it. -/
def Concludes (fuel : Nat) (env : Env) (mode : Mode) (t : Checked) : Prop :=
  ∀ expected, mode.expected? = some expected →
    ∃ ty, t.sort? = some ty ∧ env.equivalent fuel ty expected = .ok true

theorem conclude_eq_ok {fuel : Nat} {env : Env} {ctx : Context} {loc : Location} {mode : Mode}
    {t u : Checked} (h : conclude fuel env ctx loc mode t = .ok u) :
    t = u ∧ Concludes fuel env mode t := by
  unfold conclude at h
  cases hmode : mode.expected? with
  | none =>
    rw [hmode] at h
    exact ⟨by simpa using h, fun _ he => by rw [hmode] at he; cases he⟩
  | some expected =>
    rw [hmode] at h
    obtain ⟨ty, hty, h⟩ := Check.bind_eq_ok.mp h
    obtain ⟨same, hsame, h⟩ := Check.bind_eq_ok.mp h
    cases same with
    | true =>
      refine ⟨by simpa [pure, Except.pure] using h, fun e he => ⟨ty, typeOf_eq_ok.mp hty, ?_⟩⟩
      rw [hmode] at he
      cases he
      exact hsame
    | false => exact absurd h reject_ne_ok

end

/-! ## Atoms and variables -/

section
variable {fuel : Nat} {env : Env}

theorem form_of_assignAtom {ctx : Context} {loc : Location} {a : Atom} {t : Checked}
    (h : assignAtom env ctx loc a = .ok t) : t.form = .atom a := by
  cases a with
  | auto | num => cases h
  | global g =>
    simp only [assignAtom, assignGlobal] at h
    split at h
    · split at h <;> cases h <;> rfl
    · split at h <;> cases h
      rfl
  | _ =>
    cases h
    rfl

theorem form_of_elaborateAtom [c : Indexing] {ctx : Context} {loc : Location} {mode : Mode}
    {a : Atom} {t : Checked} (h : elaborateAtom fuel env ctx loc mode a = .ok t) :
    t.form = .atom a := by
  unfold elaborateAtom at h
  split at h
  · cases h
    rfl
  · split at h
    · unfold elaborateNumeral at h
      split at h
      · cases h
      · split at h <;> cases h
        rfl
    · cases h
  · obtain ⟨u, hu, h⟩ := Check.bind_eq_ok.mp h
    obtain ⟨rfl, -⟩ := conclude_eq_ok h
    exact form_of_assignAtom hu

theorem form_of_assignVar {ctx : Context} {loc : Location} {v : Var} {t : Checked}
    (h : assignVar ctx loc v = .ok t) : t.form = .var v := by
  unfold assignVar at h
  split at h <;> cases h <;> rfl

end

/-! ## Declarations -/

/-- A declaration adds to the innermost scope. -/
def Context.withDecl (ctx : Context) (v : Var) (d : Declaration) : Context :=
  { ctx with inner := { ctx.inner with decls := (v, d) :: ctx.inner.decls } }

theorem Context.find?_withDecl (ctx : Context) (v : Var) (d : Declaration) (w : Var) :
    (ctx.withDecl v d).inner.find? w = if v = w then some d else ctx.inner.find? w := by
  simp only [Context.withDecl, Scope.find?, List.find?_cons]
  by_cases hv : v = w <;> simp [hv]

theorem Context.lookup?_withDecl (ctx : Context) (v : Var) (d : Declaration) (w : Var) :
    (ctx.withDecl v d).lookup? w = if v = w then some d else ctx.lookup? w := by
  simp only [Context.lookup?, Context.declarations, Context.scopes, List.filterMap_cons,
    Context.find?_withDecl]
  by_cases hv : v = w <;> simp [hv, Context.withDecl]

/-- An argument that is declared stands for a type, or for a term of its type. -/
theorem declareArg_eq_ok {ctx ctx' : Context} {loc : Location} {qty : Quantity} {ty : Checked}
    {v : Var} (h : declareArg ctx loc qty ty (some v) = .ok ctx') :
    ∃ d : Declaration, ctx' = ctx.withDecl v d ∧
      (d.meaning = .type ∨ d.meaning = .term qty ty) := by
  simp only [declareArg, Context.declare] at h
  cases hfind : ctx.inner.find? v with
  | some d =>
    rw [hfind] at h
    cases h
  | none =>
    rw [hfind] at h
    cases h
    refine ⟨_, rfl, ?_⟩
    dsimp only
    split
    · exact .inl rfl
    · exact .inr rfl

/-- One operand has its type determined, and the other one is checked against it. -/
theorem elaboratePair_eq_ok {ctx : Context} {x y : Written} {goX goY : Mode → Check Checked}
    {x' y' : Checked} (h : elaboratePair ctx x y goX goY = .ok (x', y')) :
    (∃ ty, goX .assign = .ok x' ∧ x'.sort? = some ty ∧ goY (.check ty) = .ok y') ∨
      (∃ ty, goY .assign = .ok y' ∧ y'.sort? = some ty ∧ goX (.check ty) = .ok x') := by
  unfold elaboratePair at h
  split at h
  · obtain ⟨b, hb, h⟩ := Check.bind_eq_ok.mp h
    obtain ⟨ty, hty, h⟩ := Check.bind_eq_ok.mp h
    obtain ⟨a, ha, h⟩ := Check.bind_eq_ok.mp h
    cases h
    exact .inr ⟨ty, hb, typeOf_eq_ok.mp hty, ha⟩
  · obtain ⟨a, ha, h⟩ := Check.bind_eq_ok.mp h
    obtain ⟨ty, hty, h⟩ := Check.bind_eq_ok.mp h
    obtain ⟨b, hb, h⟩ := Check.bind_eq_ok.mp h
    cases h
    exact .inl ⟨ty, ha, typeOf_eq_ok.mp hty, hb⟩

/-! ## Rules -/

variable [c : Indexing]

mutual

/-- A term is accepted in a mode. -/
inductive Term.Accepts (fuel : Nat) (env : Env) : Context → Mode → Written → Checked → Prop where
  | atom {ctx mode loc hw a t} : elaborateAtom fuel env ctx loc mode a = .ok t →
    Term.Accepts fuel env ctx mode (.mk (.place loc hw) (.atom a)) t
  | var {ctx mode loc hw v t} : assignVar ctx loc v = .ok t → Concludes fuel env mode t →
    Term.Accepts fuel env ctx mode (.mk (.place loc hw) (.var v)) t
  | trueT {ctx mode loc hw x x'} : Term.Accepts fuel env ctx (.check Checked.bool) x x' →
    Concludes fuel env mode (Checked.type (.unary .trueT x')) →
    Term.Accepts fuel env ctx mode (.mk (.place loc hw) (.unary .trueT x))
      (Checked.type (.unary .trueT x'))
  | addressOf {ctx mode loc hw x x' ty} : x.isVar → Term.Accepts fuel env ctx .assign x x' →
    x'.sort? = some ty →
    Concludes fuel env mode (Checked.term (Checked.type (.binary .refT ty (Checked.scopeOf x')))
      (.unary .addressOf x')) →
    Term.Accepts fuel env ctx mode (.mk (.place loc hw) (.unary .addressOf x))
      (Checked.term (Checked.type (.binary .refT ty (Checked.scopeOf x'))) (.unary .addressOf x'))
  | deref {ctx mode loc hw x x' note ty region} : Term.Accepts fuel env ctx .assign x x' →
    x'.sort? = some (.mk note (.binary .refT ty region)) →
    Concludes fuel env mode (Checked.term ty (.unary .deref x')) →
    Term.Accepts fuel env ctx mode (.mk (.place loc hw) (.unary .deref x))
      (Checked.term ty (.unary .deref x'))
  | scopeOf {ctx mode loc hw x x'} : Term.Accepts fuel env ctx .assign x x' →
    Concludes fuel env mode (Checked.scopeOf x') →
    Term.Accepts fuel env ctx mode (.mk (.place loc hw) (.unary .scopeOf x)) (Checked.scopeOf x')
  | not {ctx mode loc hw x x'} : Term.Accepts fuel env ctx (.check Checked.bool) x x' →
    Concludes fuel env mode (Checked.not x') →
    Term.Accepts fuel env ctx mode (.mk (.place loc hw) (.unary .not x)) (Checked.not x')
  | member {ctx mode loc hw field x x' sort fs ty} : Term.Accepts fuel env ctx .assign x x' →
    x'.sort? = some sort → env.fields? sort = some fs → memberType? x' field fs = some ty →
    Concludes fuel env mode (Checked.term ty (.unary (.member field) x')) →
    Term.Accepts fuel env ctx mode (.mk (.place loc hw) (.unary (.member field) x))
      (Checked.term ty (.unary (.member field) x'))
  | arrayT {ctx mode loc hw ty ty' size size'} : Term.Accepts fuel env ctx .type ty ty' →
    Term.Accepts fuel env ctx (.check Checked.u64) size size' →
    Concludes fuel env mode (Checked.type (.binary .arrayT ty' size')) →
    Term.Accepts fuel env ctx mode (.mk (.place loc hw) (.binary .arrayT ty size))
      (Checked.type (.binary .arrayT ty' size'))
  | refT {ctx mode loc hw ty ty' region region'} : Term.Accepts fuel env ctx .type ty ty' →
    Term.Accepts fuel env ctx (.check Checked.scope) region region' →
    Concludes fuel env mode (Checked.type (.binary .refT ty' region')) →
    Term.Accepts fuel env ctx mode (.mk (.place loc hw) (.binary .refT ty region))
      (Checked.type (.binary .refT ty' region'))
  | element {ctx mode loc hw x x' i i' note elem size} : Term.Accepts fuel env ctx .assign x x' →
    x'.sort? = some (.mk note (.binary .arrayT elem size)) →
    Term.Accepts fuel env ctx (.check Checked.u64) i i' →
    Concludes fuel env mode (Checked.term elem (.binary .subscript x' i')) →
    Term.Accepts fuel env ctx mode (.mk (.place loc hw) (.binary .subscript x i))
      (Checked.term elem (.binary .subscript x' i'))
  | position {ctx mode loc hw x x' i i' note fs n pos ty} :
    Term.Accepts fuel env ctx .assign x x' → x'.sort? = some (.mk note (.bind .sigma fs)) →
    i.form = .atom (.num n) → position? n = some pos →
    Term.Accepts fuel env ctx (.check Checked.u64) i i' → positionType? x' pos fs = some ty →
    Concludes fuel env mode (Checked.term ty (.binary .subscript x' i')) →
    Term.Accepts fuel env ctx mode (.mk (.place loc hw) (.binary .subscript x i))
      (Checked.term ty (.binary .subscript x' i'))
  | because {ctx mode loc hw x x' reason reason' ty} : mode.expected? = none →
    Term.Accepts fuel env ctx (.check Checked.bool) reason reason' →
    Term.Accepts fuel env (ctx.newScope.assume reason') .assign x x' → x'.sort? = some ty →
    Term.Accepts fuel env ctx mode (.mk (.place loc hw) (.binary .because x reason))
      (Checked.term ty (.binary .because x' reason'))
  | becauseOf {ctx mode loc hw x x' reason reason' expected} : mode.expected? = some expected →
    Term.Accepts fuel env ctx (.check Checked.bool) reason reason' →
    Term.Accepts fuel env (ctx.newScope.assume reason') (.check expected) x x' →
    Term.Accepts fuel env ctx mode (.mk (.place loc hw) (.binary .because x reason))
      (Checked.term expected (.binary .because x' reason'))
  | logic {ctx mode loc hw op x x' y y'} : Term.Accepts fuel env ctx (.check Checked.bool) x x' →
    Term.Accepts fuel env ctx (.check Checked.bool) y y' →
    Concludes fuel env mode (Checked.term Checked.bool (.binary (.logic op) x' y')) →
    Term.Accepts fuel env ctx mode (.mk (.place loc hw) (.binary (.logic op) x y))
      (Checked.term Checked.bool (.binary (.logic op) x' y'))
  | compare {ctx mode loc hw op x x' y y' ty} : AcceptsPair fuel env ctx x y x' y' →
    x'.sort? = some ty → (op.isOrdered → (env.intType? ty).isSome) →
    Concludes fuel env mode (Checked.term Checked.bool (.binary (.compare op) x' y')) →
    Term.Accepts fuel env ctx mode (.mk (.place loc hw) (.binary (.compare op) x y))
      (Checked.term Checked.bool (.binary (.compare op) x' y'))
  | arith {ctx mode loc hw op x x' y y' ty} : AcceptsPair fuel env ctx x y x' y' →
    x'.sort? = some ty → (env.intType? ty).isSome →
    Concludes fuel env mode (Checked.term ty (.binary (.arith op) x' y')) →
    Term.Accepts fuel env ctx mode (.mk (.place loc hw) (.binary (.arith op) x y))
      (Checked.term ty (.binary (.arith op) x' y'))
  | arithOf {ctx mode loc hw op x x' y y' expected} : mode.expected? = some expected →
    (env.intType? expected).isSome → Term.Accepts fuel env ctx (.check expected) x x' →
    Term.Accepts fuel env ctx (.check expected) y y' →
    Term.Accepts fuel env ctx mode (.mk (.place loc hw) (.binary (.arith op) x y))
      (Checked.term expected (.binary (.arith op) x' y'))
  | app {ctx mode loc hw f f' args args' s rest} : Term.Accepts fuel env ctx .assign f f' →
    f'.piSort? = some s → ¬(s.mutability = .yes ∧ ctx.mutability = .no) → s.arity = args.length →
    AcceptsArgs fuel env ctx args s args' rest →
    Concludes fuel env mode (Checked.term rest.ret (.app f' args')) →
    Term.Accepts fuel env ctx mode (.mk (.place loc hw) (.app f args))
      (Checked.term rest.ret (.app f' args'))
  | array {ctx mode loc hw xs xs' expected elem size note} : mode.expected? = some expected →
    expected.form = .binary .arrayT elem size →
    env.normal fuel size = .ok (.mk note (.atom (.num xs.length))) →
    AcceptsElements fuel env ctx elem xs xs' →
    Term.Accepts fuel env ctx mode (.mk (.place loc hw) (.list xs))
      (Checked.term expected (.list xs'))
  | unit {ctx mode loc hw expected} : mode.expected? = some expected →
    expected.form = .atom .unit →
    Term.Accepts fuel env ctx mode (.mk (.place loc hw) (.list []))
      (Checked.term expected (.list []))
  | proof {ctx mode loc hw expected cond} : mode.expected? = some expected →
    expected.form = .unary .trueT cond → env.provable fuel ctx cond = .ok true →
    Term.Accepts fuel env ctx mode (.mk (.place loc hw) (.list []))
      (Checked.term expected (.list []))
  | struct {ctx mode loc hw xs xs' expected fs} : mode.expected? = some expected →
    env.fields? expected = some fs → xs.length = fs.arity →
    AcceptsFields fuel env ctx xs fs xs' →
    Term.Accepts fuel env ctx mode (.mk (.place loc hw) (.list xs))
      (Checked.term expected (.list xs'))
  | sigma {ctx mode loc hw} {fs : Fields .written} {fs' : Fields .checked} :
    Tele.Accepts fuel env ctx.newScope fs fs' →
    Concludes fuel env mode (Checked.type (.bind .sigma fs')) →
    Term.Accepts fuel env ctx mode (.mk (.place loc hw) (.bind .sigma fs))
      (Checked.type (.bind .sigma fs'))
  | pi {ctx mode loc hw} {s : Signature .written} {s' : Signature .checked} :
    Tele.Accepts fuel env ctx.newScope s s' → Concludes fuel env mode (Checked.pi s') →
    Term.Accepts fuel env ctx mode (.mk (.place loc hw) (.bind .pi s)) (Checked.pi s')
  | abs {ctx mode loc hw} {f : Function .written} {f' : Function .checked} :
    Tele.Accepts fuel env (ctx.newScopeOf f.mutability) f f' →
    Concludes fuel env mode (Checked.term (Checked.pi f'.signature) (.bind .abs f')) →
    Term.Accepts fuel env ctx mode (.mk (.place loc hw) (.bind .abs f))
      (Checked.term (Checked.pi f'.signature) (.bind .abs f'))

/-- Two operands are accepted: the type of one is determined, the other is checked against it. -/
inductive AcceptsPair (fuel : Nat) (env : Env) :
    Context → Written → Written → Checked → Checked → Prop where
  | leftFirst {ctx x x' y y' ty} : Term.Accepts fuel env ctx .assign x x' → x'.sort? = some ty →
    Term.Accepts fuel env ctx (.check ty) y y' → AcceptsPair fuel env ctx x y x' y'
  | rightFirst {ctx x x' y y' ty} : Term.Accepts fuel env ctx .assign y y' →
    y'.sort? = some ty → Term.Accepts fuel env ctx (.check ty) x x' →
    AcceptsPair fuel env ctx x y x' y'

/-- The elements of an array are accepted for a type. -/
inductive AcceptsElements (fuel : Nat) (env : Env) :
    Context → Checked → List Written → List Checked → Prop where
  | nil {ctx ty} : AcceptsElements fuel env ctx ty [] []
  | cons {ctx ty x x' xs xs'} : Term.Accepts fuel env ctx (.check ty) x x' →
    AcceptsElements fuel env ctx ty xs xs' → AcceptsElements fuel env ctx ty (x :: xs) (x' :: xs')

/-- Terms are accepted as fields. -/
inductive AcceptsFields (fuel : Nat) (env : Env) :
    Context → List Written → Fields .checked → List Checked → Prop where
  | nil {ctx fs} : AcceptsFields fuel env ctx [] fs []
  | fields {ctx xs} : AcceptsFields fuel env ctx xs .fields []
  | cons {ctx x x' xs xs' mark qty ty v rest} : Term.Accepts fuel env ctx (.check ty) x x' →
    AcceptsFields fuel env ctx xs (rest.instantiate v x') xs' →
    AcceptsFields fuel env ctx (x :: xs) (.arg mark qty ty v rest) (x' :: xs')

/-- Terms are accepted as arguments of a signature, and the last signature is left of it. -/
inductive AcceptsArgs (fuel : Nat) (env : Env) :
    Context → List Written → Signature .checked → List Checked → Signature .checked → Prop where
  | nil {ctx s} : AcceptsArgs fuel env ctx [] s [] s
  | returns {ctx xs m ret} : AcceptsArgs fuel env ctx xs (.returns m ret) [] (.returns m ret)
  | cons {ctx x x' xs xs' s mark qty ty v rest} : x.isAuto = false →
    Term.Accepts fuel env ctx (.check ty) x x' →
    AcceptsArgs fuel env ctx xs (rest.instantiate v x') xs' s →
    AcceptsArgs fuel env ctx (x :: xs) (.arg mark qty ty v rest) (x' :: xs') s
  | auto {ctx x x' xs xs' s mark qty ty v rest} : x.isAuto →
    AcceptsAuto fuel env ctx ty v xs rest x' →
    AcceptsArgs fuel env ctx xs (rest.instantiate v x') xs' s →
    AcceptsArgs fuel env ctx (x :: xs) (.arg mark qty ty v rest) (x' :: xs') s

/-- An argument that was left out is found in the type of a later one. -/
inductive AcceptsAuto (fuel : Nat) (env : Env) : Context → Checked → Option Var → List Written →
    Signature .checked → Checked → Prop where
  | found {ctx ty v w x x' xs mark qty formal rest sort value valueSort} :
    Term.Accepts fuel env ctx .assign x x' → x'.sort? = some sort →
    formal.match? v sort = some value → value.sort? = some valueSort →
    env.equivalent fuel valueSort ty = .ok true →
    AcceptsAuto fuel env ctx ty (some v) (x :: xs) (.arg mark qty formal w rest) value
  | later {ctx ty v w x xs mark qty formal rest value} :
    AcceptsAuto fuel env ctx ty v xs rest value →
    AcceptsAuto fuel env ctx ty v (x :: xs) (.arg mark qty formal w rest) value

/-- A telescope is accepted. -/
inductive Tele.Accepts (fuel : Nat) (env : Env) :
    {k : Binder} → Context → Tele .written k → Tele .checked k → Prop where
  | fields {ctx} : Tele.Accepts fuel env ctx .fields .fields
  | returns {ctx m ret ret'} : Term.Accepts fuel env ctx .type ret ret' →
    Tele.Accepts fuel env ctx (.returns m ret) (.returns m ret')
  | runs {ctx m ret ret' body body'} : Term.Accepts fuel env ctx .type ret ret' →
    AcceptsBody fuel env ctx.newScope ret' body body' → ret'.isUnit || returnsAlways body' →
    Tele.Accepts fuel env ctx (.runs m ret body) (.runs m ret' body')
  | arg {k ctx ctx' mark qty ty ty' v} {rest : Tele .written k} {rest' : Tele .checked k} :
    Term.Accepts fuel env ctx .type ty ty' → declareArg ctx mark qty ty' v = .ok ctx' →
    Tele.Accepts fuel env ctx' rest rest' →
    Tele.Accepts fuel env ctx (.arg mark qty ty v rest) (.arg () qty ty' v rest')

/-- A statement is accepted in a function of the given return type. -/
inductive Stmt.Accepts (fuel : Nat) (env : Env) :
    Context → Checked → Stmt .written → Stmt .checked → Prop where
  | call {ctx ret loc x x'} : x.isCall → Term.Accepts fuel env ctx .assign x x' →
    Stmt.Accepts fuel env ctx ret (.call loc x) (.call () x')
  | ifThen {ctx ret loc cond cond' yes yes'} :
    Term.Accepts fuel env ctx (.check Checked.bool) cond cond' →
    AcceptsBody fuel env (ctx.newScope.assume cond').newScope ret yes yes' →
    Stmt.Accepts fuel env ctx ret (.ifThen loc cond yes) (.ifThen () cond' yes')
  | ifElse {ctx ret loc cond cond' yes yes' no no'} :
    Term.Accepts fuel env ctx (.check Checked.bool) cond cond' →
    AcceptsBody fuel env (ctx.newScope.assume cond').newScope ret yes yes' →
    AcceptsBody fuel env (ctx.newScope.assume (Checked.not cond')).newScope ret no no' →
    Stmt.Accepts fuel env ctx ret (.ifElse loc cond yes no) (.ifElse () cond' yes' no')
  | ret {ctx ret loc x x'} : Term.Accepts fuel env ctx (.check ret) x x' →
    Stmt.Accepts fuel env ctx ret (.ret loc x) (.ret () x')
  | retUnit {ctx ret loc} : ret.isUnit →
    Stmt.Accepts fuel env ctx ret (.retUnit loc) (.retUnit ())
  | impossible {ctx ret loc facts} : env.facts fuel ctx = .ok facts → contradictory facts →
    Stmt.Accepts fuel env ctx ret (.impossible loc) (.impossible ())
  | impossibleBy {ctx ret loc x x'} : Term.Accepts fuel env ctx .assign x x' →
    Stmt.Accepts fuel env ctx ret (.impossibleBy loc x) (.impossibleBy () x')

/-- The statements of a body are accepted, each with what is known after those before it. -/
inductive AcceptsBody (fuel : Nat) (env : Env) :
    Context → Checked → List (Stmt .written) → List (Stmt .checked) → Prop where
  | nil {ctx ret} : AcceptsBody fuel env ctx ret [] []
  | cons {ctx ret s s' rest rest'} : Stmt.Accepts fuel env ctx ret s s' →
    AcceptsBody fuel env (s'.learn ctx) ret rest rest' →
    AcceptsBody fuel env ctx ret (s :: rest) (s' :: rest')

end

/-! ## Soundness of the rules -/

theorem assignMember_eq_ok {env : Env} {ctx : Context} {loc : Location} {x t : Checked}
    {field : String} (h : assignMember env ctx loc x field = .ok t) :
    ∃ sort fs ty, x.sort? = some sort ∧ env.fields? sort = some fs ∧
      memberType? x field fs = some ty ∧ t = Checked.term ty (.unary (.member field) x) := by
  obtain ⟨sort, hsort, h⟩ := Check.bind_eq_ok.mp h
  split at h
  · exact absurd h reject_ne_ok
  · split at h
    · exact absurd h reject_ne_ok
    · next fs hfs _ ty hty =>
      cases h
      exact ⟨sort, fs, ty, typeOf_eq_ok.mp hsort, hfs, hty, rfl⟩

section
variable {fuel : Nat} {env : Env}

/-- A first argument is found if it was left out, and checked otherwise. -/
theorem elaborateArgs_cons_eq_ok {ctx : Context} {x : Written} {xs : List Written} {mark : Unit}
    {qty : Quantity} {ty : Checked} {v : Option Var} {rest : Signature .checked}
    {r : List Checked × Signature .checked} :
    elaborateArgs fuel env ctx (x :: xs) (.arg mark qty ty v rest) = .ok r ↔
      ∃ x' xs' s, (if x.isAuto then resolveAuto fuel env ctx x.loc ty v xs rest
          else x.elaborate fuel env ctx (.check ty)) = .ok x' ∧
        elaborateArgs fuel env ctx xs (rest.instantiate v x') = .ok (xs', s) ∧
        r = (x' :: xs', s) := by
  have hrun {c : Check Checked} : (do
      let x' ← c
      let q ← elaborateArgs fuel env ctx xs (rest.instantiate v x')
      return (x' :: q.1, q.2)) = .ok r ↔ ∃ x' xs' s, c = .ok x' ∧
        elaborateArgs fuel env ctx xs (rest.instantiate v x') = .ok (xs', s) ∧
        r = (x' :: xs', s) := by
    constructor
    · intro h
      obtain ⟨x', hx, h⟩ := Check.bind_eq_ok.mp h
      obtain ⟨⟨xs', s⟩, hxs, h⟩ := Check.bind_eq_ok.mp h
      cases h
      exact ⟨x', xs', s, hx, hxs, rfl⟩
    · rintro ⟨x', xs', s, hx, hxs, rfl⟩
      exact Check.bind_eq_ok.mpr ⟨x', hx, Check.bind_eq_ok.mpr ⟨(xs', s), hxs, rfl⟩⟩
  simp only [elaborateArgs]
  split
  · exact hrun
  · exact hrun

/-- Whatever the checker returns for a written term is derived by the rules. -/
def Term.IsDerived (fuel : Nat) (env : Env) (x : Written) : Prop :=
  ∀ ⦃ctx : Context⦄ ⦃mode : Mode⦄ ⦃t : Checked⦄, x.elaborate fuel env ctx mode = .ok t →
    Term.Accepts fuel env ctx mode x t

/-- Whatever the checker returns for a written telescope is derived by the rules. -/
def Tele.IsDerived {k : Binder} (fuel : Nat) (env : Env) (t : Tele .written k) : Prop :=
  ∀ ⦃ctx : Context⦄ ⦃loc : Location⦄ ⦃t' : Tele .checked k⦄,
    t.elaborate fuel env ctx loc = .ok t' → Tele.Accepts fuel env ctx t t'

section
variable {loc : Location} {hw : Phase.written = .written} {x y : Written}

theorem acceptsPair_of_elaborate (hx : x.IsDerived fuel env) (hy : y.IsDerived fuel env)
    {ctx : Context} {x' y' : Checked}
    (h : elaboratePair ctx x y (x.elaborate fuel env ctx ·) (y.elaborate fuel env ctx ·)
      = .ok (x', y')) : AcceptsPair fuel env ctx x y x' y' := by
  rcases elaboratePair_eq_ok h with ⟨ty, hx', hty, hy'⟩ | ⟨ty, hy', hty, hx'⟩
  · exact .leftFirst (hx hx') hty (hy hy')
  · exact .rightFirst (hy hy') hty (hx hx')

theorem Term.isDerived_unary (op : Unary) (hx : x.IsDerived fuel env) :
    Term.IsDerived fuel env (.mk (.place loc hw) (.unary op x)) := by
  intro ctx mode t h
  cases op with
  | trueT =>
    obtain ⟨x', hx', h⟩ := Check.bind_eq_ok.mp h
    obtain ⟨rfl, hc⟩ := conclude_eq_ok h
    exact .trueT (hx hx') hc
  | addressOf =>
    simp only [Term.elaborate, Form.elaborate] at h
    split at h
    · next hvar =>
      obtain ⟨x', hx', h⟩ := Check.bind_eq_ok.mp h
      obtain ⟨ty, hty, h⟩ := Check.bind_eq_ok.mp h
      obtain ⟨rfl, hc⟩ := conclude_eq_ok h
      exact .addressOf hvar (hx hx') (typeOf_eq_ok.mp hty) hc
    · exact absurd h reject_ne_ok
  | deref =>
    obtain ⟨x', hx', h⟩ := Check.bind_eq_ok.mp h
    obtain ⟨⟨note, form⟩, hty, h⟩ := Check.bind_eq_ok.mp h
    split at h
    · next ty region hform =>
      obtain ⟨rfl, hc⟩ := conclude_eq_ok h
      cases hform
      exact .deref (hx hx') (typeOf_eq_ok.mp hty) hc
    · exact absurd h reject_ne_ok
  | scopeOf =>
    obtain ⟨x', hx', h⟩ := Check.bind_eq_ok.mp h
    obtain ⟨rfl, hc⟩ := conclude_eq_ok h
    exact .scopeOf (hx hx') hc
  | not =>
    obtain ⟨x', hx', h⟩ := Check.bind_eq_ok.mp h
    obtain ⟨rfl, hc⟩ := conclude_eq_ok h
    exact .not (hx hx') hc
  | member field =>
    obtain ⟨x', hx', h⟩ := Check.bind_eq_ok.mp h
    obtain ⟨m, hm, h⟩ := Check.bind_eq_ok.mp h
    obtain ⟨rfl, hc⟩ := conclude_eq_ok h
    obtain ⟨sort, fs, ty, hsort, hfs, hty, rfl⟩ := assignMember_eq_ok hm
    exact .member (hx hx') hsort hfs hty hc

theorem Term.isDerived_subscript (hx : x.IsDerived fuel env) (hy : y.IsDerived fuel env) :
    Term.IsDerived fuel env (.mk (.place loc hw) (.binary .subscript x y)) := by
  intro ctx mode t h
  obtain ⟨x', hx', h⟩ := Check.bind_eq_ok.mp h
  obtain ⟨⟨note, form⟩, hty, h⟩ := Check.bind_eq_ok.mp h
  have hsort := typeOf_eq_ok.mp hty
  split at h
  · next elem size hform =>
    cases hform
    obtain ⟨i', hi, h⟩ := Check.bind_eq_ok.mp h
    obtain ⟨rfl, hc⟩ := conclude_eq_ok h
    exact .element (hx hx') hsort (hy hi) hc
  · -- a field is selected by a numeral, since its type depends on the position
    next fs hform =>
    cases hform
    split at h
    · next n hn =>
      split at h
      · exact absurd h reject_ne_ok
      · next pos hpos =>
        obtain ⟨i', hi, h⟩ := Check.bind_eq_ok.mp h
        split at h
        · exact absurd h reject_ne_ok
        · next ty hfield =>
          obtain ⟨rfl, hc⟩ := conclude_eq_ok h
          exact .position (hx hx') hsort hn hpos (hy hi) hfield hc
    · exact absurd h reject_ne_ok
  · exact absurd h reject_ne_ok

theorem Term.isDerived_because (hx : x.IsDerived fuel env) (hy : y.IsDerived fuel env) :
    Term.IsDerived fuel env (.mk (.place loc hw) (.binary .because x y)) := by
  intro ctx mode t h
  obtain ⟨reason, hreason, h⟩ := Check.bind_eq_ok.mp h
  split at h
  · next hmode =>
    obtain ⟨x', hx', h⟩ := Check.bind_eq_ok.mp h
    obtain ⟨ty, hty, h⟩ := Check.bind_eq_ok.mp h
    cases h
    exact .because hmode (hy hreason) (hx hx') (typeOf_eq_ok.mp hty)
  · next expected hmode =>
    obtain ⟨x', hx', h⟩ := Check.bind_eq_ok.mp h
    cases h
    exact .becauseOf hmode (hy hreason) (hx hx')

theorem Term.isDerived_compare (op : RelOp) (hx : x.IsDerived fuel env)
    (hy : y.IsDerived fuel env) :
    Term.IsDerived fuel env (.mk (.place loc hw) (.binary (.compare op) x y)) := by
  intro ctx mode t h
  obtain ⟨⟨x', y'⟩, hxy, h⟩ := Check.bind_eq_ok.mp h
  obtain ⟨ty, hty, h⟩ := Check.bind_eq_ok.mp h
  split at h
  · exact absurd h reject_ne_ok
  · next hordered =>
    obtain ⟨rfl, hc⟩ := conclude_eq_ok h
    refine .compare (acceptsPair_of_elaborate hx hy hxy) (typeOf_eq_ok.mp hty) (fun ho => ?_) hc
    simpa [ho, Option.isSome_iff_ne_none] using hordered

theorem Term.isDerived_arith (op : ArithOp) (hx : x.IsDerived fuel env)
    (hy : y.IsDerived fuel env) :
    Term.IsDerived fuel env (.mk (.place loc hw) (.binary (.arith op) x y)) := by
  intro ctx mode t h
  simp only [Term.elaborate, Form.elaborate] at h
  split at h
  · next expected hmode =>
    obtain ⟨hmode, hint⟩ := Option.filter_eq_some_iff.mp hmode
    obtain ⟨x', hx', h⟩ := Check.bind_eq_ok.mp h
    obtain ⟨y', hy', h⟩ := Check.bind_eq_ok.mp h
    cases h
    exact .arithOf hmode hint (hx hx') (hy hy')
  · obtain ⟨⟨x', y'⟩, hxy, h⟩ := Check.bind_eq_ok.mp h
    obtain ⟨ty, hty, h⟩ := Check.bind_eq_ok.mp h
    split at h
    · exact absurd h reject_ne_ok
    · next hint =>
      obtain ⟨rfl, hc⟩ := conclude_eq_ok h
      exact .arith (acceptsPair_of_elaborate hx hy hxy) (typeOf_eq_ok.mp hty)
        (by simpa [Option.isSome_iff_ne_none] using hint) hc

theorem Term.isDerived_binary (op : Binary) (hx : x.IsDerived fuel env)
    (hy : y.IsDerived fuel env) :
    Term.IsDerived fuel env (.mk (.place loc hw) (.binary op x y)) := by
  cases op with
  | subscript => exact Term.isDerived_subscript hx hy
  | because => exact Term.isDerived_because hx hy
  | compare op => exact Term.isDerived_compare op hx hy
  | arith op => exact Term.isDerived_arith op hx hy
  | arrayT =>
    intro ctx mode t h
    obtain ⟨ty, hty, h⟩ := Check.bind_eq_ok.mp h
    obtain ⟨size, hsize, h⟩ := Check.bind_eq_ok.mp h
    obtain ⟨rfl, hc⟩ := conclude_eq_ok h
    exact .arrayT (hx hty) (hy hsize) hc
  | refT =>
    intro ctx mode t h
    obtain ⟨ty, hty, h⟩ := Check.bind_eq_ok.mp h
    obtain ⟨region, hregion, h⟩ := Check.bind_eq_ok.mp h
    obtain ⟨rfl, hc⟩ := conclude_eq_ok h
    exact .refT (hx hty) (hy hregion) hc
  | logic op =>
    intro ctx mode t h
    obtain ⟨x', hx', h⟩ := Check.bind_eq_ok.mp h
    obtain ⟨y', hy', h⟩ := Check.bind_eq_ok.mp h
    obtain ⟨rfl, hc⟩ := conclude_eq_ok h
    exact .logic (hx hx') (hy hy') hc

theorem Term.isDerived_app {f : Written} {args : List Written} (hf : f.IsDerived fuel env)
    (hargs : ∀ {ctx s args' rest}, elaborateArgs fuel env ctx args s = .ok (args', rest) →
      AcceptsArgs fuel env ctx args s args' rest) :
    Term.IsDerived fuel env (.mk (.place loc hw) (.app f args)) := by
  intro ctx mode t h
  obtain ⟨f', hf', h⟩ := Check.bind_eq_ok.mp h
  split at h
  · exact absurd h reject_ne_ok
  next s hs =>
  split at h
  · exact absurd h reject_ne_ok
  next hm =>
  split at h
  · exact absurd h reject_ne_ok
  next harity =>
  obtain ⟨⟨args', rest⟩, hargs', h⟩ := Check.bind_eq_ok.mp h
  obtain ⟨rfl, hc⟩ := conclude_eq_ok h
  exact .app (hf hf') hs hm (Decidable.not_not.mp harity) (hargs hargs') hc

theorem Term.isDerived_list {xs : List Written}
    (helements : ∀ {ctx ty xs'}, elaborateElements fuel env ctx ty xs = .ok xs' →
      AcceptsElements fuel env ctx ty xs xs')
    (hfields : ∀ {ctx fs xs'}, elaborateFields fuel env ctx xs fs = .ok xs' →
      AcceptsFields fuel env ctx xs fs xs') :
    Term.IsDerived fuel env (.mk (.place loc hw) (.list xs)) := by
  intro ctx mode t h
  simp only [Term.elaborate, Form.elaborate] at h
  split at h
  · exact absurd h reject_ne_ok
  next expected hmode =>
  obtain ⟨xs', hxs, h⟩ := Check.bind_eq_ok.mp h
  cases h
  unfold elaborateList at hxs
  split at hxs
  · next elem size hform =>
    obtain ⟨⟨note, n⟩, hsize, hxs⟩ := Check.bind_eq_ok.mp hxs
    split at hxs
    · next n hn =>
      cases hn
      split at hxs
      · next hlen =>
        rw [hlen] at hsize
        exact .array hmode hform hsize (helements hxs)
      · exact absurd hxs reject_ne_ok
    · exact absurd hxs reject_ne_ok
  · next hform hlen =>
    cases List.length_eq_zero_iff.mp hlen
    cases hxs
    exact .unit hmode hform
  · next cond hform hlen =>
    cases List.length_eq_zero_iff.mp hlen
    obtain ⟨proved, hproved, hxs⟩ := Check.bind_eq_ok.mp hxs
    cases proved with
    | true => cases hxs; exact .proof hmode hform hproved
    | false => exact absurd hxs reject_ne_ok
  · split at hxs
    · next fs hfs =>
      split at hxs
      · exact absurd hxs reject_ne_ok
      · next hlen => exact .struct hmode hfs (Decidable.not_not.mp hlen) (hfields hxs)
    · exact absurd hxs reject_ne_ok

theorem Term.isDerived_bind {k : Binder} {b : Tele .written k} (hb : b.IsDerived fuel env) :
    Term.IsDerived fuel env (.mk (.place loc hw) (.bind k b)) := by
  intro ctx mode t h
  cases k with
  | sigma =>
    obtain ⟨fs, hfs, h⟩ := Check.bind_eq_ok.mp h
    obtain ⟨rfl, hc⟩ := conclude_eq_ok h
    exact .sigma (hb hfs) hc
  | pi =>
    obtain ⟨s, hs, h⟩ := Check.bind_eq_ok.mp h
    obtain ⟨rfl, hc⟩ := conclude_eq_ok h
    exact .pi (hb hs) hc
  | abs =>
    obtain ⟨f, hf, h⟩ := Check.bind_eq_ok.mp h
    obtain ⟨rfl, hc⟩ := conclude_eq_ok h
    exact .abs (hb hf) hc

end

mutual

/-- Whatever the checker returns for a term is derived by the rules. -/
theorem Term.accepts_of_elaborate : ∀ e : Written, e.IsDerived fuel env
  | .mk (.place _ _) (.atom _), _, _, _, h => .atom h
  | .mk (.place _ _) (.var _), _, _, _, h => by
    obtain ⟨x', hx, h⟩ := Check.bind_eq_ok.mp h
    obtain ⟨rfl, hc⟩ := conclude_eq_ok h
    exact .var hx hc
  | .mk (.place _ _) (.unary op x), _, _, _, h =>
    Term.isDerived_unary op (Term.accepts_of_elaborate x) h
  | .mk (.place _ _) (.binary op x y), _, _, _, h =>
    Term.isDerived_binary op (Term.accepts_of_elaborate x) (Term.accepts_of_elaborate y) h
  | .mk (.place _ _) (.app f args), _, _, _, h =>
    Term.isDerived_app (Term.accepts_of_elaborate f) (acceptsArgs_of_elaborate args) h
  | .mk (.place _ _) (.list xs), _, _, _, h =>
    Term.isDerived_list (acceptsElements_of_elaborate xs) (acceptsFields_of_elaborate xs _) h
  | .mk (.place _ _) (.bind _ t), _, _, _, h => Term.isDerived_bind (Tele.accepts_of_elaborate t) h

theorem acceptsElements_of_elaborate : ∀ (xs : List Written)
    {ctx : Context} {ty : Checked} {xs' : List Checked},
    elaborateElements fuel env ctx ty xs = .ok xs' → AcceptsElements fuel env ctx ty xs xs'
  | [], _, _, _, h => by cases h; exact .nil
  | x :: xs, _, _, _, h => by
    obtain ⟨x', hx, h⟩ := Check.bind_eq_ok.mp h
    obtain ⟨xs', hxs, h⟩ := Check.bind_eq_ok.mp h
    cases h
    exact .cons (Term.accepts_of_elaborate x hx) (acceptsElements_of_elaborate xs hxs)

theorem acceptsFields_of_elaborate : ∀ (xs : List Written)
    (fs : Fields .checked) {ctx : Context} {xs' : List Checked},
    elaborateFields fuel env ctx xs fs = .ok xs' → AcceptsFields fuel env ctx xs fs xs'
  | [], _, _, _, h => by cases h; exact .nil
  | _ :: _, .fields, _, _, h => by cases h; exact .fields
  | x :: xs, .arg _ _ _ v rest, _, _, h => by
    obtain ⟨x', hx, h⟩ := Check.bind_eq_ok.mp h
    obtain ⟨xs', hxs, h⟩ := Check.bind_eq_ok.mp h
    cases h
    exact .cons (Term.accepts_of_elaborate x hx) (acceptsFields_of_elaborate xs _ hxs)

theorem acceptsArgs_of_elaborate : ∀ (xs : List Written)
    {s : Signature .checked} {ctx : Context} {xs' : List Checked} {rest : Signature .checked},
    elaborateArgs fuel env ctx xs s = .ok (xs', rest) → AcceptsArgs fuel env ctx xs s xs' rest
  | [], _, _, _, _, h => by cases h; exact .nil
  | _ :: _, .returns _ _, _, _, _, h => by cases h; exact .returns
  | x :: xs, .arg _ _ _ v rest, _, _, _, h => by
    obtain ⟨x', xs', s, hx, hxs, hr⟩ := elaborateArgs_cons_eq_ok.mp h
    cases hr
    split at hx
    · -- the value that is found goes into the types of the later arguments like a given one
      next hauto =>
      exact .auto hauto (acceptsAuto_of_resolve xs hx) (acceptsArgs_of_elaborate xs hxs)
    · next hauto =>
      exact .cons (Bool.eq_false_iff.mpr hauto) (Term.accepts_of_elaborate x hx)
        (acceptsArgs_of_elaborate xs hxs)

theorem acceptsAuto_of_resolve : ∀ (xs : List Written)
    {s : Signature .checked} {ctx : Context} {loc : Location} {ty : Checked} {v : Option Var}
    {value : Checked}, resolveAuto fuel env ctx loc ty v xs s = .ok value →
      AcceptsAuto fuel env ctx ty v xs s value
  | [], _, _, _, _, _, _, h => absurd h reject_ne_ok
  | _ :: _, .returns _ _, _, _, _, _, _, h => absurd h reject_ne_ok
  | _ :: _, .arg _ _ _ _ _, _, _, _, none, _, h => absurd h reject_ne_ok
  | x :: xs, .arg _ _ formal _ rest, _, _, _, some v, _, h => by
    simp only [resolveAuto] at h
    split at h
    · exact .later (acceptsAuto_of_resolve xs h)
    split at h
    · cases h
    · exact .later (acceptsAuto_of_resolve xs h)
    next x' hx =>
    split at h
    · exact .later (acceptsAuto_of_resolve xs h)
    next value hvalue =>
    obtain ⟨sort, hsort, hmatch⟩ := Option.bind_eq_some_iff.mp hvalue
    split at h
    · exact absurd h reject_ne_ok
    next valueSort hvs =>
    obtain ⟨same, hsame, h⟩ := Check.bind_eq_ok.mp h
    cases same with
    | true =>
      cases h
      exact .found (Term.accepts_of_elaborate x hx) hsort hmatch hvs hsame
    | false => exact absurd h reject_ne_ok

theorem Tele.accepts_of_elaborate {k : Binder} : ∀ t : Tele .written k, t.IsDerived fuel env
  | .fields, _, _, _, h => by cases h; exact .fields
  | .returns m ret, _, _, _, h => by
    obtain ⟨ret', hret, h⟩ := Check.bind_eq_ok.mp h
    cases h
    exact .returns (Term.accepts_of_elaborate ret hret)
  | .runs m ret body, _, _, _, h => by
    obtain ⟨ret', hret, h⟩ := Check.bind_eq_ok.mp h
    obtain ⟨body', hbody, h⟩ := Check.bind_eq_ok.mp h
    split at h
    · next hreturns =>
      cases h
      exact .runs (Term.accepts_of_elaborate ret hret) (acceptsBody_of_elaborate body hbody)
        hreturns
    · exact absurd h reject_ne_ok
  | .arg mark qty ty v rest, _, _, _, h => by
    obtain ⟨ty', hty, h⟩ := Check.bind_eq_ok.mp h
    obtain ⟨ctx', hctx, h⟩ := Check.bind_eq_ok.mp h
    obtain ⟨rest', hrest, h⟩ := Check.bind_eq_ok.mp h
    cases h
    exact .arg (Term.accepts_of_elaborate ty hty) hctx (Tele.accepts_of_elaborate rest hrest)

theorem Stmt.accepts_of_elaborate : ∀ (s : Stmt .written)
    {ctx : Context} {ret : Checked} {s' : Stmt .checked},
    s.elaborate fuel env ctx ret = .ok s' → Stmt.Accepts fuel env ctx ret s s'
  | .call loc x, _, _, _, h => by
    simp only [Stmt.elaborate] at h
    split at h
    · next hcall =>
      obtain ⟨x', hx, h⟩ := Check.bind_eq_ok.mp h
      cases h
      exact .call hcall (Term.accepts_of_elaborate x hx)
    · exact absurd h reject_ne_ok
  | .ifThen _ cond yes, _, _, _, h => by
    obtain ⟨cond', hcond, h⟩ := Check.bind_eq_ok.mp h
    obtain ⟨yes', hyes, h⟩ := Check.bind_eq_ok.mp h
    cases h
    exact .ifThen (Term.accepts_of_elaborate cond hcond) (acceptsBody_of_elaborate yes hyes)
  | .ifElse _ cond yes no, _, _, _, h => by
    obtain ⟨cond', hcond, h⟩ := Check.bind_eq_ok.mp h
    obtain ⟨yes', hyes, h⟩ := Check.bind_eq_ok.mp h
    obtain ⟨no', hno, h⟩ := Check.bind_eq_ok.mp h
    cases h
    exact .ifElse (Term.accepts_of_elaborate cond hcond) (acceptsBody_of_elaborate yes hyes)
      (acceptsBody_of_elaborate no hno)
  | .ret _ x, _, _, _, h => by
    obtain ⟨x', hx, h⟩ := Check.bind_eq_ok.mp h
    cases h
    exact .ret (Term.accepts_of_elaborate x hx)
  | .retUnit loc, _, _, _, h => by
    simp only [Stmt.elaborate] at h
    split at h
    · next hunit => cases h; exact .retUnit hunit
    · exact absurd h reject_ne_ok
  | .impossible loc, _, _, _, h => by
    obtain ⟨facts, hfacts, h⟩ := Check.bind_eq_ok.mp h
    split at h
    · next hcontra => cases h; exact .impossible hfacts hcontra
    · exact absurd h reject_ne_ok
  | .impossibleBy _ reason, _, _, _, h => by
    obtain ⟨reason', hreason, h⟩ := Check.bind_eq_ok.mp h
    cases h
    exact .impossibleBy (Term.accepts_of_elaborate reason hreason)

theorem acceptsBody_of_elaborate : ∀ (b : Body .written)
    {ctx : Context} {ret : Checked} {b' : Body .checked},
    elaborateStmts fuel env ctx ret b = .ok b' → AcceptsBody fuel env ctx ret b b'
  | [], _, _, _, h => by cases h; exact .nil
  | s :: rest, _, _, _, h => by
    obtain ⟨s', hs, h⟩ := Check.bind_eq_ok.mp h
    obtain ⟨rest', hrest, h⟩ := Check.bind_eq_ok.mp h
    cases h
    exact .cons (Stmt.accepts_of_elaborate s hs) (acceptsBody_of_elaborate rest hrest)

end

end

end DependentCore
