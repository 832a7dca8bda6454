import DependentCore.Reduction.Normal

/-!
# Rewriting rules

Normalisation as a system of rules. `Rewrites env stack a b changed` says that a pass over `a` may
give `b`. A rule forgets the fuel, and the number of attempts to unfold: it lets a definition be
unfolded or not. All passes share one relation; the `Subject` says what a pass is over.

* `Term.Steps`: the steps at the root of a term by beta reduction and folding,
* `PrunesIf`: what an `if` is replaced by,
* `Rewrites`: the rules,
* `rewrites_of_run`: whatever normalisation returns is derived by the rules.

What holds of every normal form is proved by induction on its derivation.
-/

namespace DependentCore

/-! ## Steps at the root -/

/-- A step at the root of a term that needs no unfolding. -/
inductive Term.Steps (env : Env) : Checked → Checked → Prop where
  | because {note x reason} : Term.Steps env (.mk note (.binary .because x reason)) x
  | supply {note fnote f args} : args ≠ [] → f.arity = args.length → hasEffectList args = false →
    Term.Steps env (.mk note (.app (.mk fnote (.bind .abs f)) args))
      (.mk note (.app (.mk (fnote.retype (f.apply args).signature) (.bind .abs (f.apply args))) []))
  | ret {note fnote f mark e} : f.body? = some [.ret mark e] →
    Term.Steps env (.mk note (.app (.mk fnote (.bind .abs f)) [])) e
  | not {note xnote b} :
    Term.Steps env (.mk note (.unary .not (.mk xnote (.atom (.lit b)))))
      (.mk note (.atom (.lit !b)))
  | logic {note op xnote ynote a b} :
    Term.Steps env
      (.mk note (.binary (.logic op) (.mk xnote (.atom (.lit a))) (.mk ynote (.atom (.lit b)))))
      (.mk note (.atom (.lit (op.eval a b))))
  | compare {note op x y o} : compareLiterals? x.form y.form = some o →
    Term.Steps env (.mk note (.binary (.compare op) x y)) (.mk note (.atom (.lit (op.eval o))))
  | arith {note op x y n} : arithResult? env note.sort? op x.form y.form = some n →
    Term.Steps env (.mk note (.binary (.arith op) x y)) (.mk note (.atom (.num n)))
  | member {note field x u} : selectMember? env x field = some u →
    Term.Steps env (.mk note (.unary (.member field) x)) u
  | element {note x i u} : selectElement? x i = some u →
    Term.Steps env (.mk note (.binary .subscript x i)) u
  | slice {note fnote g args xs} : env.isBuiltinSlice g → dropElements? args = some xs →
    Term.Steps env (.mk note (.app (.mk fnote (.atom (.global g))) args)) (.mk note (.list xs))

theorem Term.steps_of_beta? {env : Env} {t u : Checked} (h : t.beta? = some u) :
    Term.Steps env t u := by
  unfold Term.beta? at h
  split at h
  · cases h
    exact .because
  · unfold betaApply? at h
    split at h
    · next hbody =>
      cases h
      exact .ret hbody
    · cases h
    · split at h
      · next hcond =>
        cases h
        simp only [Bool.and_eq_true, decide_eq_true_eq, Bool.not_eq_true'] at hcond
        exact .supply (List.cons_ne_nil _ _) hcond.1 hcond.2
      · cases h
  · cases h

theorem Term.steps_of_fold? {env : Env} {t u : Checked} (h : t.fold? env = some u) :
    Term.Steps env t u := by
  unfold Term.fold? at h
  split at h
  · cases h
    exact .not
  · cases h
    exact .logic
  · obtain ⟨o, ho, rfl⟩ := Option.map_eq_some_iff.mp h
    exact .compare ho
  · obtain ⟨n, hn, rfl⟩ := Option.map_eq_some_iff.mp h
    exact .arith hn
  · exact .member h
  · exact .element h
  · split at h
    · next hslice =>
      obtain ⟨xs, hxs, rfl⟩ := Option.map_eq_some_iff.mp h
      exact .slice hslice hxs
    · cases h
  · cases h

/-! ## Selection from lists -/

section
variable {env : Env}

theorem Form.pureElements?_eq_some {f : Form .checked} {xs : List Checked}
    (h : f.pureElements? = some xs) : f = .list xs := by
  unfold Form.pureElements? at h
  split at h
  · split at h
    · cases h
    · cases h
      rfl
  · cases h

theorem selectMember?_eq_some {x u : Checked} {field : String}
    (h : selectMember? env x field = some u) :
    ∃ xs ty fs i, x.form = .list xs ∧ x.sort? = some ty ∧ env.fields? ty = some fs ∧
      fs.positionOf? field = some i ∧ xs[i]? = some u := by
  obtain ⟨xs, hxs, h⟩ := Option.bind_eq_some_iff.mp h
  obtain ⟨ty, hty, h⟩ := Option.bind_eq_some_iff.mp h
  obtain ⟨fs, hfs, h⟩ := Option.bind_eq_some_iff.mp h
  obtain ⟨i, hi, h⟩ := Option.bind_eq_some_iff.mp h
  exact ⟨xs, ty, fs, i, Form.pureElements?_eq_some hxs, hty, hfs, hi, h⟩

theorem selectElement?_eq_some {x y u : Checked} (h : selectElement? x y = some u) :
    ∃ xs n i, x.form = .list xs ∧ y.form = .atom (.num n) ∧ position? n = some i ∧
      xs[i]? = some u := by
  unfold selectElement? at h
  split at h
  · next n hn =>
    obtain ⟨xs, hxs, h⟩ := Option.bind_eq_some_iff.mp h
    obtain ⟨i, hi, h⟩ := Option.bind_eq_some_iff.mp h
    exact ⟨xs, n, i, Form.pureElements?_eq_some hxs, hn, hi, h⟩
  · cases h

/-- What is left of an initializer list is part of a list among the arguments. -/
theorem dropElements?_eq_some {args xs : List Checked} (h : dropElements? args = some xs) :
    ∃ note ys, .mk note (.list ys) ∈ args ∧ xs.Sublist ys := by
  unfold dropElements? at h
  split at h
  · next note ys _ _ _ =>
    obtain ⟨i, -, h⟩ := Option.bind_eq_some_iff.mp h
    split at h
    · cases h
      exact ⟨note, ys, by simp, List.drop_sublist i ys⟩
    · cases h
  · cases h

end

/-! ## Reduction at the root -/

/-- Beta reduction and folding at the root of a term. -/
def Term.reduce (env : Env) (t : Checked) : Rewritten Checked :=
  let beta := Rewritten.ofStep t t.beta?
  let fold := Rewritten.ofStep beta.result (beta.result.fold? env)
  ⟨fold.result, beta.changed || fold.changed⟩

/-- What every step keeps is kept by an optional one. -/
theorem Rewritten.ofStep_induction {α : Type} {P : α → Prop} {a : α} {step : Option α} (h : P a)
    (hstep : ∀ b, step = some b → P b) : P (Rewritten.ofStep a step).result := by
  cases step with
  | none => exact h
  | some b => exact hstep b rfl

/-- What every step at the root keeps is kept by beta reduction and folding. -/
theorem Term.reduce_induction {env : Env} {P : Checked → Prop}
    (hstep : ∀ t u, P t → Term.Steps env t u → P u) {t : Checked} (h : P t) :
    P (t.reduce env).result := by
  have hbeta : P (Rewritten.ofStep t t.beta?).result :=
    Rewritten.ofStep_induction h fun u hu => hstep t u h (Term.steps_of_beta? hu)
  exact Rewritten.ofStep_induction hbeta fun u hu => hstep _ u hbeta (Term.steps_of_fold? hu)

/-! ## Pruning -/

/-- An `if` in front of the statements `rest` is replaced by the branch that a literal condition
selects, or by the one that is left if the other is impossible. Without an else, `rest` takes the
place of the other branch. The flag says whether `rest` is dropped. -/
inductive PrunesIf (cond : Checked) (yes rest : Body .checked) :
    Option (Body .checked) → Body .checked → Bool → Prop where
  | literalTrue {no} : cond.isLit true → PrunesIf cond yes rest no yes false
  | literalFalse {no} : cond.isLit true = false → cond.isLit false →
    PrunesIf cond yes rest no (no.getD []) false
  | second {no} : (∀ b, cond.isLit b = false) → cond.hasEffect = false → endsImpossible yes →
    PrunesIf cond yes rest no (no.getD []) false
  | first {no} : (∀ b, cond.isLit b = false) → cond.hasEffect = false → endsImpossible no →
    PrunesIf cond yes rest (some no) yes false
  | take : (∀ b, cond.isLit b = false) → cond.hasEffect = false → endsImpossible rest →
    PrunesIf cond yes rest none yes true

theorem prunesIf_of_outcomeOfIf? {cond : Checked} {yes : Body .checked}
    {no : Option (Body .checked)} {rest spliced : Body .checked} {dropRest : Bool}
    (h : outcomeOfIf? cond yes no rest = some (spliced, dropRest)) :
    PrunesIf cond yes rest no spliced dropRest := by
  unfold outcomeOfIf? at h
  split at h
  · next htrue =>
    cases h
    exact .literalTrue htrue
  next htrue =>
  have htrue := eq_false_of_ne_true htrue
  split at h
  · next hfalse =>
    cases h
    exact .literalFalse htrue hfalse
  next hfalse =>
  have hlit : ∀ b, cond.isLit b = false := Bool.forall_bool.mpr ⟨eq_false_of_ne_true hfalse, htrue⟩
  split at h
  · cases h
  next heffect =>
  have heffect := eq_false_of_ne_true heffect
  split at h
  · next hyes =>
    cases h
    exact .second hlit heffect hyes
  split at h
  · split at h
    · next hno =>
      cases h
      exact .first hlit heffect hno
    · cases h
  · split at h
    · next hrest =>
      cases h
      exact .take hlit heffect hrest
    · cases h

/-! ## Rules -/

/-- What a pass rewrites. -/
inductive Subject where
  /-- A term, until nothing changes. -/
  | term (t : Checked)
  /-- The parts of a term. -/
  | parts (t : Checked)
  | list (xs : List Checked)
  | tele {k : Binder} (t : Tele .checked k)
  /-- A term that may be a call to unfold. -/
  | call (t : Checked)
  /-- A body, until nothing changes. -/
  | body (b : Body .checked)
  /-- The statements of a body. -/
  | stmts (b : Body .checked)
  | stmt (s : Stmt .checked)

/-- `Rewrites env stack a b changed` says that a pass over `a`, inside the definitions on the stack,
may give `b`, and whether it reports a change. -/
inductive Rewrites (env : Env) : List GlobalName → Subject → Subject → Bool → Prop where
  | again {stack t t₁ t₂ u c₁ c₂ c} : Rewrites env stack (.parts t) (.parts t₁) c₁ →
    Rewrites env stack (.call (t₁.reduce env).result) (.call t₂) c₂ →
    c₁ || (t₁.reduce env).changed || c₂ → Rewrites env stack (.term t₂) (.term u) c →
    Rewrites env stack (.term t) (.term u) true
  | done {stack t t₁ t₂ c₁ c₂} : Rewrites env stack (.parts t) (.parts t₁) c₁ →
    Rewrites env stack (.call (t₁.reduce env).result) (.call t₂) c₂ →
    (c₁ || (t₁.reduce env).changed || c₂) = false → Rewrites env stack (.term t) (.term t₂) false
  | atom {stack note a} : Rewrites env stack (.parts (.mk note (.atom a)))
    (.parts (.mk note (.atom a))) false
  | var {stack note v} : Rewrites env stack (.parts (.mk note (.var v)))
    (.parts (.mk note (.var v))) false
  | unary {stack note op x x' c} : Rewrites env stack (.term x) (.term x') c →
    Rewrites env stack (.parts (.mk note (.unary op x))) (.parts (.mk note (.unary op x'))) c
  | binary {stack note op x x' y y' c d} : Rewrites env stack (.term x) (.term x') c →
    Rewrites env stack (.term y) (.term y') d →
    Rewrites env stack (.parts (.mk note (.binary op x y))) (.parts (.mk note (.binary op x' y')))
      (c || d)
  | app {stack note f f' args args' c d} : Rewrites env stack (.term f) (.term f') c →
    Rewrites env stack (.list args) (.list args') d →
    Rewrites env stack (.parts (.mk note (.app f args))) (.parts (.mk note (.app f' args')))
      (c || d)
  | list {stack note xs xs' c} : Rewrites env stack (.list xs) (.list xs') c →
    Rewrites env stack (.parts (.mk note (.list xs))) (.parts (.mk note (.list xs'))) c
  | bind {stack note k} {t t' : Tele .checked k} {c} : Rewrites env stack (.tele t) (.tele t') c →
    Rewrites env stack (.parts (.mk note (.bind k t))) (.parts (.mk note (.bind k t'))) c
  | nil {stack} : Rewrites env stack (.list []) (.list []) false
  | cons {stack x x' xs xs' c d} : Rewrites env stack (.term x) (.term x') c →
    Rewrites env stack (.list xs) (.list xs') d →
    Rewrites env stack (.list (x :: xs)) (.list (x' :: xs')) (c || d)
  | fields {stack} : Rewrites env stack (.tele .fields) (.tele .fields) false
  | returns {stack m ret ret' c} : Rewrites env stack (.term ret) (.term ret') c →
    Rewrites env stack (.tele (.returns m ret)) (.tele (.returns m ret')) c
  | runs {stack m ret ret' b b' c d} : Rewrites env stack (.term ret) (.term ret') c →
    Rewrites env stack (.body b) (.body b') d →
    Rewrites env stack (.tele (.runs m ret b)) (.tele (.runs m ret' b')) (c || d)
  | arg {stack k mark qty ty ty' v} {rest rest' : Tele .checked k} {c d} :
    Rewrites env stack (.term ty) (.term ty') c → Rewrites env stack (.tele rest) (.tele rest') d →
    Rewrites env stack (.tele (.arg mark qty ty v rest)) (.tele (.arg mark qty ty' v rest'))
      (c || d)
  | unfold {stack t g call u c} : t.unfolding? env stack = some (g, call) →
    Rewrites env (g :: stack) (.term call) (.term u) c → u.isStuck = false →
    Rewrites env stack (.call t) (.call u) true
  | keep {stack t} : Rewrites env stack (.call t) (.call t) false
  | bodyAgain {stack b b₁ b' c d} :
    Rewrites env stack (.stmts (dropUnreachable b).result) (.stmts b₁) c →
    (dropUnreachable b).changed || c || (pruneStmts b₁).changed →
    Rewrites env stack (.body (pruneStmts b₁).result) (.body b') d →
    Rewrites env stack (.body b) (.body b') true
  | bodyDone {stack b b₁ c} :
    Rewrites env stack (.stmts (dropUnreachable b).result) (.stmts b₁) c →
    ((dropUnreachable b).changed || c || (pruneStmts b₁).changed) = false →
    Rewrites env stack (.body b) (.body (pruneStmts b₁).result) false
  | stmtsNil {stack} : Rewrites env stack (.stmts []) (.stmts []) false
  | stmtsStop {stack s s' rest c} : Rewrites env stack (.stmt s) (.stmt s') c → s'.stops →
    Rewrites env stack (.stmts (s :: rest)) (.stmts (s' :: rest)) c
  | stmtsNext {stack s s' rest rest' c d} : Rewrites env stack (.stmt s) (.stmt s') c →
    s'.stops = false → Rewrites env stack (.stmts rest) (.stmts rest') d →
    Rewrites env stack (.stmts (s :: rest)) (.stmts (s' :: rest')) (c || d)
  | stmtCall {stack m x x' c} : Rewrites env stack (.term x) (.term x') c →
    Rewrites env stack (.stmt (.call m x)) (.stmt (.call m x')) c
  | ifThen {stack m cond cond' yes yes' c d} : Rewrites env stack (.term cond) (.term cond') c →
    Rewrites env stack (.body yes) (.body yes') d →
    Rewrites env stack (.stmt (.ifThen m cond yes)) (.stmt (.ifThen m cond' yes')) (c || d)
  | ifElse {stack m cond cond' yes yes' no no' c d e} :
    Rewrites env stack (.term cond) (.term cond') c →
    Rewrites env stack (.body yes) (.body yes') d → Rewrites env stack (.body no) (.body no') e →
    Rewrites env stack (.stmt (.ifElse m cond yes no)) (.stmt (.ifElse m cond' yes' no'))
      (c || d || e)
  | ret {stack m x x' c} : Rewrites env stack (.term x) (.term x') c →
    Rewrites env stack (.stmt (.ret m x)) (.stmt (.ret m x')) c
  | retUnit {stack m} : Rewrites env stack (.stmt (.retUnit m)) (.stmt (.retUnit m)) false
  | impossible {stack m} : Rewrites env stack (.stmt (.impossible m)) (.stmt (.impossible m)) false
  | impossibleBy {stack m x x' c} : Rewrites env stack (.term x) (.term x') c →
    Rewrites env stack (.stmt (.impossibleBy m x)) (.stmt (.impossibleBy m x')) c

/-! ## Soundness of the rules -/

/-- Every result of a rewriting has a property. -/
def Rewriting.Yields {α : Type} (a : Rewriting α) (P : α → Prop) : Prop :=
  ∀ attempts r left, a.run attempts = some (r, left) → P r

namespace Rewriting.Yields

variable {α β : Type}

theorem failure {P : α → Prop} : Yields failure P := by
  intro s r left h
  cases h

theorem pure {P : α → Prop} {a : α} (h : P a) : Yields (pure a) P := by
  intro s r left hr
  cases hr
  exact h

theorem bind {a : Rewriting α} {f : α → Rewriting β} {P : α → Prop} {Q : β → Prop}
    (ha : Yields a P) (hf : ∀ x, P x → Yields (f x) Q) : Yields (a >>= f) Q := by
  intro s r left h
  rw [StateT.run_bind] at h
  obtain ⟨⟨x, s'⟩, hx, hr⟩ := Option.bind_eq_some_iff.mp h
  exact hf x (ha s x s' hx) s' r left hr

theorem any (a : Rewriting α) : Yields a fun _ => True :=
  fun _ _ _ _ => trivial

theorem ite {c : Prop} [Decidable c] {a b : Rewriting α} {P : α → Prop} (ha : c → Yields a P)
    (hb : ¬c → Yields b P) : Yields (if c then a else b) P := by
  split
  · next h => exact ha h
  · next h => exact hb h

end Rewriting.Yields

open Rewriting (Yields)

/-- The results of a rewriting are derived by the rules. -/
def Rewriting.Follows {α : Type} (env : Env) (stack : List GlobalName) (kind : α → Subject) (a : α)
    (m : Rewriting (Rewritten α)) : Prop :=
  Yields m fun r => Rewrites env stack (kind a) (kind r.result) r.changed

open Rewriting (Follows)

/-- Whatever the functions of normalisation return is derived by the rules. -/
theorem rewrites_of_run (env : Env) : ∀ n : Nat,
    (∀ stack t, Follows env stack .term t (normalizeTerm env n stack t)) ∧
    (∀ stack t, Follows env stack .parts t (normalizeParts env n stack t)) ∧
    (∀ stack xs, Follows env stack .list xs (normalizeList env n stack xs)) ∧
    (∀ stack (k : Binder) (t : Tele .checked k),
      Follows env stack .tele t (normalizeTele env n stack t)) ∧
    (∀ stack t, Follows env stack .call t (unfoldCall env n stack t)) ∧
    (∀ stack b, Follows env stack .body b (normalizeBody env n stack b)) ∧
    (∀ stack b, Follows env stack .stmts b (normalizeStmts env n stack b)) ∧
    (∀ stack s, Follows env stack .stmt s (normalizeStmt env n stack s)) := by
  -- the functions call each other with less fuel, so that one induction is about all of them
  intro n
  induction n with
  | zero =>
    refine ⟨?_, ?_, ?_, ?_, ?_, ?_, ?_, ?_⟩ <;> intros
    all_goals exact .failure
  | succ n ih =>
    obtain ⟨term, parts, list, tele, call, body, stmts, stmt⟩ := ih
    refine ⟨?_, ?_, ?_, ?_, ?_, ?_, ?_, ?_⟩
    · intro stack t
      rw [normalizeTerm]
      refine (parts stack t).bind fun ps hps => (call stack _).bind fun u hu => ?_
      refine .ite (fun h => ?_) fun h => ?_
      · refine (term stack _).bind fun r hr => .pure ?_
        exact .again hps hu (by simpa [Term.reduce, Bool.or_assoc] using h) hr
      · exact .pure (.done hps hu (by simpa [Term.reduce, Bool.or_assoc] using h))
    · intro stack t
      obtain ⟨note, form⟩ := t
      cases form with
      | atom a => exact .pure .atom
      | var v => exact .pure .var
      | unary op x => exact (term stack x).bind fun _ hx => .pure (.unary hx)
      | binary op x y =>
        exact (term stack x).bind fun _ hx => (term stack y).bind fun _ hy => .pure (.binary hx hy)
      | app f args =>
        exact (term stack f).bind fun _ hf => (list stack args).bind fun _ ha => .pure (.app hf ha)
      | list xs => exact (list stack xs).bind fun _ hxs => .pure (.list hxs)
      | bind k t => exact (tele stack k t).bind fun _ ht => .pure (.bind ht)
    · intro stack xs
      cases xs with
      | nil => exact .pure .nil
      | cons x xs =>
        exact (term stack x).bind fun _ hx => (list stack xs).bind fun _ hs => .pure (.cons hx hs)
    · intro stack k t
      cases t with
      | fields => exact .pure .fields
      | returns m ret => exact (term stack ret).bind fun _ hr => .pure (.returns hr)
      | runs m ret b =>
        exact (term stack ret).bind fun _ hr => (body stack b).bind fun _ hb => .pure (.runs hr hb)
      | arg mark qty ty v rest =>
        refine (term stack ty).bind fun _ ht => ?_
        exact (tele stack _ rest).bind fun _ hr => .pure (.arg ht hr)
    -- the rules do not count attempts: whether one is left only decides between the two rules
    · intro stack t
      rw [unfoldCall]
      refine (Yields.any _).bind fun attempts _ => ?_
      split
      · next g call attempts hunfold =>
        refine (Yields.any _).bind fun _ _ => (term _ call).bind fun u hu => ?_
        refine .ite (fun _ => .pure .keep) fun h => .pure (.unfold hunfold hu ?_)
        simp only [Bool.or_eq_true, not_or, Bool.not_eq_true] at h
        exact h.1
      · exact .pure .keep
    · intro stack b
      rw [normalizeBody]
      refine (stmts stack _).bind fun ss hss => .ite (fun h => ?_) fun h => ?_
      · exact (body stack _).bind fun r hr => .pure (.bodyAgain hss h hr)
      · exact .pure (.bodyDone hss (Bool.eq_false_iff.mpr h))
    · intro stack b
      cases b with
      | nil => exact .pure .stmtsNil
      | cons s rest =>
        refine (stmt stack s).bind fun s' hs => .ite (fun h => .pure (.stmtsStop hs h)) fun h => ?_
        exact (stmts stack rest).bind fun _ hr =>
          .pure (.stmtsNext hs (Bool.eq_false_iff.mpr h) hr)
    · intro stack s
      cases s with
      | call m x => exact (term stack x).bind fun _ hx => .pure (.stmtCall hx)
      | ifThen m cond yes =>
        refine (term stack cond).bind fun _ hc => ?_
        exact (body stack yes).bind fun _ hy => .pure (.ifThen hc hy)
      | ifElse m cond yes no =>
        refine (term stack cond).bind fun _ hc => (body stack yes).bind fun _ hy => ?_
        exact (body stack no).bind fun _ hn => .pure (.ifElse hc hy hn)
      | ret m x => exact (term stack x).bind fun _ hx => .pure (.ret hx)
      | retUnit m => exact .pure .retUnit
      | impossible m => exact .pure .impossible
      | impossibleBy m x => exact (term stack x).bind fun _ hx => .pure (.impossibleBy hx)

/-- The normal form of a term is derived by the rules. -/
theorem Env.rewrites_of_normalize? {env : Env} {fuel : Nat} {t u : Checked}
    (h : env.normalize? fuel t = some u) : ∃ c, Rewrites env [] (.term t) (.term u) c := by
  obtain ⟨⟨r, left⟩, hr, rfl⟩ := Option.map_eq_some_iff.mp h
  exact ⟨_, (rewrites_of_run env fuel).1 [] t _ _ _ hr⟩

end DependentCore
