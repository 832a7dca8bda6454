import DependentCore.Proofs.Semantics.Substitution
import DependentCore.Proofs.Typing.Coupling

/-!
# Corresponding terms have corresponding outcomes

Two runs of the checker are coupled, and one of two written terms is the other relabeled. Then the
checker accepts both, rejects both or runs out of fuel on both, and what it returns corresponds. The
rules are compared one by one; what is left is an induction over written terms.

* `Coupling.Agree`: two terms have corresponding outcomes in all modes,
* `Coupling.Alike`: two terms agree in corresponding contexts,
* `Coupling.FormsAlike.unary`, `Coupling.FormsAlike.app` and companions: one lemma for each rule,
* `Coupling.alike` and companions: relabeled terms are alike.
-/

namespace DependentCore

/-! ## Parts that are accepted -/

/-- A term is accepted in some mode. -/
def Term.Acceptable (fuel : Nat) (env : Env) (ctx : Context) (x : Written) : Prop :=
  ∃ mode t, x.elaborate fuel env ctx mode = .ok t

section
variable {fuel : Nat} {env : Env} {ctx : Context} {x y : Written} {xs : List Written}

/-- Whichever operand gives the type, both are accepted. -/
theorem acceptable_of_elaboratePair {q : Checked × Checked}
    (h : elaboratePair ctx x y (x.elaborate fuel env ctx ·) (y.elaborate fuel env ctx ·) = .ok q) :
    x.Acceptable fuel env ctx ∧ y.Acceptable fuel env ctx := by
  unfold elaboratePair at h
  split at h
  · obtain ⟨y', hy, h⟩ := Check.bind_eq_ok.mp h
    obtain ⟨ty, -, h⟩ := Check.bind_eq_ok.mp h
    obtain ⟨x', hx, -⟩ := Check.bind_eq_ok.mp h
    exact ⟨⟨_, x', hx⟩, _, y', hy⟩
  · obtain ⟨x', hx, h⟩ := Check.bind_eq_ok.mp h
    obtain ⟨ty, -, h⟩ := Check.bind_eq_ok.mp h
    obtain ⟨y', hy, -⟩ := Check.bind_eq_ok.mp h
    exact ⟨⟨_, x', hx⟩, _, y', hy⟩

/-- The operands of an operation that is accepted are accepted, whether a type was asked for or
not. -/
theorem acceptable_of_arith {op : ArithOp} {loc : Location} {mode : Mode} {t : Checked}
    (h : (Form.binary (.arith op) x y).elaborate fuel env ctx loc mode = .ok t) :
    x.Acceptable fuel env ctx ∧ y.Acceptable fuel env ctx := by
  rw [Form.elaborate] at h
  split at h
  · obtain ⟨x', hx, h⟩ := Check.bind_eq_ok.mp h
    obtain ⟨y', hy, -⟩ := Check.bind_eq_ok.mp h
    exact ⟨⟨_, x', hx⟩, _, y', hy⟩
  · obtain ⟨q, hq, -⟩ := Check.bind_eq_ok.mp h
    exact acceptable_of_elaboratePair hq

theorem acceptable_of_elaborateElements {ty : Checked} {xs' : List Checked}
    (h : elaborateElements fuel env ctx ty xs = .ok xs') : ∀ x ∈ xs, x.Acceptable fuel env ctx := by
  induction xs generalizing xs' with
  | nil => exact List.forall_mem_nil _
  | cons x xs ih =>
    obtain ⟨x', hx, h⟩ := Check.bind_eq_ok.mp h
    obtain ⟨xs', hxs, -⟩ := Check.bind_eq_ok.mp h
    exact List.forall_mem_cons.mpr ⟨⟨_, x', hx⟩, ih hxs⟩

/-- As there are as many terms as fields, every term is checked against some field. -/
theorem acceptable_of_elaborateFields {fs : Fields .checked} (harity : xs.length = fs.arity)
    {xs' : List Checked} (h : elaborateFields fuel env ctx xs fs = .ok xs') :
    ∀ x ∈ xs, x.Acceptable fuel env ctx := by
  induction xs generalizing fs xs' with
  | nil => exact List.forall_mem_nil _
  | cons x xs ih =>
    cases fs with
    | fields => cases harity
    | arg _ _ ty v rest =>
      obtain ⟨x', hx, h⟩ := Check.bind_eq_ok.mp h
      obtain ⟨xs', hxs, -⟩ := Check.bind_eq_ok.mp h
      have hlength : xs.length = (rest.instantiate v x').arity := by
        rw [Tele.arity_instantiate]
        exact Nat.succ.inj harity
      exact List.forall_mem_cons.mpr ⟨⟨_, x', hx⟩, ih hlength hxs⟩

/-- An initializer list that is accepted is empty, or its elements are accepted. -/
theorem acceptable_of_elaborateList {loc : Location} {expected : Checked} {xs' : List Checked}
    (h : elaborateList fuel env ctx loc expected xs.length
      (elaborateElements fuel env ctx · xs) (elaborateFields fuel env ctx xs ·) = .ok xs') :
    ∀ x ∈ xs, x.Acceptable fuel env ctx := by
  unfold elaborateList at h
  split at h
  · obtain ⟨size, -, h⟩ := Check.bind_eq_ok.mp h
    split at h
    · split at h
      · exact acceptable_of_elaborateElements h
      · cases h
    · cases h
  · next hlength =>
    cases List.length_eq_zero_iff.mp hlength
    exact List.forall_mem_nil _
  · next hlength =>
    cases List.length_eq_zero_iff.mp hlength
    exact List.forall_mem_nil _
  · split at h
    · split at h
      · cases h
      · next harity => exact acceptable_of_elaborateFields (Decidable.not_not.mp harity) h
    · cases h

/-- Every argument of a call that is accepted is a placeholder or accepted in some mode. -/
theorem acceptable_of_elaborateArgs {s : Signature .checked} (harity : s.arity = xs.length)
    {r : List Checked × Signature .checked} (h : elaborateArgs fuel env ctx xs s = .ok r) :
    ∀ x ∈ xs, x.isAuto = false → x.Acceptable fuel env ctx := by
  induction xs generalizing s r with
  | nil => exact List.forall_mem_nil _
  | cons x xs ih =>
    cases s with
    | returns => cases harity
    | arg _ _ ty v rest =>
      obtain ⟨x', xs', s', hx, hxs, -⟩ := elaborateArgs_cons_eq_ok.mp h
      have harity' : (rest.instantiate v x').arity = xs.length := by
        rw [Tele.arity_instantiate]
        exact Nat.succ.inj harity
      refine List.forall_mem_cons.mpr ⟨fun hauto => ?_, ih harity' hxs⟩
      rw [hauto] at hx
      exact ⟨_, x', hx⟩

end

namespace Coupling

variable (c : Coupling)

/-! ## Terms that are alike -/

/-- Two terms have corresponding outcomes in all modes. -/
def Agree (ctx ctx' : Context) (x x' : Written) : Prop :=
  ∀ mode, mode.Everywhere c.Node → Check.Coupled c.early c.Terms
    (x.elaborate c.fuel c.env ctx mode) (x'.elaborate c.fuel' c.env' ctx' (mode.relabel c.σ))

/-- Two terms correspond, and they agree in corresponding contexts, unless only what the first run
accepts is compared and it does not accept the first term. -/
structure Alike (V : Var → Prop) (x x' : Written) : Prop where
  relabels : x.Relabels c.σ c.Mentions V x'
  agree : ∀ {ctx ctx' : Context}, c.Contexts V ctx ctx' →
    (c.strict → x.Acceptable c.fuel c.env ctx) → c.Agree ctx ctx' x x'

/-- Two forms have corresponding outcomes in corresponding contexts. -/
def FormsAlike (V : Var → Prop) (f f' : Form .written) : Prop :=
  ∀ ⦃ctx ctx' : Context⦄ (loc loc' : Location), c.Contexts V ctx ctx' →
    c.Modes c.Terms (fun mode => f.elaborate c.fuel c.env ctx loc mode)
      (fun mode => f'.elaborate c.fuel' c.env' ctx' loc' mode)

/-- Two telescopes have corresponding outcomes in corresponding contexts. -/
def TelesAlike (V : Var → Prop) {k : Binder} (t t' : Tele .written k) : Prop :=
  ∀ ⦃ctx ctx' : Context⦄ (loc loc' : Location), c.Contexts V ctx ctx' → c.SameInner ctx ctx' →
    c.Run c.Teles (t.elaborate c.fuel c.env ctx loc) (t'.elaborate c.fuel' c.env' ctx' loc')

/-- Two statements have corresponding outcomes in corresponding contexts. -/
def StmtsAlike (V : Var → Prop) (s s' : Stmt .written) : Prop :=
  ∀ ⦃ctx ctx' : Context⦄ ⦃ret ret' : Checked⦄, c.Contexts V ctx ctx' → c.Terms ret ret' →
    c.Run c.Stmts (s.elaborate c.fuel c.env ctx ret) (s'.elaborate c.fuel' c.env' ctx' ret')

/-- Two bodies have corresponding outcomes in corresponding contexts. -/
def BodiesAlike (V : Var → Prop) (b b' : List (Stmt .written)) : Prop :=
  ∀ ⦃ctx ctx' : Context⦄ ⦃ret ret' : Checked⦄, c.Contexts V ctx ctx' → c.Terms ret ret' →
    c.Run c.Bodies (elaborateStmts c.fuel c.env ctx ret b)
      (elaborateStmts c.fuel' c.env' ctx' ret' b')

variable {c} {V : Var → Prop} {ctx ctx' : Context} {loc loc' : Location} {x x' y y' : Written}
  {xs xs' : List Written}

namespace Alike

variable (hx : c.Alike V x x') (hctx : c.Contexts V ctx ctx')
include hx hctx

/-- Alike terms have corresponding outcomes in one mode. -/
theorem run {mode mode' : Mode} (hmode : mode' = mode.relabel c.σ ∧ mode.Everywhere c.Node) :
    c.Run c.Terms (x.elaborate c.fuel c.env ctx mode) (x'.elaborate c.fuel' c.env' ctx' mode') := by
  obtain ⟨rfl, hmode⟩ := hmode
  exact fun haccepted => hx.agree hctx (fun hstrict => ⟨mode, haccepted hstrict⟩) mode hmode

theorem assign : c.Run c.Terms (x.elaborate c.fuel c.env ctx .assign)
    (x'.elaborate c.fuel' c.env' ctx' .assign) :=
  hx.run hctx ⟨rfl, .assign⟩

theorem type : c.Run c.Terms (x.elaborate c.fuel c.env ctx .type)
    (x'.elaborate c.fuel' c.env' ctx' .type) :=
  hx.run hctx ⟨rfl, everywhere_mode_type⟩

theorem check {ty ty' : Checked} (hty : c.Terms ty ty') :
    c.Run c.Terms (x.elaborate c.fuel c.env ctx (.check ty))
      (x'.elaborate c.fuel' c.env' ctx' (.check ty')) :=
  hx.run hctx ⟨congrArg Mode.check hty.1, .check hty.2⟩

end Alike

theorem Alike.needsType_eq (hx : c.Alike V x x') : x'.needsType = x.needsType :=
  hx.relabels.kind_eq.2.2.2

theorem Agree.check (hx : c.Agree ctx ctx' x x') {ty ty' : Checked} (hty : c.Terms ty ty') :
    Check.Coupled c.early c.Terms (x.elaborate c.fuel c.env ctx (.check ty))
      (x'.elaborate c.fuel' c.env' ctx' (.check ty')) := by
  obtain ⟨rfl, hty⟩ := hty
  exact hx (.check ty) (.check hty)

/-- The same operand gives the type in both runs, since relabeling does not change which operands
need a type. -/
theorem elaboratePair_coupled (hx : c.Agree ctx ctx' x x') (hy : c.Agree ctx ctx' y y')
    (hneedsX : x'.needsType = x.needsType) (hneedsY : y'.needsType = y.needsType) :
    Check.Coupled c.early (fun q q' => c.Terms q.1 q'.1 ∧ c.Terms q.2 q'.2)
      (elaboratePair ctx x y (x.elaborate c.fuel c.env ctx ·) (y.elaborate c.fuel c.env ctx ·))
      (elaboratePair ctx' x' y' (x'.elaborate c.fuel' c.env' ctx' ·)
        (y'.elaborate c.fuel' c.env' ctx' ·)) := by
  rw [elaboratePair, elaboratePair, hneedsX, hneedsY]
  refine .ite ?_ ?_
  · refine (hy .assign .assign).bind fun y₁ y₁' hy₁ => ?_
    refine (typeOf_coupled hy₁).bind fun ty ty' hty => ?_
    exact (hx.check hty).bind fun x₁ x₁' hx₁ => .pure ⟨hx₁, hy₁⟩
  · refine (hx .assign .assign).bind fun x₁ x₁' hx₁ => ?_
    refine (typeOf_coupled hx₁).bind fun ty ty' hty => ?_
    exact (hy.check hty).bind fun y₁ y₁' hy₁ => .pure ⟨hx₁, hy₁⟩

/-- The operands of a pair that is accepted are accepted, so they agree in all modes. -/
theorem Alike.pair (hx : c.Alike V x x') (hy : c.Alike V y y') (hctx : c.Contexts V ctx ctx') :
    c.Run (fun q q' => c.Terms q.1 q'.1 ∧ c.Terms q.2 q'.2)
      (elaboratePair ctx x y (x.elaborate c.fuel c.env ctx ·) (y.elaborate c.fuel c.env ctx ·))
      (elaboratePair ctx' x' y' (x'.elaborate c.fuel' c.env' ctx' ·)
        (y'.elaborate c.fuel' c.env' ctx' ·)) := by
  intro haccepted
  have hacceptable (hstrict : c.strict) : x.Acceptable c.fuel c.env ctx ∧
      y.Acceptable c.fuel c.env ctx := by
    obtain ⟨_, hq⟩ := haccepted hstrict
    exact acceptable_of_elaboratePair hq
  exact elaboratePair_coupled (hx.agree hctx fun hstrict => (hacceptable hstrict).1)
    (hy.agree hctx fun hstrict => (hacceptable hstrict).2) hx.needsType_eq hy.needsType_eq

/-! ## Atoms, variables and operators -/

namespace FormsAlike

/-- A numeral or `typename` may depend on the mode; the type of any other atom is determined first.
-/
theorem atom {a : Atom} (ha : ∀ g, a = .global g → c.Mentions g) :
    c.FormsAlike V (.atom a) (.atom a) := by
  intro ctx ctx' loc loc' hctx
  cases a with
  | num n =>
    intro _ mode hmode
    simp only [Form.elaborate, elaborateAtom, Mode.expected?_relabel]
    cases hexpected : mode.expected? with
    | none => exact .reject
    | some expected => exact elaborateNumeral_coupled n (hmode expected hexpected)
  | typename =>
    intro _ mode hmode
    have htypename : c.Terms Checked.typename Checked.typename := ⟨rfl, everywhere_typename⟩
    cases mode with
    | assign | type => exact .ok htypename
    | check ty =>
      simp only [Form.elaborate, elaborateAtom, assignAtom, Check.ok_bind]
      exact conclude_coupled htypename hmode
  | _ => exact .bind (assignAtom_run ha) fun _ _ ht => conclude_modes ht

/-- Corresponding contexts give a variable corresponding types. -/
theorem var {v : Var} (hv : V v) : c.FormsAlike V (.var v) (.var (v.relabel c.σ)) := by
  intro ctx ctx' loc loc' hctx
  exact .bind (.of_coupled (assignVar_coupled hctx hv)) fun _ _ ht => conclude_modes ht

/-- The operand is checked against a fixed type, or its type is determined. Both runs look at the
same parts of it. -/
theorem unary (op : Unary) (hx : c.Alike V x x') :
    c.FormsAlike V (.unary op x) (.unary (op.relabel c.σ) x') := by
  intro ctx ctx' loc loc' hctx
  have hbool : c.Terms Checked.bool Checked.bool := ⟨rfl, everywhere_bool⟩
  cases op with
  | trueT =>
    simp only [Unary.relabel, Form.elaborate]
    refine .bind (hx.check hctx hbool) ?_
    rintro x₁ _ ⟨rfl, hx₁⟩
    exact conclude_modes ⟨rfl, trivial, everywhere_typename, hx₁⟩
  | addressOf =>
    simp only [Unary.relabel, Form.elaborate, hx.relabels.kind_eq.1]
    refine .ite (.bind (hx.assign hctx) fun x₁ x₁' hx₁ => ?_) .reject
    refine .bind (.of_coupled (typeOf_coupled hx₁)) ?_
    rintro ty _ ⟨rfl, hty⟩
    obtain ⟨rfl, hx₁⟩ := hx₁
    have hregion : (Checked.scopeOf x₁).Everywhere c.Node := ⟨trivial, everywhere_scope, hx₁⟩
    exact conclude_modes ⟨rfl, trivial, ⟨trivial, everywhere_typename, hty, hregion⟩, hx₁⟩
  | deref =>
    simp only [Unary.relabel, Form.elaborate]
    refine .bind (hx.assign hctx) fun x₁ x₁' hx₁ => ?_
    refine .bind (.of_coupled (typeOf_coupled hx₁)) ?_
    rintro ⟨note, form⟩ _ ⟨rfl, hty⟩
    obtain ⟨rfl, hx₁⟩ := hx₁
    cases form with
    | binary op ty region =>
      cases op with
      | refT => exact conclude_modes ⟨rfl, trivial, hty.2.2.1, hx₁⟩
      | _ => exact .reject
    | _ => exact .reject
  | scopeOf =>
    simp only [Unary.relabel, Form.elaborate]
    refine .bind (hx.assign hctx) ?_
    rintro x₁ _ ⟨rfl, hx₁⟩
    exact conclude_modes ⟨rfl, trivial, everywhere_scope, hx₁⟩
  | not =>
    simp only [Unary.relabel, Form.elaborate]
    refine .bind (hx.check hctx hbool) ?_
    rintro x₁ _ ⟨rfl, hx₁⟩
    exact conclude_modes ⟨rfl, trivial, everywhere_bool, hx₁⟩
  | member field =>
    simp only [Unary.relabel, Form.elaborate]
    refine .bind (hx.assign hctx) fun x₁ x₁' hx₁ => ?_
    exact .bind (.of_coupled (assignMember_coupled hx₁ field)) fun _ _ ht => conclude_modes ht

/-- The rule of an operator that checks each operand in a mode of its own and has one type. -/
theorem conclude_operands (op : Binary) {mode₁ mode₂ : Mode} {sort : Checked}
    (hx : c.Run c.Terms (x.elaborate c.fuel c.env ctx mode₁)
      (x'.elaborate c.fuel' c.env' ctx' mode₁))
    (hy : c.Run c.Terms (y.elaborate c.fuel c.env ctx mode₂)
      (y'.elaborate c.fuel' c.env' ctx' mode₂)) (hsort : c.Terms sort sort) :
    c.Modes c.Terms
      (fun mode => x.elaborate c.fuel c.env ctx mode₁ >>= fun x₁ =>
        y.elaborate c.fuel c.env ctx mode₂ >>= fun y₁ =>
        conclude c.fuel c.env ctx loc mode (Checked.term sort (.binary op x₁ y₁)))
      (fun mode => x'.elaborate c.fuel' c.env' ctx' mode₁ >>= fun x₁ =>
        y'.elaborate c.fuel' c.env' ctx' mode₂ >>= fun y₁ =>
        conclude c.fuel' c.env' ctx' loc' mode (Checked.term sort (.binary op x₁ y₁))) := by
  refine .bind hx ?_
  rintro x₁ _ ⟨rfl, hx₁⟩
  refine .bind hy ?_
  rintro y₁ _ ⟨rfl, hy₁⟩
  have hnode := congrArg
    (fun ty => Checked.term ty (.binary op (x₁.relabel c.σ) (y₁.relabel c.σ))) hsort.1
  exact conclude_modes ⟨hnode, trivial, hsort.2, hx₁, hy₁⟩

theorem arrayT (hx : c.Alike V x x') (hy : c.Alike V y y') :
    c.FormsAlike V (.binary .arrayT x y) (.binary .arrayT x' y') := by
  intro ctx ctx' loc loc' hctx
  simp only [Form.elaborate]
  exact conclude_operands .arrayT (hx.type hctx) (hy.check hctx ⟨rfl, everywhere_u64⟩)
    ⟨rfl, everywhere_typename⟩

theorem refT (hx : c.Alike V x x') (hy : c.Alike V y y') :
    c.FormsAlike V (.binary .refT x y) (.binary .refT x' y') := by
  intro ctx ctx' loc loc' hctx
  simp only [Form.elaborate]
  exact conclude_operands .refT (hx.type hctx) (hy.check hctx ⟨rfl, everywhere_scope⟩)
    ⟨rfl, everywhere_typename⟩

theorem logic (op : BoolOp) (hx : c.Alike V x x') (hy : c.Alike V y y') :
    c.FormsAlike V (.binary (.logic op) x y) (.binary (.logic op) x' y') := by
  intro ctx ctx' loc loc' hctx
  have hbool : c.Terms Checked.bool Checked.bool := ⟨rfl, everywhere_bool⟩
  simp only [Form.elaborate]
  exact conclude_operands (.logic op) (hx.check hctx hbool) (hy.check hctx hbool) hbool

/-- An element of an array has the type of the elements; a field is found by a number that is
written out. -/
theorem subscript (hx : c.Alike V x x') (hy : c.Alike V y y') :
    c.FormsAlike V (.binary .subscript x y) (.binary .subscript x' y') := by
  intro ctx ctx' loc loc' hctx
  have hindex := hy.check hctx ⟨rfl, everywhere_u64⟩
  simp only [Form.elaborate]
  refine .bind (hx.assign hctx) fun x₁ x₁' hx₁ => ?_
  refine .bind (.of_coupled (typeOf_coupled hx₁)) ?_
  rintro ⟨note, form⟩ _ ⟨rfl, hty⟩
  obtain ⟨rfl, hx₁⟩ := hx₁
  cases form with
  | binary op elem size =>
    cases op with
    | arrayT =>
      refine .bind hindex ?_
      rintro y₁ _ ⟨rfl, hy₁⟩
      exact conclude_modes ⟨rfl, trivial, hty.2.2.1, hx₁, hy₁⟩
    | _ => exact .reject
  | bind k fs =>
    cases k with
    | sigma =>
      have hfs : fs.Everywhere c.Node := hty.2.2
      cases hy.relabels with
      | mk h =>
        cases h with
        | @atom _ a =>
          cases a with
          | num n =>
            simp only [Term.relabel, Term.form, Form.relabel]
            cases position? n with
            | none => exact .reject
            | some pos =>
              refine .bind hindex ?_
              rintro y₁ _ ⟨rfl, hy₁⟩
              rw [positionType?_relabel]
              cases hfield : positionType? x₁ pos fs with
              | none => exact .reject
              | some ty =>
                have hfield' := everywhere_positionType hfs hx₁ hfield
                exact conclude_modes ⟨rfl, trivial, hfield', hx₁, hy₁⟩
          | _ => exact .reject
        | _ => exact .reject
    | pi | abs => exact .reject
  | _ => exact .reject

/-- The term is checked in a context that has the reason as a fact, in the mode that was asked for.
-/
theorem because (hx : c.Alike V x x') (hy : c.Alike V y y') :
    c.FormsAlike V (.binary .because x y) (.binary .because x' y') := by
  intro ctx ctx' loc loc' hctx
  simp only [Form.elaborate]
  refine .bind (hy.check hctx ⟨rfl, everywhere_bool⟩) fun y₁ y₁' hy₁ => ?_
  have hassume := hctx.newScope.assume hy₁
  obtain ⟨rfl, hy₁⟩ := hy₁
  intro haccepted mode hmode
  -- in which mode the term is accepted does not matter
  have hagree := hx.agree hassume fun hstrict => by
    obtain ⟨mode, t, ht⟩ := haccepted hstrict
    dsimp only at ht
    split at ht
    · obtain ⟨x₁, hx₁, -⟩ := Check.bind_eq_ok.mp ht
      exact ⟨_, x₁, hx₁⟩
    · obtain ⟨x₁, hx₁, -⟩ := Check.bind_eq_ok.mp ht
      exact ⟨_, x₁, hx₁⟩
  simp only [Mode.expected?_relabel]
  cases hexpected : mode.expected? with
  | none =>
    refine (hagree .assign .assign).bind fun x₁ x₁' hx₁ => ?_
    refine (typeOf_coupled hx₁).bind ?_
    rintro ty _ ⟨rfl, hty⟩
    obtain ⟨rfl, hx₁⟩ := hx₁
    exact .pure ⟨rfl, trivial, hty, hx₁, hy₁⟩
  | some expected =>
    have hty := hmode expected hexpected
    refine (hagree.check ⟨rfl, hty⟩).bind ?_
    rintro x₁ _ ⟨rfl, hx₁⟩
    exact .pure ⟨rfl, trivial, hty, hx₁, hy₁⟩

/-- The operands must be of an integer type if they are ordered, which both environments say alike.
-/
theorem compare (op : RelOp) (hx : c.Alike V x x') (hy : c.Alike V y y') :
    c.FormsAlike V (.binary (.compare op) x y) (.binary (.compare op) x' y') := by
  intro ctx ctx' loc loc' hctx
  simp only [Form.elaborate]
  refine .bind (hx.pair hy hctx) fun q q' hq => ?_
  obtain ⟨x₁, y₁⟩ := q
  obtain ⟨x₁', y₁'⟩ := q'
  obtain ⟨hx₁, rfl, hy₁⟩ := hq
  refine .bind (.of_coupled (typeOf_coupled hx₁)) ?_
  rintro ty _ ⟨rfl, hty⟩
  obtain ⟨rfl, hx₁⟩ := hx₁
  rw [c.coupled.intType?_eq hty]
  exact .ite .reject (conclude_modes ⟨rfl, trivial, everywhere_bool, hx₁, hy₁⟩)

/-- If an integer type is asked for, the operands are checked against it. -/
theorem arith (op : ArithOp) (hx : c.Alike V x x') (hy : c.Alike V y y') :
    c.FormsAlike V (.binary (.arith op) x y) (.binary (.arith op) x' y') := by
  intro ctx ctx' loc loc' hctx haccepted mode hmode
  have hacceptable (hstrict : c.strict) : x.Acceptable c.fuel c.env ctx ∧
      y.Acceptable c.fuel c.env ctx := by
    obtain ⟨_, _, ht⟩ := haccepted hstrict
    exact acceptable_of_arith ht
  have hagreeX := hx.agree hctx fun hstrict => (hacceptable hstrict).1
  have hagreeY := hy.agree hctx fun hstrict => (hacceptable hstrict).2
  -- the type that is asked for is an integer type in both runs or in none
  have hfilter : ((mode.relabel c.σ).expected?.filter fun ty => (c.env'.intType? ty).isSome)
      = (mode.expected?.filter fun ty => (c.env.intType? ty).isSome).map (·.relabel c.σ) := by
    rw [Mode.expected?_relabel]
    cases hexpected : mode.expected? with
    | none => rfl
    | some expected =>
      simp only [Option.map_some, Option.filter, c.coupled.intType?_eq (hmode expected hexpected)]
      split <;> rfl
  simp only [Form.elaborate, hfilter]
  cases hinteger : mode.expected?.filter fun ty => (c.env.intType? ty).isSome with
  | some expected =>
    have hty := hmode expected (Option.filter_eq_some_iff.mp hinteger).1
    refine (hagreeX.check ⟨rfl, hty⟩).bind ?_
    rintro x₁ _ ⟨rfl, hx₁⟩
    refine (hagreeY.check ⟨rfl, hty⟩).bind ?_
    rintro y₁ _ ⟨rfl, hy₁⟩
    exact .pure ⟨rfl, trivial, hty, hx₁, hy₁⟩
  | none =>
    refine (elaboratePair_coupled hagreeX hagreeY hx.needsType_eq hy.needsType_eq).bind ?_
    rintro ⟨x₁, y₁⟩ ⟨x₁', y₁'⟩ ⟨hx₁, rfl, hy₁⟩
    refine (typeOf_coupled hx₁).bind ?_
    rintro ty _ ⟨rfl, hty⟩
    obtain ⟨rfl, hx₁⟩ := hx₁
    rw [c.coupled.intType?_eq hty]
    refine .ite .reject (conclude_coupled ?_ hmode)
    exact ⟨rfl, trivial, hty, hx₁, hy₁⟩

theorem binary (op : Binary) (hx : c.Alike V x x') (hy : c.Alike V y y') :
    c.FormsAlike V (.binary op x y) (.binary op x' y') := by
  cases op with
  | arrayT => exact .arrayT hx hy
  | refT => exact .refT hx hy
  | subscript => exact .subscript hx hy
  | because => exact .because hx hy
  | logic op => exact .logic op hx hy
  | compare op => exact .compare op hx hy
  | arith op => exact .arith op hx hy

end FormsAlike

/-! ## Lists and calls -/

/-- If all terms of a list are accepted, or this is not asked for, they agree one by one. -/
theorem forall₂_agree (hctx : c.Contexts V ctx ctx') (hxs : List.Forall₂ (c.Alike V) xs xs')
    (haccepted : c.strict → ∀ x ∈ xs, x.Acceptable c.fuel c.env ctx) :
    List.Forall₂ (c.Agree ctx ctx') xs xs' := by
  induction hxs with
  | nil => exact .nil
  | cons hx _ ih =>
    refine .cons (hx.agree hctx fun hstrict => haccepted hstrict _ (.head _)) (ih fun hstrict => ?_)
    exact (List.forall_mem_cons.mp (haccepted hstrict)).2

theorem elaborateElements_coupled (hxs : List.Forall₂ (c.Agree ctx ctx') xs xs') {ty : Checked}
    (hty : ty.Everywhere c.Node) :
    Check.Coupled c.early c.Lists (elaborateElements c.fuel c.env ctx ty xs)
      (elaborateElements c.fuel' c.env' ctx' (ty.relabel c.σ) xs') := by
  induction hxs with
  | nil => exact .pure ⟨rfl, trivial⟩
  | cons hx _ ih =>
    refine (hx.check ⟨rfl, hty⟩).bind ?_
    rintro x₁ _ ⟨rfl, hx₁⟩
    refine ih.bind ?_
    rintro xs₁ _ ⟨rfl, hxs₁⟩
    exact .pure ⟨rfl, hx₁, hxs₁⟩

/-- Later fields are instantiated with what the earlier ones were checked to, which corresponds. -/
theorem elaborateFields_coupled (hxs : List.Forall₂ (c.Agree ctx ctx') xs xs')
    {fs : Fields .checked} (hfs : fs.Everywhere c.Node) :
    Check.Coupled c.early c.Lists (elaborateFields c.fuel c.env ctx xs fs)
      (elaborateFields c.fuel' c.env' ctx' xs' (fs.relabel c.σ)) := by
  induction hxs generalizing fs with
  | nil => exact .pure ⟨rfl, trivial⟩
  | cons hx _ ih =>
    cases fs with
    | fields => exact .pure ⟨rfl, trivial⟩
    | arg _ _ ty v rest =>
      refine (hx.check ⟨rfl, hfs.1⟩).bind ?_
      rintro x₁ _ ⟨rfl, hx₁⟩
      rw [Tele.instantiate_relabel]
      refine (ih (hfs.2.instantiate (substitutive_refersInto c.names) v hx₁)).bind ?_
      rintro xs₁ _ ⟨rfl, hxs₁⟩
      exact .pure ⟨rfl, hx₁, hxs₁⟩

/-- The case of `elaborateList` that is left when the type is no array, and not `unit` or a
condition with the empty list: the type must have fields. -/
def elaborateStruct (env : Env) (ctx : Context) (loc : Location) (expected : Checked)
    (length : Nat) (goFields : Fields .checked → Check (List Checked)) : Check (List Checked) :=
  match env.fields? expected with
  | some fs =>
    if length ≠ fs.arity then reject (.listLength length fs.arity) loc ctx else goFields fs
  | none => reject (.listType expected) loc ctx (some expected)

theorem elaborateStruct_coupled (hxs : List.Forall₂ (c.Agree ctx ctx') xs xs') {expected : Checked}
    (hexpected : expected.Everywhere c.Node) (length : Nat) :
    Check.Coupled c.early c.Lists
      (elaborateStruct c.env ctx loc expected length (elaborateFields c.fuel c.env ctx xs ·))
      (elaborateStruct c.env' ctx' loc' (expected.relabel c.σ) length
        (elaborateFields c.fuel' c.env' ctx' xs' ·)) := by
  rw [elaborateStruct, elaborateStruct, c.coupled.fields?_eq hexpected]
  cases hfs : c.env.fields? expected with
  | none => exact .reject
  | some fs =>
    simp only [Option.map_some, Tele.arity_relabel]
    have hfields := c.coupled.everywhere_fields hexpected hfs
    exact .ite .reject (elaborateFields_coupled hxs hfields)

/-- Which of the rules for lists applies is seen in the shape of the type and in the length of the
list. -/
theorem elaborateList_coupled (hctx : c.Contexts V ctx ctx')
    (hxs : List.Forall₂ (c.Agree ctx ctx') xs xs') {expected : Checked}
    (hexpected : expected.Everywhere c.Node) (length : Nat) :
    Check.Coupled c.early c.Lists
      (elaborateList c.fuel c.env ctx loc expected length
        (elaborateElements c.fuel c.env ctx · xs) (elaborateFields c.fuel c.env ctx xs ·))
      (elaborateList c.fuel' c.env' ctx' loc' (expected.relabel c.σ) length
        (elaborateElements c.fuel' c.env' ctx' · xs')
        (elaborateFields c.fuel' c.env' ctx' xs' ·)) := by
  have hstruct : Check.Coupled c.early c.Lists
      (elaborateStruct c.env ctx loc expected length (elaborateFields c.fuel c.env ctx xs ·))
      (elaborateStruct c.env' ctx' loc' (expected.relabel c.σ) length
        (elaborateFields c.fuel' c.env' ctx' xs' ·)) :=
    elaborateStruct_coupled hxs hexpected length
  obtain ⟨note, form⟩ := expected
  cases form with
  | binary op elem size =>
    cases op with
    | arrayT =>
      refine (c.normal hexpected.2.2.2).bind ?_
      rintro ⟨note, size⟩ _ rfl
      cases size with
      | atom a =>
        cases a with
        | num n => exact .ite (elaborateElements_coupled hxs hexpected.2.2.1) .reject
        | _ => exact .reject
      | _ => exact .reject
    | _ => exact hstruct
  | atom a =>
    cases a with
    | unit =>
      cases length with
      | zero => exact .pure ⟨rfl, trivial⟩
      | succ n => exact hstruct
    | _ => exact hstruct
  | unary op cond =>
    cases op with
    | trueT =>
      cases length with
      | zero =>
        refine (provable_coupled hctx hexpected.2.2).bind ?_
        rintro proved _ rfl
        exact .ite (.pure ⟨rfl, trivial⟩) .reject
      | succ n => exact hstruct
    | _ => exact hstruct
  | _ => exact hstruct

/-- A list is checked against some type if it is accepted at all, so its elements agree. -/
theorem FormsAlike.list (hxs : List.Forall₂ (c.Alike V) xs xs') :
    c.FormsAlike V (.list xs) (.list xs') := by
  intro ctx ctx' loc loc' hctx haccepted mode hmode
  have hagree := forall₂_agree hctx hxs fun hstrict => by
    obtain ⟨mode, t, ht⟩ := haccepted hstrict
    dsimp only [Form.elaborate] at ht
    split at ht
    · cases ht
    · obtain ⟨ts, hts, -⟩ := Check.bind_eq_ok.mp ht
      exact acceptable_of_elaborateList hts
  simp only [Form.elaborate, Mode.expected?_relabel, ← hxs.length_eq]
  cases hexpected : mode.expected? with
  | none => exact .reject
  | some expected =>
    have hty := hmode expected hexpected
    refine (elaborateList_coupled hctx hagree hty xs.length).bind ?_
    rintro ts _ ⟨rfl, hts⟩
    exact .pure ⟨rfl, trivial, hty, hts⟩

/-- Two arguments of a call are both placeholders, or they have corresponding outcomes in all
modes. -/
def ArgsAgree (c : Coupling) (ctx ctx' : Context) (x x' : Written) : Prop :=
  x'.isAuto = x.isAuto ∧ (x.isAuto = false → c.Agree ctx ctx' x x')

/-- If every argument is a placeholder or accepted, or this is not asked for, the arguments agree
one by one. -/
theorem forall₂_argsAgree (hctx : c.Contexts V ctx ctx') (hxs : List.Forall₂ (c.Alike V) xs xs')
    (haccepted : c.strict → ∀ x ∈ xs, x.isAuto = false → x.Acceptable c.fuel c.env ctx) :
    List.Forall₂ (c.ArgsAgree ctx ctx') xs xs' := by
  induction hxs with
  | nil => exact .nil
  | cons hx _ ih =>
    refine .cons ⟨hx.relabels.kind_eq.2.1, fun hauto => ?_⟩ (ih fun hstrict => ?_)
    · exact hx.agree hctx fun hstrict => haccepted hstrict _ (.head _) hauto
    · exact (List.forall_mem_cons.mp (haccepted hstrict)).2

/-- What matching finds for a placeholder is relabeled, and it is a part of a type. -/
theorem match?_sort_relabel (v : Var) (formal : Checked) {x : Checked} (hx : x.Everywhere c.Node) :
    ((x.relabel c.σ).sort?.bind ((formal.relabel c.σ).match? (v.relabel c.σ) ·)
      = (x.sort?.bind (formal.match? v ·)).map (·.relabel c.σ)) ∧
    ∀ value, x.sort?.bind (formal.match? v ·) = some value → value.Everywhere c.Node := by
  rw [Term.sort?_relabel]
  cases hsort : x.sort? with
  | none => exact ⟨rfl, fun value hvalue => by cases hvalue⟩
  | some ty => exact ⟨Term.match?_relabel c.σ v formal ty, fun value => (hx.sort hsort).match?⟩

/-- A later argument whose type cannot be determined is passed over in both runs. -/
theorem resolveAuto_coupled (hxs : List.Forall₂ (c.ArgsAgree ctx ctx') xs xs') {ty : Checked}
    (hty : ty.Everywhere c.Node) (v : Option Var) (s : Signature .checked) :
    Check.Coupled c.early c.Terms (resolveAuto c.fuel c.env ctx loc ty v xs s)
      (resolveAuto c.fuel' c.env' ctx' loc' (ty.relabel c.σ) (v.map (·.relabel c.σ)) xs'
        (s.relabel c.σ)) := by
  induction hxs generalizing s with
  | nil => cases s <;> exact .reject
  | @cons x x' xs xs' hx _ ih =>
    cases s with
    | returns => exact .reject
    | arg _ _ formal _ rest =>
      cases v with
      | none => exact .reject
      | some v =>
        have hlater := ih rest
        obtain ⟨hauto, hx⟩ := hx
        simp only [Tele.relabel, Option.map_some, resolveAuto, hauto]
        cases hkind : x.isAuto with
        | true => exact hlater
        | false =>
          have hassign : Check.Coupled c.early c.Terms (x.elaborate c.fuel c.env ctx .assign)
              (x'.elaborate c.fuel' c.env' ctx' .assign) := hx hkind .assign .assign
          generalize x.elaborate c.fuel c.env ctx .assign = outcome at hassign ⊢
          generalize x'.elaborate c.fuel' c.env' ctx' .assign = outcome' at hassign ⊢
          rcases hassign with ⟨hearly, rfl⟩ | hassign
          · exact .inl ⟨hearly, rfl⟩
          -- an argument that is rejected here is passed over; running out of fuel ends the search
          rcases outcome with (_ | _) | x₁ <;> rcases outcome' with (_ | _) | x₁' <;>
            try exact hassign.elim
          · exact hlater
          · exact .inr trivial
          · obtain ⟨rfl, hx₁⟩ := hassign
            obtain ⟨hmatch, hpart⟩ := match?_sort_relabel v formal hx₁
            simp only [Bool.false_eq_true, if_false, hmatch]
            cases hvalue : x₁.sort?.bind (formal.match? v ·) with
            | none => exact hlater
            | some value =>
              have hvalue' := hpart value hvalue
              simp only [Option.map_some, Term.sort?_relabel]
              cases hsort : value.sort? with
              | none => exact .reject
              | some sort =>
                refine (c.equivalent (hvalue'.sort hsort) hty).bind ?_
                rintro same _ rfl
                exact .ite (.pure ⟨rfl, hvalue'⟩) .reject

/-- Arguments are given or found, and put into the rest of the signature, alike in both runs. -/
theorem elaborateArgs_coupled (hxs : List.Forall₂ (c.ArgsAgree ctx ctx') xs xs')
    {s : Signature .checked} (hs : s.Everywhere c.Node) :
    Check.Coupled c.early (fun q q' => c.Lists q.1 q'.1 ∧ c.Teles q.2 q'.2)
      (elaborateArgs c.fuel c.env ctx xs s)
      (elaborateArgs c.fuel' c.env' ctx' xs' (s.relabel c.σ)) := by
  induction hxs generalizing s with
  | nil => exact .pure ⟨⟨rfl, trivial⟩, rfl, hs⟩
  | @cons x x' xs xs' hx hxs ih =>
    cases s with
    | returns => exact .pure ⟨⟨rfl, trivial⟩, rfl, hs⟩
    | arg _ _ ty v rest =>
      -- the later arguments are checked in the same way, however this one was found
      have hlater (x₁ x₁' : Checked) (hx₁ : c.Terms x₁ x₁') :
          Check.Coupled c.early (fun q q' => c.Lists q.1 q'.1 ∧ c.Teles q.2 q'.2)
            (elaborateArgs c.fuel c.env ctx xs (rest.instantiate v x₁) >>= fun q =>
              pure (x₁ :: q.1, q.2))
            (elaborateArgs c.fuel' c.env' ctx' xs'
              ((rest.relabel c.σ).instantiate (v.map (·.relabel c.σ)) x₁') >>= fun q =>
              pure (x₁' :: q.1, q.2)) := by
        obtain ⟨rfl, hx₁⟩ := hx₁
        rw [Tele.instantiate_relabel]
        refine (ih (hs.2.instantiate (substitutive_refersInto c.names) v hx₁)).bind ?_
        rintro ⟨xs₁, rest₁⟩ ⟨_, _⟩ ⟨⟨rfl, hxs₁⟩, rfl, hrest₁⟩
        exact .pure ⟨⟨rfl, hx₁, hxs₁⟩, rfl, hrest₁⟩
      simp only [Tele.relabel, elaborateArgs, hx.1]
      cases hauto : x.isAuto with
      | true => exact (resolveAuto_coupled hxs hs.1 v rest).bind hlater
      | false => exact ((hx.2 hauto).check ⟨rfl, hs.1⟩).bind hlater

/-- Effects that the first run does not allow are not accepted by it. -/
theorem Modes.effect {α α' : Type} {R : α → α' → Prop} {f : Mode → Check α} {f' : Mode → Check α'}
    (hctx : c.Contexts V ctx ctx') (m : Mutability) (h : c.Modes R f f') :
    c.Modes R
      (fun mode =>
        if m = .yes ∧ ctx.mutability = .no then DependentCore.reject .effectInPure loc ctx
        else f mode)
      (fun mode =>
        if m = .yes ∧ ctx'.mutability = .no then DependentCore.reject .effectInPure loc' ctx'
        else f' mode) := by
  rcases hctx.mutability with hsame | ⟨hstrict, hno⟩
  · rw [hsame]
    exact .ite .reject h
  · by_cases hm : m = .yes
    · intro haccepted
      obtain ⟨mode, t, ht⟩ := haccepted hstrict
      simp only [hm, hno, and_self, if_true] at ht
      cases ht
    · simp only [hm, false_and, if_false]
      exact h

/-- What is called has corresponding signatures, so the same arguments are expected and the same
effects are declared. -/
theorem FormsAlike.app {f f' : Written} (hf : c.Alike V f f')
    (hxs : List.Forall₂ (c.Alike V) xs xs') : c.FormsAlike V (.app f xs) (.app f' xs') := by
  intro ctx ctx' loc loc' hctx
  simp only [Form.elaborate]
  refine .bind (hf.assign hctx) ?_
  rintro f₁ _ ⟨rfl, hf₁⟩
  rw [Term.piSort?_relabel]
  cases hpi : f₁.piSort? with
  | none => exact .reject
  | some s =>
    have hs := hf₁.piSort hpi
    simp only [Option.map_some, Tele.mutability_relabel, Tele.arity_relabel, ← hxs.length_eq]
    refine .effect hctx s.mutability ?_
    by_cases harity : s.arity = xs.length
    · simp only [harity, ne_eq, not_true_eq_false, if_false]
      refine .bind (R := fun q q' => c.Lists q.1 q'.1 ∧ c.Teles q.2 q'.2) (fun haccepted => ?_) ?_
      -- an argument may be passed over on the way, but all of them are accepted in the end
      · refine elaborateArgs_coupled (forall₂_argsAgree hctx hxs fun hstrict => ?_) hs
        obtain ⟨_, hargs⟩ := haccepted hstrict
        exact acceptable_of_elaborateArgs harity hargs
      · rintro ⟨xs₁, rest⟩ ⟨_, _⟩ ⟨⟨rfl, hxs₁⟩, rfl, hrest⟩
        rw [Tele.ret_relabel]
        exact conclude_modes ⟨rfl, trivial, hrest.ret, hf₁, hxs₁⟩
    · simp only [harity, ne_eq, not_false_eq_true, if_true]
      exact .reject

/-! ## Binders and statements -/

/-- A binder opens a scope, in which no variable is declared yet in either run. -/
theorem FormsAlike.bind {k : Binder} {t t' : Tele .written k} (hm : t'.mutability = t.mutability)
    (ht : c.TelesAlike V t t') : c.FormsAlike V (.bind k t) (.bind k t') := by
  intro ctx ctx' loc loc' hctx
  cases k with
  | sigma | pi =>
    simp only [Form.elaborate]
    refine .bind (ht loc loc' hctx.newScope fun _ => rfl) ?_
    rintro t₁ _ ⟨rfl, ht₁⟩
    exact conclude_modes ⟨rfl, trivial, everywhere_typename, ht₁⟩
  | abs =>
    simp only [Form.elaborate, hm]
    refine .bind (ht loc loc' (hctx.newScopeOf t.mutability) fun _ => rfl) ?_
    rintro t₁ _ ⟨rfl, ht₁⟩
    rw [Tele.signature_relabel]
    exact conclude_modes ⟨rfl, trivial, ⟨trivial, everywhere_typename, ht₁.bare⟩, ht₁⟩

namespace TelesAlike

theorem fields : c.TelesAlike V .fields .fields :=
  fun _ _ _ _ _ _ => .pure ⟨rfl, trivial⟩

theorem returns {m : Mutability} (hx : c.Alike V x x') :
    c.TelesAlike V (.returns m x) (.returns m x') := by
  intro ctx ctx' loc loc' hctx _
  refine (hx.type hctx).bind ?_
  rintro x₁ _ ⟨rfl, hx₁⟩
  exact .pure ⟨rfl, hx₁⟩

/-- Whether a body must return is seen in its return type and in its shape. -/
theorem runs {m : Mutability} {b b' : List (Stmt .written)} (hx : c.Alike V x x')
    (hb : c.BodiesAlike V b b') : c.TelesAlike V (.runs m x b) (.runs m x' b') := by
  intro ctx ctx' loc loc' hctx _
  refine (hx.type hctx).bind ?_
  rintro x₁ _ ⟨rfl, hx₁⟩
  refine (hb hctx.newScope ⟨rfl, hx₁⟩).bind ?_
  rintro b₁ _ ⟨rfl, hb₁⟩
  rw [Term.isUnit_relabel, returnsAlways_relabel]
  exact .ite (.pure ⟨rfl, hx₁, hb₁⟩) .reject

/-- What stands under an argument is compared in contexts that both declare its variable. -/
theorem arg {k : Binder} {mark mark' : Location} {qty : Quantity} {v : Option Var}
    {t t' : Tele .written k} (hx : c.Alike V x x')
    (ht : c.TelesAlike (fun w => v = some w ∨ V w) t t') :
    c.TelesAlike V (.arg mark qty x v t) (.arg mark' qty x' (v.map (·.relabel c.σ)) t') := by
  intro ctx ctx' loc loc' hctx hinner
  refine (hx.type hctx).bind fun x₁ x₁' hx₁ => ?_
  refine (Run.of_coupled (hctx.declareArg hinner mark mark' qty hx₁ v)).bind ?_
  rintro ctx₁ ctx₁' ⟨hctx₁, hinner₁⟩
  obtain ⟨rfl, hx₁⟩ := hx₁
  refine (ht loc loc' hctx₁ hinner₁).bind ?_
  rintro t₁ _ ⟨rfl, ht₁⟩
  exact .pure ⟨rfl, hx₁, ht₁⟩

end TelesAlike

namespace StmtsAlike

variable {yes yes' no no' : List (Stmt .written)}

theorem call (hx : c.Alike V x x') : c.StmtsAlike V (.call loc x) (.call loc' x') := by
  intro ctx ctx' ret ret' hctx _
  simp only [Stmt.elaborate, hx.relabels.kind_eq.2.2.1]
  refine .ite ((hx.assign hctx).bind ?_) .reject
  rintro x₁ _ ⟨rfl, hx₁⟩
  exact .pure ⟨rfl, hx₁⟩

/-- The condition is a fact in the branch. -/
theorem ifThen (hx : c.Alike V x x') (hyes : c.BodiesAlike V yes yes') :
    c.StmtsAlike V (.ifThen loc x yes) (.ifThen loc' x' yes') := by
  intro ctx ctx' ret ret' hctx hret
  refine (hx.check hctx ⟨rfl, everywhere_bool⟩).bind fun x₁ x₁' hx₁ => ?_
  refine (hyes (hctx.newScope.assume hx₁).newScope hret).bind ?_
  rintro yes₁ _ ⟨rfl, hyes₁⟩
  obtain ⟨rfl, hx₁⟩ := hx₁
  exact .pure ⟨rfl, hx₁, hyes₁⟩

/-- The condition is a fact in one branch, and its negation in the other. -/
theorem ifElse (hx : c.Alike V x x') (hyes : c.BodiesAlike V yes yes')
    (hno : c.BodiesAlike V no no') :
    c.StmtsAlike V (.ifElse loc x yes no) (.ifElse loc' x' yes' no') := by
  intro ctx ctx' ret ret' hctx hret
  refine (hx.check hctx ⟨rfl, everywhere_bool⟩).bind fun x₁ x₁' hx₁ => ?_
  refine (hyes (hctx.newScope.assume hx₁).newScope hret).bind ?_
  rintro yes₁ _ ⟨rfl, hyes₁⟩
  obtain ⟨rfl, hx₁⟩ := hx₁
  have hnot : c.Terms (Checked.not x₁) (Checked.not (x₁.relabel c.σ)) :=
    ⟨rfl, trivial, everywhere_bool, hx₁⟩
  refine (hno (hctx.newScope.assume hnot).newScope hret).bind ?_
  rintro no₁ _ ⟨rfl, hno₁⟩
  exact .pure ⟨rfl, hx₁, hyes₁, hno₁⟩

theorem ret (hx : c.Alike V x x') : c.StmtsAlike V (.ret loc x) (.ret loc' x') := by
  intro ctx ctx' ret ret' hctx hret
  refine (hx.check hctx hret).bind ?_
  rintro x₁ _ ⟨rfl, hx₁⟩
  exact .pure ⟨rfl, hx₁⟩

theorem retUnit : c.StmtsAlike V (.retUnit loc) (.retUnit loc') := by
  rintro ctx ctx' ret _ _ ⟨rfl, -⟩
  simp only [Stmt.elaborate, Term.isUnit_relabel]
  exact .ite (.pure ⟨rfl, trivial⟩) .reject

/-- The facts that are known correspond, so they contradict each other alike. -/
theorem impossible : c.StmtsAlike V (.impossible loc) (.impossible loc') := by
  intro ctx ctx' ret ret' hctx _
  refine (Run.of_coupled (facts_coupled hctx)).bind ?_
  rintro facts _ rfl
  rw [contradictory_relabel]
  exact .ite (.pure ⟨rfl, trivial⟩) .reject

theorem impossibleBy (hx : c.Alike V x x') :
    c.StmtsAlike V (.impossibleBy loc x) (.impossibleBy loc' x') := by
  intro ctx ctx' ret ret' hctx _
  refine (hx.assign hctx).bind ?_
  rintro x₁ _ ⟨rfl, hx₁⟩
  exact .pure ⟨rfl, hx₁⟩

end StmtsAlike

namespace BodiesAlike

theorem nil : c.BodiesAlike V [] [] :=
  fun _ _ _ _ _ _ => .pure ⟨rfl, trivial⟩

/-- What a statement teaches is known to the statements after it, in both runs. -/
theorem cons {s s' : Stmt .written} {b b' : List (Stmt .written)} (hs : c.StmtsAlike V s s')
    (hb : c.BodiesAlike V b b') : c.BodiesAlike V (s :: b) (s' :: b') := by
  intro ctx ctx' ret ret' hctx hret
  refine (hs hctx hret).bind fun s₁ s₁' hs₁ => ?_
  refine (hb (hctx.learn hs₁) hret).bind ?_
  rintro b₁ _ ⟨rfl, hb₁⟩
  obtain ⟨rfl, hs₁⟩ := hs₁
  exact .pure ⟨rfl, hs₁, hb₁⟩

end BodiesAlike

/-! ## All terms

The induction is on the evidence that two trees correspond: under a binder there are more variables
about which the contexts say the same, and the evidence keeps track of them. -/

mutual

/-- A term and the term that it is relabeled to have corresponding outcomes. -/
theorem alike : ∀ {V : Var → Prop} {x x' : Written}, x.Relabels c.σ c.Mentions V x' → c.Alike V x x'
  | _, _, _, .mk h => ⟨.mk h, fun hctx => formsAlike h _ _ hctx⟩
termination_by structural _ _ _ h => h

theorem formsAlike : ∀ {V : Var → Prop} {f f' : Form .written}, f.Relabels c.σ c.Mentions V f' →
    c.FormsAlike V f f'
  | _, _, _, .atom ha => .atom ha
  | _, _, _, .var hv => .var hv
  | _, _, _, .unary h => .unary _ (alike h)
  | _, _, _, .binary h₁ h₂ => .binary _ (alike h₁) (alike h₂)
  | _, _, _, .app h₁ h₂ => .app (alike h₁) (forall₂_alike h₂)
  | _, _, _, .list h => .list (forall₂_alike h)
  | _, _, _, .bind h => .bind h.mutability_eq (telesAlike h)
termination_by structural _ _ _ h => h

theorem forall₂_alike : ∀ {V : Var → Prop} {xs xs' : List Written},
    RelabelsList c.σ c.Mentions V xs xs' → List.Forall₂ (c.Alike V) xs xs'
  | _, _, _, .nil => .nil
  | _, _, _, .cons h₁ h₂ => .cons (alike h₁) (forall₂_alike h₂)
termination_by structural _ _ _ h => h

theorem telesAlike : ∀ {V : Var → Prop} {k : Binder} {t t' : Tele .written k},
    t.Relabels c.σ c.Mentions V t' → c.TelesAlike V t t'
  | _, _, _, _, .fields => .fields
  | _, _, _, _, .returns h => .returns (alike h)
  | _, _, _, _, .runs h₁ h₂ => .runs (alike h₁) (bodiesAlike h₂)
  | _, _, _, _, .arg h₁ h₂ => .arg (alike h₁) (telesAlike h₂)
termination_by structural _ _ _ _ h => h

theorem stmtsAlike : ∀ {V : Var → Prop} {s s' : Stmt .written},
    s.Relabels c.σ c.Mentions V s' → c.StmtsAlike V s s'
  | _, _, _, .call h => .call (alike h)
  | _, _, _, .ifThen h₁ h₂ => .ifThen (alike h₁) (bodiesAlike h₂)
  | _, _, _, .ifElse h₁ h₂ h₃ => .ifElse (alike h₁) (bodiesAlike h₂) (bodiesAlike h₃)
  | _, _, _, .ret h => .ret (alike h)
  | _, _, _, .retUnit => .retUnit
  | _, _, _, .impossible => .impossible
  | _, _, _, .impossibleBy h => .impossibleBy (alike h)
termination_by structural _ _ _ h => h

theorem bodiesAlike : ∀ {V : Var → Prop} {b b' : List (Stmt .written)},
    RelabelsBody c.σ c.Mentions V b b' → c.BodiesAlike V b b'
  | _, _, _, .nil => .nil
  | _, _, _, .cons h₁ h₂ => .cons (stmtsAlike h₁) (bodiesAlike h₂)
termination_by structural _ _ _ h => h

end

end Coupling

end DependentCore
