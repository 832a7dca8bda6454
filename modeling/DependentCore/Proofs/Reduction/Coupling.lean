import DependentCore.Proofs.Reduction.Everywhere
import DependentCore.Proofs.Reduction.Relabeling

/-!
# Two runs of normalisation

Several facts compare two runs of normalisation: on a term and on the term relabeled, in
environments that agree on the names that can turn up on the way, and with less and with more fuel.
In all of them both runs take the same steps, so there is one lemma about two runs that differ in
all these respects at once; what is said about normal forms elsewhere are instances of it.

* `Env.Coupled`: a closed set of names means the same in two environments, up to a relabeling,
* `Term.fold?_coupled`, `Term.unfolding?_coupled`: the steps that look into the environment,
* `Rewriting.Coupled`: two rewritings that run side by side, of which the first may be given too
  little fuel,
* `normalize_coupled`: normalisation runs side by side in coupled environments,
* `Env.Unchanged.coupled`, `Env.coupled_refl`: environments that are coupled with themselves.
-/

namespace DependentCore

/-! ## References -/

/-- A call that is unfolded mentions what the function and the arguments mention. -/
theorem Term.Everywhere.beta {Q : GlobalName → Note .checked Checked → Prop}
    (hQ : Substitutive (Term.References Q)) {t : Checked} (ht : t.Everywhere (Term.References Q)) :
    (Rewritten.ofStep t t.beta?).result.Everywhere (Term.References Q) := by
  refine Rewritten.ofStep_induction ht fun u hu => ?_
  have hstep : Term.Steps {} t u := Term.steps_of_beta? hu
  exact hstep.everywhere (stepInvariant_references _ hQ) ht

/-- Folding an operation puts in no new references. -/
theorem Term.Everywhere.fold {Q : GlobalName → Note .checked Checked → Prop}
    (hQ : Substitutive (Term.References Q)) (env : Env) {t : Checked}
    (ht : t.Everywhere (Term.References Q)) :
    (Rewritten.ofStep t (t.fold? env)).result.Everywhere (Term.References Q) :=
  Rewritten.ofStep_induction ht fun _ hu =>
    (Term.steps_of_fold? hu).everywhere (stepInvariant_references _ hQ) ht

/-- If a term is a reference, the global it refers to is in a set. -/
def Term.RefersInto {p : Phase} (S : GlobalName → Prop) : Term p → Prop :=
  Term.References fun g _ => S g

/-- Substitution puts in references of the term that is substituted only. -/
theorem substitutive_refersInto {p : Phase} (S : GlobalName → Prop) :
    Substitutive (Term.RefersInto S : Term p → Prop) :=
  substitutive_references (fun _ _ _ _ h => h) fun _ _ _ _ h => h

theorem Term.refersInto_iff {p : Phase} {S : GlobalName → Prop} {t : Term p} :
    t.RefersInto S ↔ ∀ g, t.form = .atom (.global g) → S g := by
  obtain ⟨note, form⟩ := t
  constructor
  · rintro h g rfl
    exact h
  · intro h
    cases form with
    | atom a =>
      cases a with
      | global g => exact h g rfl
      | _ => trivial
    | _ => trivial

theorem Term.RefersInto.mono {p : Phase} {S S' : GlobalName → Prop} (h : ∀ g, S g → S' g)
    {t : Term p} (ht : t.RefersInto S) : t.RefersInto S' :=
  Term.refersInto_iff.mpr fun g hg => h g (Term.refersInto_iff.mp ht g hg)

theorem Term.refersInto_of_forall {p : Phase} {S : GlobalName → Prop} (h : ∀ g, S g) (t : Term p) :
    t.RefersInto S :=
  Term.refersInto_iff.mpr fun g _ => h g

theorem Item.everywhere_refersInto_true {p : Phase} (item : Item p) :
    item.Everywhere (Term.RefersInto fun _ => True) :=
  item.everywhere_of_forall (Term.refersInto_of_forall fun _ => trivial)

/-! ## Environments -/

/-- What a name may mean in the two environments: nothing, the same up to a relabeling, or a
declared function that the first environment does not know. A declaration has nothing that
normalisation could look at; only one of `slice` would hide the function that is built in. -/
inductive SameMeaning (σ : Relabeling) (g : GlobalName) :
    Option (Entry .checked) → Option (Entry .checked) → Prop where
  | unknown : SameMeaning σ g none none
  | declared {mark name s} : g ≠ sliceName → SameMeaning σ g none (some ⟨mark, name, .declared s⟩)
  | known {mark name item mark' name'} :
    SameMeaning σ g (some ⟨mark, name, item⟩) (some ⟨mark', name', item.relabel σ⟩)

/-- What a relabeling does not change means the same as before. -/
theorem SameMeaning.of_unchanged {σ : Relabeling} (g : GlobalName) {e : Option (Entry .checked)}
    (h : ∀ e', e = some e' → e'.item.relabel σ = e'.item) : SameMeaning σ g e e := by
  cases e with
  | none => exact .unknown
  | some e =>
    obtain ⟨mark, name, item⟩ := e
    have hknown : SameMeaning σ g (some ⟨mark, name, item⟩) (some ⟨mark, name, _⟩) := .known
    rw [h _ rfl] at hknown
    exact hknown

/-- Two environments have the same settings and give the names of a set the same meaning, up to a
relabeling. The set is closed: what its names stand for mentions no other names. -/
structure Env.Coupled (σ : Relabeling) (S : GlobalName → Prop) (env env' : Env) : Prop where
  meaning : ∀ g, S g → SameMeaning σ g (env.get? g) (env'.get? g)
  closed : ∀ g e, S g → env.get? g = some e → e.item.Everywhere (Term.RefersInto S)
  unfoldLimit : env'.unfoldLimit = env.unfoldLimit
  unfoldFuel : env'.unfoldFuel = env.unfoldFuel
  inlineGlobals : env'.inlineGlobals = env.inlineGlobals

/-- A relabeling changes no global of an environment. -/
def Env.Unchanged (σ : Relabeling) (env : Env) : Prop :=
  ∀ g e, env.get? g = some e → e.item.relabel σ = e.item

/-- Relabeling is a special case: both runs are in the same environment, and all its globals may be
mentioned. -/
theorem Env.Unchanged.coupled {σ : Relabeling} {env : Env} (h : env.Unchanged σ) :
    env.Coupled σ (fun _ => True) env where
  meaning g _ := .of_unchanged g (h g)
  closed _ e _ _ := e.item.everywhere_refersInto_true
  unfoldLimit := rfl
  unfoldFuel := rfl
  inlineGlobals := rfl

theorem Env.unchanged_identity (env : Env) : env.Unchanged .identity :=
  fun _ e _ => e.item.relabel_identity

/-- Every environment is coupled with itself. -/
theorem Env.coupled_refl (env : Env) : env.Coupled .identity (fun _ => True) env :=
  env.unchanged_identity.coupled

namespace Env.Coupled

variable {σ : Relabeling} {S : GlobalName → Prop} {env env' : Env} (h : env.Coupled σ S env')
include h

/-- A name stands for a function in both environments or in none, as a declaration has no body. -/
theorem function?_eq {g : GlobalName} (hg : S g) :
    env'.function? g = (env.function? g).map (·.relabel σ) := by
  have hmeaning := h.meaning g hg
  rw [Env.function?, Env.function?]
  generalize env.get? g = e, env'.get? g = e' at hmeaning
  cases hmeaning with
  | unknown | declared => rfl
  | @known _ _ item => cases item <;> rfl

theorem everywhere_function {g : GlobalName} (hg : S g) {f : Function .checked}
    (hf : env.function? g = some f) : f.Everywhere (Term.RefersInto S) := by
  unfold Env.function? at hf
  split at hf
  · next he =>
    cases hf
    exact h.closed g _ hg he
  · cases hf

/-- The environments agree on what is an integer type. -/
theorem intType?_eq {ty : Checked} (hty : ty.Everywhere (Term.RefersInto S)) :
    env'.intType? (ty.relabel σ) = env.intType? ty := by
  obtain ⟨note, form⟩ := ty
  cases form with
  | atom a =>
    cases a with
    | global g =>
      have hmeaning := h.meaning g hty.1
      simp only [Env.intType?, Term.relabel, Form.relabel, Term.form]
      generalize env.get? g = e, env'.get? g = e' at hmeaning
      cases hmeaning with
      | unknown | declared => rfl
      | @known _ _ item => cases item <;> rfl
    | _ => rfl
  | _ => rfl

/-- The environments agree on the fields of a type, up to relabeling. -/
theorem fields?_eq {ty : Checked} (hty : ty.Everywhere (Term.RefersInto S)) :
    env'.fields? (ty.relabel σ) = (env.fields? ty).map (·.relabel σ) := by
  obtain ⟨note, form⟩ := ty
  cases form with
  | atom a =>
    cases a with
    | global g =>
      have hmeaning := h.meaning g hty.1
      simp only [Env.fields?, Env.structOf?, Term.relabel, Form.relabel, Term.form]
      generalize env.get? g = e, env'.get? g = e' at hmeaning
      cases hmeaning with
      | unknown | declared => rfl
      | @known _ _ item => cases item <;> rfl
    | _ => rfl
  | bind k t => cases k <;> rfl
  | _ => rfl

theorem everywhere_fields {ty : Checked} (hty : ty.Everywhere (Term.RefersInto S))
    {fs : Fields .checked} (hfs : env.fields? ty = some fs) :
    fs.Everywhere (Term.RefersInto S) := by
  obtain ⟨note, form⟩ := ty
  simp only [Env.fields?, Term.form] at hfs
  split at hfs
  · cases hfs
    exact hty.2.2
  · unfold Env.structOf? at hfs
    split at hfs
    · next g hform =>
      obtain rfl : form = .atom (.global g) := hform
      split at hfs
      · next he =>
        cases hfs
        exact h.closed g _ hty.1 he
      · cases hfs
    · cases hfs

/-- The function that is built in is hidden in both environments or in none. -/
theorem isBuiltinSlice_eq {g : GlobalName} (hg : S g) :
    env'.isBuiltinSlice g = env.isBuiltinSlice g := by
  have hmeaning := h.meaning g hg
  rw [Env.isBuiltinSlice, Env.isBuiltinSlice]
  generalize env.get? g = e, env'.get? g = e' at hmeaning
  cases hmeaning with
  | unknown | known => rfl
  | declared hslice => simp only [hslice, decide_false, Bool.false_and]

end Env.Coupled

/-! ## Folding -/

section
variable {σ : Relabeling} {S : GlobalName → Prop} {env env' : Env} (h : env.Coupled σ S env')
include h

/-- The result of an operation depends on the literals and on the range of the type. -/
theorem arithResult?_coupled {ty : Option Checked}
    (hty : ∀ t, ty = some t → t.Everywhere (Term.RefersInto S)) (op : ArithOp)
    (f g : Form .checked) :
    arithResult? env' (ty.map (·.relabel σ)) op (f.relabel σ) (g.relabel σ)
      = arithResult? env ty op f g := by
  cases f with
  | atom a =>
    cases g with
    | atom b =>
      cases a with
      | num m =>
        cases b with
        | num n =>
          cases ty with
          | none => rfl
          | some ty =>
            show ((env'.intType? (ty.relabel σ)).bind fun t => _)
              = (env.intType? ty).bind fun t => _
            rw [h.intType?_eq (hty ty rfl)]
        | _ => rfl
      | _ => rfl
    | _ => cases a <;> rfl
  | _ => rfl

/-- A member is selected by its position among the fields, which is the same under other names. -/
theorem selectMember?_coupled {x : Checked} (hx : x.Everywhere (Term.RefersInto S))
    (field : String) : selectMember? env' (x.relabel σ) (σ.name field)
      = (selectMember? env x field).map (·.relabel σ) := by
  simp only [selectMember?, Term.form_relabel, Form.pureElements?_relabel, Term.sort?_relabel,
    Option.bind_eq_bind]
  cases x.form.pureElements? with
  | none => rfl
  | some xs =>
    cases hsort : x.sort? with
    | none => rfl
    | some ty =>
      simp only [Option.map_some, Option.bind_some, h.fields?_eq (hx.sort hsort)]
      cases env.fields? ty with
      | none => rfl
      | some fs =>
        simp only [Option.map_some, Option.bind_some, Tele.positionOf?_relabel]
        cases fs.positionOf? field with
        | none => rfl
        | some i => exact getElem?_relabelList xs i

/-- Folding finds the same step in both environments. -/
theorem Term.fold?_coupled {t : Checked} (ht : t.Everywhere (Term.RefersInto S)) :
    (t.relabel σ).fold? env' = (t.fold? env).map (·.relabel σ) := by
  obtain ⟨note, form⟩ := t
  cases form with
  | unary op x =>
    cases op with
    | not =>
      obtain ⟨xnote, xform⟩ := x
      cases xform with
      | atom a => cases a <;> rfl
      | _ => rfl
    | member field => exact selectMember?_coupled h ht.2.2 field
    | _ => rfl
  | binary op x y =>
    cases op with
    | logic op =>
      obtain ⟨xnote, xform⟩ := x
      obtain ⟨ynote, yform⟩ := y
      cases xform with
      | atom a =>
        cases yform with
        | atom b => cases a <;> cases b <;> rfl
        | _ => cases a <;> rfl
      | _ => rfl
    | compare op =>
      simp only [Term.relabel, Form.relabel, Term.fold?, Term.form_relabel,
        compareLiterals?_relabel, Option.map_map]
      rfl
    | arith op =>
      have hsort : ∀ ty, note.sort? = some ty → ty.Everywhere (Term.RefersInto S) :=
        fun ty hty => ht.sort hty
      simp only [Term.relabel, Form.relabel, Term.fold?, Term.form_relabel, Note.sort?_relabel,
        arithResult?_coupled h hsort, Option.map_map]
      rfl
    | subscript => exact selectElement?_relabel x y
    | _ => rfl
  | app f args =>
    obtain ⟨fnote, fform⟩ := f
    cases fform with
    | atom a =>
      cases a with
      | global g =>
        have hg : S g := ht.2.2.1.1
        simp only [Term.relabel, Form.relabel, Term.fold?, dropElements?_relabel,
          h.isBuiltinSlice_eq hg]
        split
        · simp only [Option.map_map]
          rfl
        · rfl
      | _ => rfl
    | _ => rfl
  | _ => rfl

end

/-! ## Unfolding -/

/-- Two stacks of definitions being unfolded are of the same height and hold the same names of a
set. -/
structure StacksAgree (S : GlobalName → Prop) (stack₁ stack₂ : List GlobalName) : Prop where
  length : stack₁.length = stack₂.length
  contains : ∀ g, S g → stack₁.contains g = stack₂.contains g

theorem StacksAgree.nil {S : GlobalName → Prop} : StacksAgree S [] [] :=
  ⟨rfl, fun _ _ => rfl⟩

theorem StacksAgree.cons {S : GlobalName → Prop} {stack₁ stack₂ : List GlobalName}
    (h : StacksAgree S stack₁ stack₂) (g : GlobalName) : StacksAgree S (g :: stack₁) (g :: stack₂)
    where
  length := congrArg (· + 1) h.length
  contains g' hg' := by rw [List.contains_cons, List.contains_cons, h.contains g' hg']

section
variable {σ : Relabeling} {S : GlobalName → Prop} {env env' : Env} (h : env.Coupled σ S env')
include h

/-- Both environments unfold the same definitions. -/
theorem Term.unfolding?_coupled {stack stack' : List GlobalName}
    (hstacks : StacksAgree S stack stack') {t : Checked} (ht : t.Everywhere (Term.RefersInto S)) :
    (t.relabel σ).unfolding? env' stack'
      = (t.unfolding? env stack).map fun c => (c.1, c.2.relabel σ) := by
  have heffect := t.hasEffect_relabel σ
  obtain ⟨note, form⟩ := t
  cases form with
  | app f args =>
    obtain ⟨fnote, fform⟩ := f
    cases fform with
    | atom a =>
      cases a with
      | global g =>
        have hg : S g := ht.2.2.1.1
        simp only [Term.relabel, Form.relabel] at heffect
        simp only [Term.relabel, Form.relabel, Term.unfolding?, isValueList_relabel, heffect,
          h.function?_eq hg, h.inlineGlobals, h.unfoldLimit, ← hstacks.length,
          ← hstacks.contains g hg]
        cases env.function? g with
        | none => rfl
        | some f =>
          dsimp only [Option.map_some]
          split <;> rfl
      | _ => rfl
    | _ => rfl
  | _ => rfl

/-- A call that is unfolded mentions names of the set only, since the definition does. -/
theorem Env.Coupled.everywhere_unfolding {stack : List GlobalName} {t call : Checked}
    {g : GlobalName} (ht : t.Everywhere (Term.RefersInto S))
    (hcall : t.unfolding? env stack = some (g, call)) : call.Everywhere (Term.RefersInto S) := by
  unfold Term.unfolding? at hcall
  split at hcall
  · split at hcall
    · next hf =>
      split at hcall
      · cases hcall
        obtain ⟨-, hnote, ⟨hg, hfnote, -⟩, hargs⟩ := ht
        exact ⟨trivial, hnote, ⟨trivial, hfnote, h.everywhere_function hg hf⟩, hargs⟩
      · cases hcall
    · cases hcall
  · cases hcall

end

/-! ## Running side by side -/

/-- Two rewritings run alike: with the same number of attempts, both fail, or they return related
results and leave the same number of attempts. If `early` holds, the first one may also fail alone,
for lack of fuel. -/
def Rewriting.Coupled {α β : Type} (early : Prop) (R : α → β → Prop) (m : Rewriting α)
    (m' : Rewriting β) : Prop :=
  ∀ attempts, early ∧ m.run attempts = none ∨
    Option.Rel (fun r r' => R r.1 r'.1 ∧ r.2 = r'.2) (m.run attempts) (m'.run attempts)

namespace Rewriting.Coupled

variable {early : Prop} {α α' β β' : Type} {R : α → α' → Prop} {T : β → β' → Prop}

theorem failure : Coupled early R failure failure :=
  fun _ => .inr .none

/-- If the first run may end early, it is coupled with any other. -/
theorem failure_left (h : early) (m : Rewriting α') :
    Coupled early R (Alternative.failure : Rewriting α) m :=
  fun _ => .inl ⟨h, rfl⟩

theorem pure {a : α} {a' : α'} (h : R a a') : Coupled early R (pure a) (pure a') :=
  fun _ => .inr (.some ⟨h, rfl⟩)

theorem get : Coupled early (fun n n' => n = n') (get : Rewriting Nat) get :=
  fun _ => .inr (.some ⟨rfl, rfl⟩)

theorem set (n : Nat) : Coupled early (fun _ _ => True) (set n : Rewriting PUnit) (set n) :=
  fun _ => .inr (.some ⟨trivial, rfl⟩)

theorem mono {R' : α → α' → Prop} {m : Rewriting α} {m' : Rewriting α'}
    (h : Coupled early R m m') (hR : ∀ a a', R a a' → R' a a') : Coupled early R' m m' := by
  intro attempts
  refine (h attempts).imp id fun hrun => ?_
  generalize m.run attempts = r, m'.run attempts = r' at hrun ⊢
  cases hrun with
  | none => exact .none
  | some hr => exact .some ⟨hR _ _ hr.1, hr.2⟩

/-- Couplings are put together step by step; a run that ended early has ended. -/
theorem bind {m : Rewriting α} {m' : Rewriting α'} {k : α → Rewriting β} {k' : α' → Rewriting β'}
    (hm : Coupled early R m m') (hk : ∀ a a', R a a' → Coupled early T (k a) (k' a')) :
    Coupled early T (m >>= k) (m' >>= k') := by
  intro attempts
  rw [StateT.run_bind, StateT.run_bind]
  rcases hm attempts with ⟨hearly, hnone⟩ | hrun
  · rw [hnone]
    exact .inl ⟨hearly, rfl⟩
  · generalize m.run attempts = r, m'.run attempts = r' at hrun
    cases hrun with
    | none => exact .inr .none
    | @some r r' hr =>
      obtain ⟨hr, hleft⟩ := hr
      have hrest := hk r.1 r'.1 hr r.2
      simp only [Option.bind_eq_bind, Option.bind_some]
      rw [← hleft]
      exact hrest

theorem ite {c : Prop} [Decidable c] {m₁ m₂ : Rewriting α} {m₁' m₂' : Rewriting α'}
    (h₁ : Coupled early R m₁ m₁') (h₂ : Coupled early R m₂ m₂') :
    Coupled early R (if c then m₁ else m₂) (if c then m₁' else m₂') := by
  split
  · exact h₁
  · exact h₂

end Rewriting.Coupled

section
variable {α β : Type}

@[simp]
theorem Rewritten.result_map (f : α → β) (r : Rewritten α) : (r.map f).result = f r.result :=
  rfl

@[simp]
theorem Rewritten.changed_map (f : α → β) (r : Rewritten α) : (r.map f).changed = r.changed :=
  rfl

/-- A step that commutes with a map changes something alike. -/
theorem Rewritten.ofStep_map (f : α → β) (a : α) (step : Option α) :
    Rewritten.ofStep (f a) (step.map f) = (Rewritten.ofStep a step).map f := by
  cases step <;> rfl

end

/-- Two passes run alike. The second returns what `f` makes of the result of the first, and reports
a change if the first does; the result of the first has a property. -/
def Rewriting.Mirrors {α β : Type} (early : Prop) (f : α → β) (P : α → Prop)
    (m : Rewriting (Rewritten α)) (m' : Rewriting (Rewritten β)) : Prop :=
  Rewriting.Coupled early (fun r r' => r' = r.map f ∧ P r.result) m m'

namespace Rewriting.Mirrors

variable {early : Prop} {α α' β β' : Type} {f : α → α'} {P : α → Prop} {g : β → β'} {Q : β → Prop}

theorem pure {r : Rewritten α} {r' : Rewritten α'} (hr : r' = r.map f) (h : P r.result) :
    Mirrors early f P (pure r) (pure r') :=
  Coupled.pure ⟨hr, h⟩

theorem bind {m : Rewriting (Rewritten α)} {m' : Rewriting (Rewritten α')}
    {k : Rewritten α → Rewriting (Rewritten β)} {k' : Rewritten α' → Rewriting (Rewritten β')}
    (hm : Mirrors early f P m m')
    (hk : ∀ r, P r.result → Mirrors early g Q (k r) (k' (r.map f))) :
    Mirrors early g Q (m >>= k) (m' >>= k') := by
  refine Coupled.bind hm ?_
  rintro r _ ⟨rfl, hr⟩
  exact hk r hr

end Rewriting.Mirrors

/-! ## Normalisation -/

open Rewriting (Coupled Mirrors)

/-- All functions of normalisation run side by side with fuel `n` and `n'`: on trees that mention
names of a set only, and on the same trees relabeled. What they return mentions names of the set
only. -/
structure NormalizesAlike (σ : Relabeling) (S : GlobalName → Prop) (early : Prop) (env env' : Env)
    (n n' : Nat) : Prop where
  term : ∀ {stack stack'}, StacksAgree S stack stack' → ∀ t, t.Everywhere (Term.RefersInto S) →
    Mirrors early (·.relabel σ) (·.Everywhere (Term.RefersInto S)) (normalizeTerm env n stack t)
      (normalizeTerm env' n' stack' (t.relabel σ))
  parts : ∀ {stack stack'}, StacksAgree S stack stack' → ∀ t, t.Everywhere (Term.RefersInto S) →
    Mirrors early (·.relabel σ) (·.Everywhere (Term.RefersInto S)) (normalizeParts env n stack t)
      (normalizeParts env' n' stack' (t.relabel σ))
  list : ∀ {stack stack'}, StacksAgree S stack stack' → ∀ xs,
    EverywhereList (Term.RefersInto S) xs →
    Mirrors early (relabelList σ) (EverywhereList (Term.RefersInto S))
      (normalizeList env n stack xs) (normalizeList env' n' stack' (relabelList σ xs))
  tele : ∀ {stack stack'}, StacksAgree S stack stack' → ∀ {k : Binder} (t : Tele .checked k),
    t.Everywhere (Term.RefersInto S) →
    Mirrors early (·.relabel σ) (·.Everywhere (Term.RefersInto S)) (normalizeTele env n stack t)
      (normalizeTele env' n' stack' (t.relabel σ))
  call : ∀ {stack stack'}, StacksAgree S stack stack' → ∀ t, t.Everywhere (Term.RefersInto S) →
    Mirrors early (·.relabel σ) (·.Everywhere (Term.RefersInto S)) (unfoldCall env n stack t)
      (unfoldCall env' n' stack' (t.relabel σ))
  body : ∀ {stack stack'}, StacksAgree S stack stack' → ∀ b,
    EverywhereBody (Term.RefersInto S) b →
    Mirrors early (relabelBody σ) (EverywhereBody (Term.RefersInto S))
      (normalizeBody env n stack b) (normalizeBody env' n' stack' (relabelBody σ b))
  stmts : ∀ {stack stack'}, StacksAgree S stack stack' → ∀ b,
    EverywhereBody (Term.RefersInto S) b →
    Mirrors early (relabelBody σ) (EverywhereBody (Term.RefersInto S))
      (normalizeStmts env n stack b) (normalizeStmts env' n' stack' (relabelBody σ b))
  stmt : ∀ {stack stack'}, StacksAgree S stack stack' → ∀ s, s.Everywhere (Term.RefersInto S) →
    Mirrors early (·.relabel σ) (·.Everywhere (Term.RefersInto S)) (normalizeStmt env n stack s)
      (normalizeStmt env' n' stack' (s.relabel σ))

namespace NormalizesAlike

variable {σ : Relabeling} {S : GlobalName → Prop} {early : Prop} {env env' : Env} {n n' : Nat}
  {stack stack' : List GlobalName}

section
variable (ih : NormalizesAlike σ S early env env' n n') (hst : StacksAgree S stack stack')
include ih hst

/-- One pass over a term: both runs reduce, fold and unfold at the root, or neither does. -/
theorem term_succ (h : env.Coupled σ S env') (t : Checked)
    (ht : t.Everywhere (Term.RefersInto S)) :
    Mirrors early (·.relabel σ) (·.Everywhere (Term.RefersInto S))
      (normalizeTerm env (n + 1) stack t) (normalizeTerm env' (n' + 1) stack' (t.relabel σ)) := by
  rw [normalizeTerm, normalizeTerm]
  refine (ih.parts hst t ht).bind fun ps hps => ?_
  have hbeta := hps.beta (substitutive_refersInto S)
  simp only [Rewritten.result_map, Rewritten.changed_map, Term.beta?_relabel,
    Rewritten.ofStep_map, Term.fold?_coupled h hbeta]
  refine (ih.call hst _ (hbeta.fold (substitutive_refersInto S) env)).bind fun u hu => ?_
  exact .ite ((ih.term hst _ hu).bind fun _ hr => .pure rfl hr) (.pure ⟨rfl, hu⟩)

/-- The parts of a term are normalised in their places. -/
theorem parts_succ (t : Checked) (ht : t.Everywhere (Term.RefersInto S)) :
    Mirrors early (·.relabel σ) (·.Everywhere (Term.RefersInto S))
      (normalizeParts env (n + 1) stack t) (normalizeParts env' (n' + 1) stack' (t.relabel σ)) := by
  obtain ⟨note, form⟩ := t
  cases form with
  | atom a => exact .pure rfl ht
  | var v => exact .pure rfl ht
  | unary op x =>
    exact (ih.term hst x ht.2.2).bind fun _ hx => .pure rfl ⟨trivial, ht.2.1, hx⟩
  | binary op x y =>
    refine (ih.term hst x ht.2.2.1).bind fun _ hx => ?_
    exact (ih.term hst y ht.2.2.2).bind fun _ hy => .pure rfl ⟨trivial, ht.2.1, hx, hy⟩
  | app f args =>
    refine (ih.term hst f ht.2.2.1).bind fun _ hf => ?_
    exact (ih.list hst args ht.2.2.2).bind fun _ ha => .pure rfl ⟨trivial, ht.2.1, hf, ha⟩
  | list xs => exact (ih.list hst xs ht.2.2).bind fun _ hx => .pure rfl ⟨trivial, ht.2.1, hx⟩
  | bind k t => exact (ih.tele hst t ht.2.2).bind fun _ ht' => .pure rfl ⟨trivial, ht.2.1, ht'⟩

theorem list_succ (xs : List Checked) (hxs : EverywhereList (Term.RefersInto S) xs) :
    Mirrors early (relabelList σ) (EverywhereList (Term.RefersInto S))
      (normalizeList env (n + 1) stack xs)
      (normalizeList env' (n' + 1) stack' (relabelList σ xs)) := by
  cases xs with
  | nil => exact .pure rfl trivial
  | cons x xs =>
    refine (ih.term hst x hxs.1).bind fun _ hx => ?_
    exact (ih.list hst xs hxs.2).bind fun _ hxs => .pure rfl ⟨hx, hxs⟩

/-- The types of a telescope are normalised from the left. -/
theorem tele_succ {k : Binder} (t : Tele .checked k) (ht : t.Everywhere (Term.RefersInto S)) :
    Mirrors early (·.relabel σ) (·.Everywhere (Term.RefersInto S))
      (normalizeTele env (n + 1) stack t) (normalizeTele env' (n' + 1) stack' (t.relabel σ)) := by
  cases t with
  | fields => exact .pure rfl trivial
  | returns m ret => exact (ih.term hst ret ht).bind fun _ hr => .pure rfl hr
  | runs m ret b =>
    refine (ih.term hst ret ht.1).bind fun _ hr => ?_
    exact (ih.body hst b ht.2).bind fun _ hb => .pure rfl ⟨hr, hb⟩
  | arg mark qty ty v rest =>
    refine (ih.term hst ty ht.1).bind fun _ hty => ?_
    exact (ih.tele hst rest ht.2).bind fun _ hr => .pure rfl ⟨hty, hr⟩

/-- Both runs spend an attempt on the same definition, and both keep the result or neither does. -/
theorem call_succ (h : env.Coupled σ S env') (t : Checked)
    (ht : t.Everywhere (Term.RefersInto S)) :
    Mirrors early (·.relabel σ) (·.Everywhere (Term.RefersInto S))
      (unfoldCall env (n + 1) stack t) (unfoldCall env' (n' + 1) stack' (t.relabel σ)) := by
  rw [unfoldCall, unfoldCall]
  refine Coupled.get.bind ?_
  rintro attempts _ rfl
  -- the result is kept if it is not stuck and not the term itself, which no relabeling changes
  rw [Term.unfolding?_coupled h hst ht]
  cases hcall : t.unfolding? env stack with
  | none => exact Mirrors.pure rfl ht
  | some c =>
    cases attempts with
    | zero => exact Mirrors.pure rfl ht
    | succ attempts =>
      refine (Coupled.set attempts).bind fun _ _ _ => ?_
      refine (ih.term (hst.cons c.1) c.2 (h.everywhere_unfolding ht hcall)).bind fun u hu => ?_
      simp only [Rewritten.result_map, Term.isStuck_relabel, Term.alphaEq_relabel]
      exact .ite (.pure ⟨rfl, ht⟩) (.pure ⟨rfl, hu⟩)

/-- A body is rewritten again in both runs or in none: the passes commute with relabelings and
report alike whether they changed something. -/
theorem body_succ (b : Body .checked) (hb : EverywhereBody (Term.RefersInto S) b) :
    Mirrors early (relabelBody σ) (EverywhereBody (Term.RefersInto S))
      (normalizeBody env (n + 1) stack b)
      (normalizeBody env' (n' + 1) stack' (relabelBody σ b)) := by
  rw [normalizeBody, normalizeBody, dropUnreachable_relabel]
  refine (ih.stmts hst _ (dropUnreachable_everywhere hb)).bind fun ss hss => ?_
  have hpruned := pruneStmts_everywhere hss
  simp only [Rewritten.result_map, Rewritten.changed_map, pruneStmts_relabel]
  exact .ite ((ih.body hst _ hpruned).bind fun _ hr => .pure rfl hr) (.pure ⟨rfl, hpruned⟩)

/-- Statements are normalised up to the first that always terminates, the same in both runs. -/
theorem stmts_succ (b : Body .checked) (hb : EverywhereBody (Term.RefersInto S) b) :
    Mirrors early (relabelBody σ) (EverywhereBody (Term.RefersInto S))
      (normalizeStmts env (n + 1) stack b)
      (normalizeStmts env' (n' + 1) stack' (relabelBody σ b)) := by
  cases b with
  | nil => exact .pure rfl trivial
  | cons s rest =>
    refine (ih.stmt hst s hb.1).bind fun s' hs => ?_
    simp only [Rewritten.result_map, Stmt.stops_relabel]
    refine .ite (.pure ⟨rfl, hs, hb.2⟩) ?_
    exact (ih.stmts hst rest hb.2).bind fun _ hr => .pure rfl ⟨hs, hr⟩

theorem stmt_succ (s : Stmt .checked) (hs : s.Everywhere (Term.RefersInto S)) :
    Mirrors early (·.relabel σ) (·.Everywhere (Term.RefersInto S))
      (normalizeStmt env (n + 1) stack s) (normalizeStmt env' (n' + 1) stack' (s.relabel σ)) := by
  cases s with
  | call m x => exact (ih.term hst x hs).bind fun _ hx => .pure rfl hx
  | ifThen m cond yes =>
    refine (ih.term hst cond hs.1).bind fun _ hc => ?_
    exact (ih.body hst yes hs.2).bind fun _ hy => .pure rfl ⟨hc, hy⟩
  | ifElse m cond yes no =>
    refine (ih.term hst cond hs.1).bind fun _ hc => (ih.body hst yes hs.2.1).bind fun _ hy => ?_
    exact (ih.body hst no hs.2.2).bind fun _ hn => .pure rfl ⟨hc, hy, hn⟩
  | ret m x => exact (ih.term hst x hs).bind fun _ hx => .pure rfl hx
  | retUnit m => exact .pure rfl trivial
  | impossible m => exact .pure rfl trivial
  | impossibleBy m x => exact (ih.term hst x hs).bind fun _ hx => .pure rfl hx

end

/-- Without fuel both runs fail. -/
theorem zero : NormalizesAlike σ S early env env' 0 0 := by
  constructor <;> intros
  all_goals exact Coupled.failure

/-- A run without fuel may end early. -/
theorem zero_left (hearly : early) (n' : Nat) : NormalizesAlike σ S early env env' 0 n' := by
  constructor <;> intros
  all_goals exact Coupled.failure_left hearly _

/-- One more unit of fuel on both sides: the lemmas above, one for each function. -/
theorem succ (h : env.Coupled σ S env') (ih : NormalizesAlike σ S early env env' n n') :
    NormalizesAlike σ S early env env' (n + 1) (n' + 1) where
  term hst := ih.term_succ hst h
  parts hst := ih.parts_succ hst
  list hst := ih.list_succ hst
  tele hst _ := ih.tele_succ hst
  call hst := ih.call_succ hst h
  body hst := ih.body_succ hst
  stmts hst := ih.stmts_succ hst
  stmt hst := ih.stmt_succ hst

end NormalizesAlike

/-- The same fuel is enough for both runs. -/
theorem enough_refl (early : Prop) (n : Nat) : n = n ∨ early ∧ n ≤ n :=
  .inl rfl

/-- Normalisation runs side by side in environments that are coupled, with the same fuel or, where
the first run may end early, with more. -/
theorem normalize_coupled {σ : Relabeling} {S : GlobalName → Prop} {env env' : Env}
    (h : env.Coupled σ S env') {early : Prop} : ∀ {n n' : Nat}, (n = n' ∨ early ∧ n ≤ n') →
      NormalizesAlike σ S early env env' n n'
  -- the fuel of both runs goes down together; only the first may be used up before the other
  | 0, 0, _ => .zero
  | 0, _ + 1, hfuel => by
    rcases hfuel with hfuel | ⟨hearly, -⟩
    · cases hfuel
    · exact .zero_left hearly _
  | _ + 1, 0, hfuel => by
    rcases hfuel with hfuel | ⟨-, hle⟩
    · cases hfuel
    · cases hle
  | n + 1, n' + 1, hfuel => by
    refine .succ h (normalize_coupled h ?_)
    exact hfuel.imp Nat.succ.inj fun hle => ⟨hle.1, Nat.le_of_succ_le_succ hle.2⟩

/-- The normal form of a term in one environment gives the normal form of the relabeled term in
another. Only if the first run may end early, the second can find a normal form alone. -/
theorem Env.Coupled.normalize? {σ : Relabeling} {S : GlobalName → Prop} {env env' : Env}
    (h : env.Coupled σ S env') {early : Prop} {n n' : Nat} (hfuel : n = n' ∨ early ∧ n ≤ n')
    {t : Checked} (ht : t.Everywhere (Term.RefersInto S)) :
    early ∧ env.normalize? n t = none ∨
      env'.normalize? n' (t.relabel σ) = (env.normalize? n t).map (·.relabel σ) := by
  have hrun := (normalize_coupled h hfuel).term .nil t ht env.unfoldFuel
  rw [Env.normalize?, Env.normalize?, h.unfoldFuel]
  rcases hrun with ⟨hearly, hnone⟩ | hrun
  · rw [hnone]
    exact .inl ⟨hearly, rfl⟩
  · generalize (normalizeTerm env n [] t).run env.unfoldFuel = r,
      (normalizeTerm env' n' [] (t.relabel σ)).run env.unfoldFuel = r' at hrun ⊢
    cases hrun with
    | none => exact .inr rfl
    | some hr =>
      obtain ⟨⟨hsame, -⟩, -⟩ := hr
      simp only [Option.map_some, hsame]
      exact .inr rfl

/-- More fuel keeps the normal form that an environment gives to a term. -/
theorem Env.normalize?_mono (env : Env) {n m : Nat} (h : n ≤ m) {t u : Checked}
    (hn : env.normalize? n t = some u) : env.normalize? m t = some u := by
  have ht : t.Everywhere (Term.RefersInto fun _ => True) :=
    t.everywhere_of_forall (Term.refersInto_of_forall fun _ => trivial)
  have hruns := env.coupled_refl.normalize? (.inr ⟨trivial, h⟩) ht
  simp only [hn, reduceCtorEq, and_false, false_or, Option.map_some, Term.relabel_identity] at hruns
  exact hruns

end DependentCore
