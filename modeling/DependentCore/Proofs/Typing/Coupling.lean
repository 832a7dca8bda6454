import DependentCore.Proofs.Typing.Everywhere
import DependentCore.Proofs.Typing.Relabeling

/-!
# Two runs of the checker

Several facts compare two runs of the checker. The runs may differ in the names of variables, in the
fuel, in the globals that nothing mentions, in the functions that are declared, in what the contexts
say about other variables, and in the effects that are allowed. A `Coupling` says in which of these
respects they differ; all that the checker does in one step is compared here for any coupling, and
the rules are in the module `Runs`.

With more declarations or effects, the second run accepts more than the first. This is not plain for
calls with placeholders: an argument whose type cannot be determined is passed over when a value is
searched, and in the second run its type might be determined. But such an argument is checked
against its own type afterwards, so it is accepted in some mode; and then it has the same outcome in
every mode. So a coupling that is `strict` compares only what the first run accepts in some mode.

* `Check.Mirrors`: both checks succeed with related results, both reject or both run out of fuel,
* `Check.Coupled`: the same, but the first check may run out of fuel alone,
* `Coupling`: two runs that are compared,
* `Coupling.Run`, `Coupling.Modes`: two checks are compared, in one mode or in all modes,
* `Coupling.Contexts`: contexts that say the same about the variables of a set.
-/

namespace DependentCore

/-! ## Outcomes -/

theorem Check.ok_bind {α β : Type} (a : α) (f : α → Check β) : (Except.ok a >>= f) = f a :=
  rfl

/-- Both checks succeed with related results, both reject, or both run out of fuel. -/
def Check.Mirrors {α β : Type} (R : α → β → Prop) : Check α → Check β → Prop
  | .ok a, .ok b => R a b
  | .error (.rejected _), .error (.rejected _) => True
  | .error .outOfFuel, .error .outOfFuel => True
  | _, _ => False

namespace Check.Mirrors

variable {α β : Type} {R : α → β → Prop} {c : Check α} {c' : Check β}

/-- Corresponding checks succeed together. -/
theorem isOk_iff (h : Mirrors R c c') : (∃ a, c = .ok a) ↔ ∃ a', c' = .ok a' := by
  rcases c with (_ | _) | a <;> rcases c' with (_ | _) | a' <;> first | exact h.elim | simp

/-- What corresponding checks return is related. -/
theorem related (h : Mirrors R c c') {a : α} {a' : β} (ha : c = .ok a) (ha' : c' = .ok a') :
    R a a' := by
  subst ha ha'
  exact h

/-- Of two checks with the same outcome the second accepts what the first does. -/
theorem ok_eq {c c' : Check α} (h : Mirrors Eq c c') {a : α} (hc : c = .ok a) : c' = .ok a := by
  obtain ⟨a', ha'⟩ := h.isOk_iff.mp ⟨a, hc⟩
  rw [h.related hc ha', ha']

/-- Checks with the same outcome accept the same. -/
theorem eq_ok_iff {c c' : Check α} (h : Mirrors Eq c c') {a : α} : c = .ok a ↔ c' = .ok a := by
  refine ⟨h.ok_eq, fun hc' => ?_⟩
  obtain ⟨b, hb⟩ := h.isOk_iff.mpr ⟨a, hc'⟩
  rw [hb, h.related hb hc']

theorem mono {R' : α → β → Prop} (h : Mirrors R c c') (hR : ∀ a a', R a a' → R' a a') :
    Mirrors R' c c' := by
  rcases c with (_ | _) | a <;> rcases c' with (_ | _) | a'
  all_goals first | exact h.elim | exact hR a a' h | trivial

end Check.Mirrors

/-- Two checks have corresponding outcomes. If `early` holds, the first may also run out of fuel
alone. -/
def Check.Coupled {α β : Type} (early : Prop) (R : α → β → Prop) (c : Check α) (c' : Check β) :
    Prop :=
  early ∧ c = .error .outOfFuel ∨ Check.Mirrors R c c'

namespace Check.Coupled

variable {early : Prop} {α α' β β' : Type} {R : α → α' → Prop} {T : β → β' → Prop}
  {c : Check α} {c' : Check α'}

theorem ok {a : α} {a' : α'} (h : R a a') : Coupled early R (.ok a) (.ok a') :=
  .inr h

theorem pure {a : α} {a' : α'} (h : R a a') : Coupled early R (pure a) (pure a') :=
  .inr h

/-- Two checks that reject correspond, whatever they report. -/
theorem reject {cause cause' : Cause} {loc loc' : Location} {ctx ctx' : Context}
    {expected expected' : Option Checked} :
    Coupled early R (reject cause loc ctx expected) (reject cause' loc' ctx' expected') :=
  .inr trivial

/-- The rest of a check is run only on what was accepted. -/
theorem bind_of_ok {k : α → Check β} {k' : α' → Check β'} (hc : Coupled early R c c')
    (hk : ∀ a a', c = .ok a → R a a' → Coupled early T (k a) (k' a')) :
    Coupled early T (c >>= k) (c' >>= k') := by
  rcases hc with ⟨hearly, rfl⟩ | hc
  · exact .inl ⟨hearly, rfl⟩
  · rcases c with (_ | _) | a <;> rcases c' with (_ | _) | a'
    all_goals first | exact hc.elim | exact .inr trivial | exact hk a a' rfl hc

theorem bind {k : α → Check β} {k' : α' → Check β'} (hc : Coupled early R c c')
    (hk : ∀ a a', R a a' → Coupled early T (k a) (k' a')) :
    Coupled early T (c >>= k) (c' >>= k') :=
  hc.bind_of_ok fun a a' _ => hk a a'

theorem ite {P : Prop} [Decidable P] {c₁ c₂ : Check α} {c₁' c₂' : Check α'}
    (h₁ : Coupled early R c₁ c₁') (h₂ : Coupled early R c₂ c₂') :
    Coupled early R (if P then c₁ else c₂) (if P then c₁' else c₂') := by
  split
  · exact h₁
  · exact h₂

theorem mono {R' : α → α' → Prop} (h : Coupled early R c c') (hR : ∀ a a', R a a' → R' a a') :
    Coupled early R' c c' :=
  h.imp_right (·.mono hR)

/-- What the first check accepts, the second accepts too. -/
theorem ok_eq {c c' : Check α} (h : Coupled early Eq c c') {a : α} (hc : c = .ok a) :
    c' = .ok a := by
  rcases h with ⟨-, hfuel⟩ | h
  · cases hc.symm.trans hfuel
  · exact h.ok_eq hc

/-- If the first check may not end early, the outcomes correspond. -/
theorem mirrors (h : Coupled False R c c') : Check.Mirrors R c c' :=
  h.resolve_left fun hearly => hearly.1

end Check.Coupled

/-! ## Couplings -/

/-- Two runs of the checker that are compared. The environments and the fuel may differ as they may
for normalisation. -/
structure Coupling where
  env : Env
  env' : Env
  fuel : Nat
  fuel' : Nat
  /-- How the variables and fields of the first run are called in the second. -/
  σ : Relabeling
  /-- The globals that checked terms mention. -/
  names : GlobalName → Prop
  /-- Whether the first run may end for lack of fuel where the second does not. -/
  early : Prop
  /-- Whether only what the first run accepts is compared. -/
  strict : Prop
  coupled : env.Coupled σ names env'
  enough : fuel = fuel' ∨ early ∧ fuel ≤ fuel'

/-- A global that may be mentioned in the program: it means the same in both runs. If it is the
function that is built in, its signature is not changed; and if it is declared in the second run
only, what mentions it is compared only if the first run accepts it. -/
structure Coupling.Mentions (c : Coupling) (g : GlobalName) : Prop where
  mem : c.names g
  slice : g = sliceName → Checked.slice.relabel c.σ = Checked.slice
  known : c.strict ∨ (c.env.get? g = none → c.env'.get? g = none)

namespace Coupling

/-- The property that all nodes of the checked terms have. -/
abbrev Node (c : Coupling) : Checked → Prop :=
  Term.RefersInto c.names

/-- The terms that the two runs return. -/
abbrev Terms (c : Coupling) (t t' : Checked) : Prop :=
  t' = t.relabel c.σ ∧ t.Everywhere c.Node

/-- The lists of terms that the two runs return. -/
abbrev Lists (c : Coupling) (ts ts' : List Checked) : Prop :=
  ts' = relabelList c.σ ts ∧ EverywhereList c.Node ts

/-- The telescopes that the two runs return. -/
abbrev Teles (c : Coupling) {k : Binder} (t t' : Tele .checked k) : Prop :=
  t' = t.relabel c.σ ∧ t.Everywhere c.Node

/-- The statements that the two runs return. -/
abbrev Stmts (c : Coupling) (s s' : Stmt .checked) : Prop :=
  s' = s.relabel c.σ ∧ s.Everywhere c.Node

/-- The bodies that the two runs return. -/
abbrev Bodies (c : Coupling) (b b' : List (Stmt .checked)) : Prop :=
  b' = relabelBody c.σ b ∧ EverywhereBody c.Node b

variable {c : Coupling} {α α' β β' : Type} {R : α → α' → Prop} {T : β → β' → Prop}

/-! ## Comparing checks -/

/-- Two checks have corresponding outcomes, if the first is accepted or this is not asked for. -/
def Run (c : Coupling) (R : α → α' → Prop) (m : Check α) (m' : Check α') : Prop :=
  (c.strict → ∃ a, m = .ok a) → Check.Coupled c.early R m m'

/-- Two checks have corresponding outcomes in all modes, if the first is accepted in some mode or
this is not asked for. -/
def Modes (c : Coupling) (R : α → α' → Prop) (f : Mode → Check α) (f' : Mode → Check α') : Prop :=
  (c.strict → ∃ mode a, f mode = .ok a) → ∀ mode, mode.Everywhere c.Node →
    Check.Coupled c.early R (f mode) (f' (mode.relabel c.σ))

theorem Run.of_coupled {m : Check α} {m' : Check α'} (h : Check.Coupled c.early R m m') :
    c.Run R m m' :=
  fun _ => h

/-- If all is accepted, so is what comes first, and then what comes next. -/
theorem Run.bind {m : Check α} {m' : Check α'} {k : α → Check β} {k' : α' → Check β'}
    (hm : c.Run R m m') (hk : ∀ a a', R a a' → c.Run T (k a) (k' a')) :
    c.Run T (m >>= k) (m' >>= k') := by
  intro haccepted
  refine (hm fun hstrict => ?_).bind_of_ok fun a a' ha hR => hk a a' hR fun hstrict => ?_
  · obtain ⟨b, hb⟩ := haccepted hstrict
    obtain ⟨a, ha, -⟩ := Check.bind_eq_ok.mp hb
    exact ⟨a, ha⟩
  · obtain ⟨b, hb⟩ := haccepted hstrict
    rw [ha, Check.ok_bind] at hb
    exact ⟨b, hb⟩

/-- What comes first does not depend on the mode. -/
theorem Modes.bind {m : Check α} {m' : Check α'} {k : α → Mode → Check β}
    {k' : α' → Mode → Check β'} (hm : c.Run R m m')
    (hk : ∀ a a', R a a' → c.Modes T (k a) (k' a')) :
    c.Modes T (fun mode => m >>= fun a => k a mode) (fun mode => m' >>= fun a => k' a mode) := by
  intro haccepted mode hmode
  refine (hm fun hstrict => ?_).bind_of_ok fun a a' ha hR =>
    hk a a' hR (fun hstrict => ?_) mode hmode
  · obtain ⟨_, b, hb⟩ := haccepted hstrict
    obtain ⟨a, ha, -⟩ := Check.bind_eq_ok.mp hb
    exact ⟨a, ha⟩
  · obtain ⟨mode', b, hb⟩ := haccepted hstrict
    rw [ha] at hb
    exact ⟨mode', b, hb⟩

theorem Modes.reject {cause cause' : Cause} {loc loc' : Location} {ctx ctx' : Context} :
    c.Modes R (fun _ => reject cause loc ctx) (fun _ => DependentCore.reject cause' loc' ctx') :=
  fun _ _ _ => .reject

theorem Run.reject {cause cause' : Cause} {loc loc' : Location} {ctx ctx' : Context}
    {expected expected' : Option Checked} :
    c.Run R (reject cause loc ctx expected) (DependentCore.reject cause' loc' ctx' expected') :=
  fun _ => .reject

theorem Run.pure {a : α} {a' : α'} (h : R a a') : c.Run R (pure a) (pure a') :=
  fun _ => .pure h

theorem Run.ite {P : Prop} [Decidable P] {m₁ m₂ : Check α} {m₁' m₂' : Check α'}
    (h₁ : c.Run R m₁ m₁') (h₂ : c.Run R m₂ m₂') :
    c.Run R (if P then m₁ else m₂) (if P then m₁' else m₂') := by
  split
  · exact h₁
  · exact h₂

theorem Modes.ite {P : Prop} [Decidable P] {f₁ f₂ : Mode → Check α} {f₁' f₂' : Mode → Check α'}
    (h₁ : c.Modes R f₁ f₁') (h₂ : c.Modes R f₂ f₂') :
    c.Modes R (fun mode => if P then f₁ mode else f₂ mode)
      (fun mode => if P then f₁' mode else f₂' mode) := by
  by_cases hP : P
  · simp only [if_pos hP]
    exact h₁
  · simp only [if_neg hP]
    exact h₂

/-! ## Contexts -/

/-- Two contexts say the same about the variables of a set and assume the same facts. They allow the
same effects, or the first allows none and only what it accepts is compared. -/
structure Contexts (c : Coupling) (V : Var → Prop) (ctx ctx' : Context) : Prop where
  mutability : ctx'.mutability = ctx.mutability ∨ c.strict ∧ ctx.mutability = .no
  lookup : ∀ v, V v → (ctx'.lookup? (v.relabel c.σ)).map (·.meaning)
    = (ctx.lookup? v).map (·.meaning.relabel c.σ)
  assumptions : ctx'.assumptions = relabelList c.σ ctx.assumptions
  everywhere : ctx.Everywhere c.Node
  facts : EverywhereList c.Node ctx.assumptions

/-- The same variables are declared in the innermost scopes of two contexts. -/
def SameInner (c : Coupling) (ctx ctx' : Context) : Prop :=
  ∀ v, (ctx'.inner.find? (v.relabel c.σ)).isSome = (ctx.inner.find? v).isSome

namespace Contexts

variable {V : Var → Prop} {ctx ctx' : Context} (h : c.Contexts V ctx ctx')
include h

/-- A scope of given effects is opened in both contexts. -/
theorem newScopeOf (m : Mutability) : c.Contexts V (ctx.newScopeOf m) (ctx'.newScopeOf m) where
  mutability := .inl rfl
  lookup := h.lookup
  assumptions := h.assumptions
  everywhere := h.everywhere.newScopeOf m
  facts := h.facts

theorem newScope : c.Contexts V ctx.newScope ctx'.newScope where
  mutability := h.mutability
  lookup := h.lookup
  assumptions := h.assumptions
  everywhere := h.everywhere.newScope
  facts := h.facts

/-- Corresponding facts are assumed in both contexts. -/
theorem assume {fact fact' : Checked} (hfact : c.Terms fact fact') :
    c.Contexts V (ctx.assume fact) (ctx'.assume fact') := by
  obtain ⟨rfl, hfact⟩ := hfact
  exact ⟨h.mutability, h.lookup, congrArg (fact.relabel c.σ :: ·) h.assumptions,
    h.everywhere.assume fact, hfact, h.facts⟩

/-- Corresponding statements teach corresponding conditions. -/
theorem learn {s s' : Stmt .checked} (hs : c.Stmts s s') :
    c.Contexts V (s.learn ctx) (s'.learn ctx') := by
  obtain ⟨rfl, hs⟩ := hs
  cases s with
  | ifThen _ cond yes =>
    simp only [Stmt.relabel, Stmt.learn, returnsAlways_relabel]
    split
    · exact h.assume ⟨rfl, trivial, ⟨trivial, ⟨trivial, trivial, trivial⟩, trivial⟩, hs.1⟩
    · exact h
  | ifElse _ cond yes no =>
    simp only [Stmt.relabel, Stmt.learn, returnsAlways_relabel]
    split
    · exact h.assume ⟨rfl, hs.1⟩
    · exact h
  | _ => exact h

/-- A variable that is declared in both contexts is one of those about which they say the same. -/
theorem withDecl (v : Var) {d d' : Declaration} (hd : d'.meaning = d.meaning.relabel c.σ)
    (heverywhere : d.meaning.Everywhere c.Node) :
    c.Contexts (fun w => some v = some w ∨ V w) (ctx.withDecl v d)
      (ctx'.withDecl (v.relabel c.σ) d') where
  mutability := h.mutability
  lookup w hw := by
    simp only [Context.lookup?_withDecl, Var.relabel_inj]
    by_cases hv : v = w
    · rw [if_pos hv, if_pos hv]
      exact congrArg some hd
    · rw [if_neg hv, if_neg hv]
      exact h.lookup w (hw.resolve_left fun he => hv (Option.some.inj he))
  assumptions := h.assumptions
  everywhere := h.everywhere.withDecl v heverywhere
  facts := h.facts

/-- An argument is declared in both contexts or in none. -/
theorem declareArg (hinner : c.SameInner ctx ctx') (loc loc' : Location) (qty : Quantity)
    {ty ty' : Checked} (hty : c.Terms ty ty') (v : Option Var) :
    Check.Coupled c.early
      (fun ctx₁ ctx₁' => c.Contexts (fun w => v = some w ∨ V w) ctx₁ ctx₁' ∧ c.SameInner ctx₁ ctx₁')
      (declareArg ctx loc qty ty v)
      (DependentCore.declareArg ctx' loc' qty ty' (v.map (·.relabel c.σ))) := by
  obtain ⟨rfl, hty⟩ := hty
  cases v with
  | none =>
    refine .ok ⟨⟨h.mutability, fun w hw => ?_, h.assumptions, h.everywhere, h.facts⟩, hinner⟩
    exact h.lookup w (hw.resolve_left (Option.some_ne_none w).symm)
  | some v =>
    have hv := hinner v
    simp only [DependentCore.declareArg, Context.declare, Option.map_some]
    cases hfind : ctx.inner.find? v with
    | some d =>
      rw [hfind] at hv
      obtain ⟨d', hd'⟩ := Option.isSome_iff_exists.mp hv
      rw [hd']
      exact .reject
    | none =>
      rw [hfind] at hv
      rw [Option.isNone_iff_eq_none.mp (Option.isSome_eq_false_iff.mp hv)]
      refine .ok ⟨h.withDecl v ?_ ?_, fun w => ?_⟩
      · obtain ⟨note, form⟩ := ty
        cases form with
        | atom a => cases a <;> rfl
        | _ => rfl
      · split
        · trivial
        · exact hty
      · show ((ctx'.withDecl _ _).inner.find? _).isSome = ((ctx.withDecl _ _).inner.find? _).isSome
        simp only [Context.find?_withDecl, Var.relabel_inj]
        split
        · rfl
        · exact hinner w

end Contexts

/-! ## Types and facts -/

section
variable (c) {V : Var → Prop} {ctx ctx' : Context} {loc loc' : Location}

/-- Corresponding types have corresponding normal forms, if the fuel suffices. -/
theorem normal {t : Checked} (ht : t.Everywhere c.Node) :
    Check.Coupled c.early (fun u u' => u' = u.relabel c.σ) (c.env.normal c.fuel t)
      (c.env'.normal c.fuel' (t.relabel c.σ)) := by
  rw [Env.normal, Env.normal]
  rcases c.coupled.normalize? c.enough ht with ⟨hearly, hnone⟩ | hsame
  · rw [hnone]
    exact .inl ⟨hearly, rfl⟩
  · rw [hsame]
    cases c.env.normalize? c.fuel t with
    | none => exact .inr trivial
    | some u => exact .ok rfl

/-- Types are equivalent if their normal forms are equal up to bound names, which relabeling does
not change. -/
theorem equivalent {a b : Checked} (ha : a.Everywhere c.Node) (hb : b.Everywhere c.Node) :
    Check.Coupled c.early Eq (c.env.equivalent c.fuel a b)
      (c.env'.equivalent c.fuel' (a.relabel c.σ) (b.relabel c.σ)) := by
  refine (c.normal ha).bind fun a a' ha => (c.normal hb).bind fun b b' hb => ?_
  subst ha hb
  exact .pure (Term.alphaEq_relabel c.σ a b).symm

variable {c}

/-- Facts are normalised one after the other. -/
theorem facts_coupled (h : c.Contexts V ctx ctx') :
    Check.Coupled c.early (fun fs fs' => fs' = relabelList c.σ fs) (c.env.facts c.fuel ctx)
      (c.env'.facts c.fuel' ctx') := by
  have hfacts := h.facts
  rw [Env.facts, Env.facts, h.assumptions]
  generalize ctx.assumptions = ts at hfacts
  induction ts with
  | nil => exact .pure rfl
  | cons t ts ih =>
    rw [relabelList, List.mapM_cons, List.mapM_cons]
    refine (c.normal hfacts.1).bind fun t t' ht => (ih hfacts.2).bind fun ts ts' hts => ?_
    subst ht hts
    exact .pure rfl

/-- A condition is provable if it is normalised to `true`, is a fact, or the facts contradict each
other. None of this depends on names. -/
theorem provable_coupled (h : c.Contexts V ctx ctx') {cond : Checked}
    (hcond : cond.Everywhere c.Node) :
    Check.Coupled c.early Eq (c.env.provable c.fuel ctx cond)
      (c.env'.provable c.fuel' ctx' (cond.relabel c.σ)) := by
  refine (c.normal hcond).bind fun cond cond' hcond => ?_
  subst hcond
  rw [Term.isLit_relabel]
  refine .ite (.pure rfl) ((facts_coupled h).bind fun facts facts' hfacts => ?_)
  subst hfacts
  refine .pure ?_
  rw [contradictory_relabel, any_relabelList fun t => Term.alphaEq_relabel c.σ t cond]

/-! ## Parts of the rules -/

theorem everywhere_typename : Checked.typename.Everywhere c.Node :=
  ⟨trivial, trivial, trivial⟩

theorem everywhere_bool : Checked.bool.Everywhere c.Node :=
  ⟨trivial, everywhere_typename, trivial⟩

theorem everywhere_u64 : Checked.u64.Everywhere c.Node :=
  ⟨trivial, everywhere_typename, trivial⟩

theorem everywhere_scope : Checked.scope.Everywhere c.Node :=
  ⟨trivial, everywhere_typename, trivial⟩

/-- The signature of the function that is built in mentions no global. -/
theorem everywhere_slice : Checked.slice.Everywhere c.Node := by
  simp [Checked.slice, Checked.term, Checked.type, Checked.typename, Checked.u64, Checked.bool,
    Tele.Everywhere, Term.Everywhere, Form.Everywhere, Note.Everywhere, Term.RefersInto,
    Term.References]

theorem everywhere_mode_type : Mode.Everywhere c.Node .type := by
  intro expected he
  cases he
  exact everywhere_typename

/-- The type of a member mentions what the fields and the struct mention. -/
theorem everywhere_memberType {fs : Fields .checked} (hfs : fs.Everywhere c.Node) {x ty : Checked}
    (hx : x.Everywhere c.Node) {field : String} (hty : memberType? x field fs = some ty) :
    ty.Everywhere c.Node := by
  refine hfs.typeOfField? (substitutive_refersInto c.names) (R := fun _ => True) ?_ ?_ trivial hty
  · exact fun _ _ _ _ => trivial
  · exact fun _ _ _ _ _ hfirst => ⟨trivial, hfirst, hx⟩

theorem everywhere_positionType {fs : Fields .checked} (hfs : fs.Everywhere c.Node)
    {x ty : Checked} (hx : x.Everywhere c.Node) {pos : Nat}
    (hty : positionType? x pos fs = some ty) : ty.Everywhere c.Node := by
  refine hfs.typeOfField? (substitutive_refersInto c.names) (R := fun _ => True) ?_ ?_ trivial hty
  · exact fun _ _ _ _ => trivial
  · exact fun _ _ _ _ _ hfirst => ⟨trivial, hfirst, hx, trivial, everywhere_u64, trivial⟩

/-- Corresponding terms have corresponding types, or are both `typename`. -/
theorem typeOf_coupled {t t' : Checked} (ht : c.Terms t t') :
    Check.Coupled c.early c.Terms (typeOf ctx loc t) (typeOf ctx' loc' t') := by
  obtain ⟨rfl, ht⟩ := ht
  rw [typeOf, typeOf, Term.sort?_relabel]
  cases hsort : t.sort? with
  | none => exact .reject
  | some ty => exact .ok ⟨rfl, ht.sort hsort⟩

/-- The type of a term is compared with the one that is asked for alike in both runs. -/
theorem conclude_coupled {t t' : Checked} (ht : c.Terms t t') {mode : Mode}
    (hmode : mode.Everywhere c.Node) :
    Check.Coupled c.early c.Terms (conclude c.fuel c.env ctx loc mode t)
      (conclude c.fuel' c.env' ctx' loc' (mode.relabel c.σ) t') := by
  rw [conclude, conclude, Mode.expected?_relabel]
  cases hexpected : mode.expected? with
  | none => exact .ok ht
  | some expected =>
    refine (typeOf_coupled ht).bind ?_
    rintro ty _ ⟨rfl, hty⟩
    refine (c.equivalent hty (hmode expected hexpected)).bind ?_
    rintro same _ rfl
    exact .ite (.pure ht) .reject

theorem conclude_modes {t t' : Checked} (ht : c.Terms t t') :
    c.Modes c.Terms (fun mode => conclude c.fuel c.env ctx loc mode t)
      (fun mode => conclude c.fuel' c.env' ctx' loc' mode t') :=
  fun _ _ hmode => conclude_coupled ht hmode

/-- A variable of the set has corresponding meanings in both contexts. -/
theorem assignVar_coupled (h : c.Contexts V ctx ctx') {v : Var} (hv : V v) :
    Check.Coupled c.early c.Terms (assignVar ctx loc v) (assignVar ctx' loc' (v.relabel c.σ)) := by
  have hlookup := h.lookup v hv
  have heverywhere := h.everywhere v
  rw [assignVar, assignVar]
  generalize ctx.lookup? v = found at hlookup heverywhere ⊢
  generalize ctx'.lookup? (v.relabel c.σ) = found' at hlookup ⊢
  rcases found with _ | ⟨origin, meaning⟩ <;> rcases found' with _ | ⟨origin', meaning'⟩
  · exact .reject
  · cases hlookup
  · cases hlookup
  · obtain rfl : meaning' = meaning.relabel c.σ := Option.some.inj hlookup
    have hmeaning := heverywhere _ rfl
    cases meaning with
    | type => exact .ok ⟨rfl, trivial, everywhere_typename, trivial⟩
    | term qty ty => exact .ok ⟨rfl, trivial, hmeaning, trivial⟩

/-- A global means the same in both runs. One that is declared in the second run only is not
accepted in the first. -/
theorem assignGlobal_run {g : GlobalName} (hg : c.Mentions g) :
    c.Run c.Terms (assignGlobal c.env ctx loc g) (assignGlobal c.env' ctx' loc' g) := by
  intro haccepted
  have hmeaning := c.coupled.meaning g hg.mem
  have hclosed := c.coupled.closed g
  have hknown := hg.known
  have hbuiltin := c.coupled.isBuiltinSlice_eq hg.mem
  have hslice : c.env.isBuiltinSlice g → g = sliceName := fun h =>
    of_decide_eq_true (Bool.and_eq_true_iff.mp h).1
  have htype : (Checked.type (.atom (.global g))).Everywhere c.Node :=
    ⟨hg.mem, everywhere_typename, trivial⟩
  have hterm {s : Signature .checked} (hs : s.Everywhere c.Node) :
      (Checked.term (Checked.pi s) (.atom (.global g))).Everywhere c.Node :=
    ⟨hg.mem, ⟨trivial, everywhere_typename, hs⟩, trivial⟩
  simp only [assignGlobal] at haccepted ⊢
  rw [hbuiltin]
  generalize c.env.get? g = e at hmeaning hclosed hknown haccepted ⊢
  generalize c.env'.get? g = e' at hmeaning hknown ⊢
  cases hmeaning with
  | unknown =>
    by_cases h : c.env.isBuiltinSlice g
    · have hsame : Checked.slice = Checked.slice.relabel c.σ := (hg.slice (hslice h)).symm
      simp only [if_pos h]
      exact .ok ⟨congrArg (fun s => Checked.term (Checked.pi s) (.atom (.global g))) hsame,
        hterm everywhere_slice⟩
    · simp only [if_neg h]
      exact .reject
  | declared hne =>
    -- the first run does not know the function and rejects it
    have hstrict : c.strict := hknown.resolve_right fun h => by cases h rfl
    obtain ⟨t, ht⟩ := haccepted hstrict
    simp only [mt hslice hne] at ht
    cases ht
  | @known _ _ item =>
    have hitem := hclosed _ hg.mem rfl
    simp only [Item.signature?_relabel]
    cases hs : item.signature? with
    | none => exact .ok ⟨rfl, htype⟩
    | some s => exact .ok ⟨rfl, hterm (hitem.signature hs)⟩

theorem assignAtom_run {a : Atom} (ha : ∀ g, a = .global g → c.Mentions g) :
    c.Run c.Terms (assignAtom c.env ctx loc a) (assignAtom c.env' ctx' loc' a) := by
  cases a with
  | auto | num => exact .reject
  | global g => exact assignGlobal_run (ha g rfl)
  | typename => exact .of_coupled (.ok ⟨rfl, everywhere_typename⟩)
  | lit b => exact .of_coupled (.ok ⟨rfl, trivial, everywhere_bool, trivial⟩)
  | str s =>
    have hsort : (Checked.type (.atom .cstr)).Everywhere c.Node :=
      ⟨trivial, everywhere_typename, trivial⟩
    exact .of_coupled (.ok ⟨rfl, trivial, hsort, trivial⟩)
  | _ => exact .of_coupled (.ok ⟨rfl, trivial, everywhere_typename, trivial⟩)

/-- Both environments say alike which types are integer types, and of which range. -/
theorem elaborateNumeral_coupled (n : Int) {expected : Checked}
    (hexpected : expected.Everywhere c.Node) :
    Check.Coupled c.early c.Terms (elaborateNumeral c.env ctx loc n expected)
      (elaborateNumeral c.env' ctx' loc' n (expected.relabel c.σ)) := by
  rw [elaborateNumeral, elaborateNumeral, c.coupled.intType?_eq hexpected]
  cases c.env.intType? expected with
  | none => exact .reject
  | some t => exact .ite (.ok ⟨rfl, trivial, hexpected, trivial⟩) .reject

/-- Members are found by name, which relabeling keeps apart. -/
theorem assignMember_coupled {x x' : Checked} (hx : c.Terms x x') (field : String) :
    Check.Coupled c.early c.Terms (assignMember c.env ctx loc x field)
      (assignMember c.env' ctx' loc' x' (c.σ.name field)) := by
  refine (typeOf_coupled hx).bind ?_
  rintro ty _ ⟨rfl, hty⟩
  obtain ⟨rfl, hx⟩ := hx
  rw [c.coupled.fields?_eq hty]
  cases hfs : c.env.fields? ty with
  | none => exact .reject
  | some fs =>
    simp only [Option.map_some, memberType?_relabel]
    cases hmember : memberType? x field fs with
    | none => exact .reject
    | some ty' =>
      have hfields := c.coupled.everywhere_fields hty hfs
      exact .pure ⟨rfl, trivial, everywhere_memberType hfields hx hmember, hx⟩

end

end Coupling

end DependentCore
