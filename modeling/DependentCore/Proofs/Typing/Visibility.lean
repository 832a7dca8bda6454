import DependentCore.Proofs.Typing.Runs
import DependentCore.Proofs.Typing.Scoping

/-!
# What checking looks at

Checking looks at three things in a context: whether effects are allowed, which facts hold, and what
the free variables of the program stand for. How the declarations are spread over scopes is not
seen: conflicts are looked for in the innermost scope only, and binders open a scope of their own.
The amount of fuel matters only where it does not suffice.

Both are shown by coupling two runs of the checker in one environment, in contexts that look alike,
the second with more fuel.

* `Context.AlikeOn`: two contexts look alike as far as some variables are concerned,
* `Context.ExtendedBeside`: a context with more scopes and with declarations of other variables,
* `Context.AlikeOn.elaborate`: two runs of the checker in contexts that look alike,
* `Term.elaborate_mono`: a finished check is not changed by more fuel,
* `typing_depends_on_what_is_visible`: the outcome depends on what is seen of the context only.
-/

namespace DependentCore

/-! ## Contexts that look alike -/

/-- Two contexts allow the same effects, assume the same facts in the same order, and say the same
about the variables of a set. -/
structure Context.AlikeOn (V : Var → Prop) (ctx ctx' : Context) : Prop where
  mutability : ctx'.mutability = ctx.mutability
  assumptions : ctx'.assumptions = ctx.assumptions
  lookup : ∀ v, V v → (ctx'.lookup? v).map (·.meaning) = (ctx.lookup? v).map (·.meaning)

/-- A context has more scopes than another one, and declares more variables, which are not in a
set. -/
inductive Context.ExtendedBeside (V : Var → Prop) (ctx : Context) : Context → Prop where
  | refl : ctx.ExtendedBeside V ctx
  | newScope {ctx'} : ctx.ExtendedBeside V ctx' → ctx.ExtendedBeside V ctx'.newScope
  | declare {ctx' ctx'' v d} : ctx.ExtendedBeside V ctx' → ¬V v → ctx'.declare v d = .ok ctx'' →
    ctx.ExtendedBeside V ctx''

namespace Context.AlikeOn

variable {V : Var → Prop} {ctx ctx' : Context}

theorem refl (V : Var → Prop) (ctx : Context) : ctx.AlikeOn V ctx :=
  ⟨rfl, rfl, fun _ _ => rfl⟩

theorem newScope (h : ctx.AlikeOn V ctx') : ctx.newScope.AlikeOn V ctx'.newScope :=
  ⟨h.mutability, h.assumptions, h.lookup⟩

/-- A declaration is not seen by programs that do not mention its variable. -/
theorem declare (h : ctx.AlikeOn V ctx') {v : Var} (hv : ¬V v) {d : Declaration}
    {ctx'' : Context} (hdeclare : ctx'.declare v d = .ok ctx'') : ctx.AlikeOn V ctx'' := by
  unfold Context.declare at hdeclare
  split at hdeclare
  · cases hdeclare
  · cases hdeclare
    refine ⟨h.mutability, h.assumptions, fun w hw => ?_⟩
    have hne : v ≠ w := fun he => hv (he ▸ hw)
    have hlookup := ctx'.lookup?_withDecl v d w
    rw [if_neg hne] at hlookup
    rw [← h.lookup w hw, ← hlookup]
    rfl

end Context.AlikeOn

theorem Context.ExtendedBeside.alikeOn {V : Var → Prop} {ctx ctx' : Context}
    (h : ctx.ExtendedBeside V ctx') : ctx.AlikeOn V ctx' := by
  induction h with
  | refl => exact .refl V ctx
  | newScope _ ih => exact ⟨ih.mutability, ih.assumptions, ih.lookup⟩
  | declare _ hv hdeclare ih => exact ih.declare hv hdeclare

/-! ## Two runs in one environment -/

section
variable (env : Env) {fuel fuel' : Nat} {early : Prop} {V : Var → Prop} {ctx ctx' : Context}

/-- Two runs in one environment. If the first has less fuel, it may end early. -/
def Env.runs (enough : fuel = fuel' ∨ early ∧ fuel ≤ fuel') : Coupling where
  env
  env' := env
  fuel
  fuel'
  σ := .identity
  names _ := True
  early
  strict := False
  coupled := env.coupled_refl
  enough

variable {env} (enough : fuel = fuel' ∨ early ∧ fuel ≤ fuel')
include enough

/-- Every global means the same in both runs. -/
theorem Env.mentions_runs (g : GlobalName) : (env.runs enough).Mentions g :=
  ⟨trivial, fun _ => Checked.slice.relabel_identity, .inr id⟩

theorem Env.everywhere_runs (t : Checked) : t.Everywhere (env.runs enough).Node :=
  t.everywhere_of_forall (Term.refersInto_of_forall fun _ => trivial)

/-- Contexts that look alike correspond. -/
theorem Context.AlikeOn.contexts (h : ctx.AlikeOn V ctx') :
    (env.runs enough).Contexts V ctx ctx' where
  mutability := .inl h.mutability
  lookup v hv := by
    show (ctx'.lookup? v).map (·.meaning) = (ctx.lookup? v).map (·.meaning.relabel .identity)
    simp only [Meaning.relabel_identity]
    exact h.lookup v hv
  assumptions := h.assumptions.trans (relabelList_identity ctx.assumptions).symm
  everywhere := ctx.everywhere_of_forall (Term.refersInto_of_forall fun _ => trivial)
  facts := everywhereList_of_forall (Term.refersInto_of_forall fun _ => trivial) ctx.assumptions

/-- A term whose free variables are in a set is checked alike in contexts that look alike. -/
theorem Context.AlikeOn.elaborate (h : ctx.AlikeOn V ctx') {x : Written}
    (hx : ∀ v, x.occursFree v → V v) (mode : Mode) :
    Check.Coupled early Eq (x.elaborate fuel env ctx mode) (x.elaborate fuel' env ctx' mode) := by
  have hknown : x.Known (.ofVars V) := Term.known_ofVars_iff.mpr hx
  have hmentions : x.Everywhere (Term.RefersInto (env.runs enough).Mentions) :=
    x.everywhere_of_forall (Term.refersInto_of_forall (Env.mentions_runs enough))
  have hmode : mode.Everywhere (env.runs enough).Node :=
    fun expected _ => Env.everywhere_runs enough expected
  have halike : (env.runs enough).Alike V x x :=
    Coupling.alike (c := env.runs enough) (Term.relabels_self hknown hmentions)
  have hrun : Check.Coupled early (env.runs enough).Terms (x.elaborate fuel env ctx mode)
      (x.elaborate fuel' env ctx' (mode.relabel .identity)) :=
    halike.agree (h.contexts enough) False.elim mode hmode
  rw [mode.relabel_identity] at hrun
  refine hrun.mono ?_
  rintro t _ ⟨rfl, -⟩
  exact t.relabel_identity.symm

theorem Context.AlikeOn.elaborateStmts (h : ctx.AlikeOn V ctx') {b : Body .written}
    (hb : ∀ v, occursFreeBody v b → V v) (ret : Checked) :
    Check.Coupled early Eq (elaborateStmts fuel env ctx ret b)
      (elaborateStmts fuel' env ctx' ret b) := by
  have hknown : KnownBody (.ofVars V) b := knownBody_ofVars_iff.mpr hb
  have hmentions : EverywhereBody (Term.RefersInto (env.runs enough).Mentions) b :=
    everywhereBody_of_forall (Term.refersInto_of_forall (Env.mentions_runs enough)) b
  have hret : (env.runs enough).Terms ret ret :=
    ⟨ret.relabel_identity.symm, Env.everywhere_runs enough ret⟩
  have halike : (env.runs enough).BodiesAlike V b b :=
    Coupling.bodiesAlike (c := env.runs enough) (relabelsBody_self hknown hmentions)
  refine (halike (h.contexts enough) hret False.elim).mono ?_
  rintro b' _ ⟨rfl, -⟩
  exact (relabelBody_identity b').symm

end

/-! ## What is not seen -/

/-- A finished check is not changed by more fuel. -/
theorem Term.elaborate_mono {env : Env} {fuel fuel' : Nat} (hfuel : fuel ≤ fuel') {x : Written}
    {ctx : Context} {mode : Mode} {t : Checked} (h : x.elaborate fuel env ctx mode = .ok t) :
    x.elaborate fuel' env ctx mode = .ok t := by
  have hsame : ctx.AlikeOn (fun _ => True) ctx := .refl _ ctx
  have hrun : Check.Coupled True Eq (x.elaborate fuel env ctx mode)
      (x.elaborate fuel' env ctx mode) :=
    hsame.elaborate (.inr ⟨trivial, hfuel⟩) (fun _ _ => trivial) mode
  exact hrun.ok_eq h

/-- Typing depends on what is visible only. In two contexts that allow the same effects, assume the
same facts and say the same about the variables of a set, all terms and bodies whose free variables
are in the set have the same outcome: both are rejected, or both are checked to the same tree. In
particular, more scopes and declarations of other variables change nothing. -/
theorem typing_depends_on_what_is_visible (env : Env) (fuel : Nat) {ctx ctx' : Context}
    {V : Var → Prop} (h : ctx.AlikeOn V ctx' ∨ ctx.ExtendedBeside V ctx') :
    (∀ e : Written, (∀ v, e.occursFree v → V v) →
      Check.Mirrors Eq (env.assign fuel ctx e) (env.assign fuel ctx' e) ∧
        ∀ expected, Check.Mirrors Eq (env.check fuel ctx e expected)
          (env.check fuel ctx' e expected)) ∧
    ∀ b : Body .written, (∀ v, occursFreeBody v b → V v) → ∀ ret,
      Check.Mirrors Eq (env.checkBody fuel ctx b ret) (env.checkBody fuel ctx' b ret) := by
  have halike : ctx.AlikeOn V ctx' := h.elim id Context.ExtendedBeside.alikeOn
  have hfuel := enough_refl False fuel
  refine ⟨fun e he => ⟨(halike.elaborate hfuel he .assign).mirrors, fun expected => ?_⟩,
    fun b hb ret => ?_⟩
  · exact (halike.elaborate hfuel he (.check expected)).mirrors
  · exact (halike.newScope.elaborateStmts hfuel hb ret).mirrors

/-- The function `(u8 y) -> u8 { return x + y; }` is checked to the same, whether or not a variable
`y` is declared as a type in the scopes around it. -/
theorem typing_ignores_declaration_of_bound_variable :
    let x : Var := { name := "x" }
    let y : Var := { name := "y" }
    let u8 : Atom := .int ⟨.unsigned, .w8⟩
    let written (form : Form .written) : Written := .mk (.place {} rfl) form
    let sum := written (.binary (.arith .plus) (written (.var x)) (written (.var y)))
    let e := written (.bind .abs (.arg {} .many (written (.atom u8)) (some y)
      (.runs .no (written (.atom u8)) [.ret {} sum])))
    let ctx := Context.withDecl {} x ⟨none, .term .many (Checked.type (.atom u8))⟩
    let ctx' := (ctx.newScope.withDecl y ⟨none, .type⟩).newScope
    (ctx.lookup? y).isNone ∧ (ctx'.lookup? y).isSome ∧
      ctx.ExtendedBeside (fun v => e.occursFree v) ctx' ∧
      ∃ t, Env.assign {} 8 ctx e = .ok t ∧ Env.assign {} 8 ctx' e = .ok t := by
  intro x y u8 written sum e ctx ctx'
  have hextended : ctx.ExtendedBeside (fun v => e.occursFree v) ctx' :=
    .newScope (.declare (.newScope .refl) (by decide) rfl)
  have hassign : Env.assign {} 8 ctx e = .ok _ := rfl
  have hsame := (typing_depends_on_what_is_visible {} 8 (.inr hextended)).1 e fun _ h => h
  exact ⟨rfl, rfl, hextended, _, hassign, hsame.1.ok_eq hassign⟩

end DependentCore
