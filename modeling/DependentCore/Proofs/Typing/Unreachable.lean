import DependentCore.Proofs.Flow.Paths
import DependentCore.Proofs.Reduction.Rules
import DependentCore.Proofs.Semantics.Operators
import DependentCore.Proofs.Typing.Derivations

/-!
# Proofs and unreachable statements

The checker accepts a proof `{}` of a condition, or an `impossible` without a reason, on the
strength of the facts in scope. Here both verdicts are shown to be right whenever conditions have
fixed truth values: what is provable holds, and no path that follows the truth values arrives at an
`impossible` without a reason.

* `Truth`: truth values of conditions that respect literals, negation, bound names and normal forms,
* `Truth.holds_of_provable`: a provable condition holds,
* `Truth.ne_impossible`: no path of an accepted body ends at an `impossible` without a reason,
* `Truth.ofVars`: truth values of variables extend to the conditions built from them,
* `Truth.not_total`: but not to all terms. So a `Truth` says which conditions it settles, and what
  is shown here is about those.
-/

namespace DependentCore

/-- Truth values for some conditions. Both which conditions they are and their values respect
negation and normalisation; equality up to bound names and literals have the values expected. -/
structure Truth (env : Env) where
  /-- Whether a condition is among those that have a truth value. -/
  settles : Checked → Prop
  /-- The truth value of a condition. -/
  holds : Checked → Bool
  holds_lit : ∀ note b, holds (.mk note (.atom (.lit b))) = b
  settles_not : ∀ note x, settles (.mk note (.unary .not x)) ↔ settles x
  holds_not : ∀ note x, settles x → holds (.mk note (.unary .not x)) = !holds x
  normal : ∀ fuel t u, settles t → env.normalize? fuel t = some u → settles u ∧ holds u = holds t
  alpha : ∀ a b, settles a → settles b → a.alphaEq b → holds a = holds b

/-- The assumptions of a context are settled and hold. -/
def Context.Holds {env : Env} (T : Truth env) (ctx : Context) : Prop :=
  ∀ a ∈ ctx.assumptions, T.settles a ∧ T.holds a

/-- The conditions met on a path are settled and come out as they hold. -/
def Truth.Guides {env : Env} (T : Truth env) (events : List (Event .checked)) : Prop :=
  ∀ cond b, .decided cond b ∈ events → T.settles cond ∧ b = T.holds cond

/-- Each fact of a context is the normal form of an assumption. -/
theorem Env.exists_assumption_of_mem_facts {env : Env} {fuel : Nat} {ctx : Context}
    {facts : List Checked} (h : env.facts fuel ctx = .ok facts) :
    ∀ f ∈ facts, ∃ a ∈ ctx.assumptions, env.normal fuel a = .ok f := by
  unfold Env.facts at h
  generalize ctx.assumptions = as at h
  induction as generalizing facts with
  | nil =>
    rw [List.mapM_nil] at h
    cases h
    exact nofun
  | cons a as ih =>
    rw [List.mapM_cons] at h
    obtain ⟨f, hf, h⟩ := Check.bind_eq_ok.mp h
    obtain ⟨fs, hfs, h⟩ := Check.bind_eq_ok.mp h
    cases h
    rintro g hg
    rcases List.mem_cons.mp hg with rfl | hg
    · exact ⟨a, List.mem_cons_self, hf⟩
    · obtain ⟨b, hb, hnormal⟩ := ih hfs g hg
      exact ⟨b, List.mem_cons_of_mem _ hb, hnormal⟩

/-! ## Assumptions -/

@[simp]
theorem Context.assumptions_newScope (ctx : Context) :
    ctx.newScope.assumptions = ctx.assumptions := by
  simp [Context.assumptions, Context.newScope, Context.newScopeOf, Context.scopes]

@[simp]
theorem Context.assumptions_assume (ctx : Context) (fact : Checked) :
    (ctx.assume fact).assumptions = fact :: ctx.assumptions := by
  simp [Context.assumptions, Context.assume, Context.scopes]

namespace Truth

variable {env : Env} (T : Truth env) {fuel : Nat} {ctx : Context}

theorem holds_newScope (h : ctx.Holds T) : ctx.newScope.Holds T := by
  intro a ha
  rw [Context.assumptions_newScope] at ha
  exact h a ha

theorem holds_assume {fact : Checked} (h : ctx.Holds T) (hs : T.settles fact)
    (hfact : T.holds fact) : (ctx.assume fact).Holds T := by
  intro a ha
  rw [Context.assumptions_assume] at ha
  rcases List.mem_cons.mp ha with rfl | ha
  · exact ⟨hs, hfact⟩
  · exact h a ha

/-- A condition that does not hold may be assumed in negated form. -/
theorem holds_assume_not {cond : Checked} (h : ctx.Holds T) (hs : T.settles cond)
    (hcond : T.holds cond = false) : (ctx.assume (Checked.not cond)).Holds T := by
  refine T.holds_assume h ((T.settles_not _ _).mpr hs) ?_
  rw [Checked.not, Checked.term, T.holds_not _ _ hs, hcond]
  rfl

/-! ## Facts -/

/-- The facts of a context whose assumptions hold are settled and hold. -/
theorem holds_of_mem_facts (h : ctx.Holds T) {facts : List Checked}
    (hfacts : env.facts fuel ctx = .ok facts) : ∀ f ∈ facts, T.settles f ∧ T.holds f := by
  intro f hf
  obtain ⟨a, ha, hnormal⟩ := Env.exists_assumption_of_mem_facts hfacts f hf
  obtain ⟨hs, hholds⟩ := h a ha
  obtain ⟨hs', heq⟩ := T.normal fuel a f hs (Env.normal_eq_ok.mp hnormal)
  exact ⟨hs', heq ▸ hholds⟩

/-- Facts that hold do not contradict each other. -/
theorem not_contradictory {facts : List Checked}
    (h : ∀ f ∈ facts, T.settles f ∧ T.holds f) : contradictory facts = false := by
  rw [contradictory, List.any_eq_false]
  intro f hf hex
  obtain ⟨hs, hholds⟩ := h f hf
  unfold excludes at hex
  split at hex
  · next b =>
    rw [T.holds_lit] at hholds
    simp [hholds] at hex
  · next x =>
    -- the fact is the negation of another one
    obtain ⟨g, hg, halpha⟩ := List.any_eq_true.mp hex
    have hx := (T.settles_not _ x).mp hs
    have heq := T.alpha g x (h g hg).1 hx halpha
    rw [T.holds_not _ x hx, ← heq, (h g hg).2] at hholds
    cases hholds
  · cases hex

/-- A condition that is provable from assumptions that hold does hold. -/
theorem holds_of_provable (h : ctx.Holds T) {cond : Checked} (hs : T.settles cond)
    (hprov : env.provable fuel ctx cond = .ok true) : T.holds cond := by
  obtain ⟨c, hc, hprov⟩ := Check.bind_eq_ok.mp hprov
  obtain ⟨hcs, hcond⟩ := T.normal fuel cond c hs (Env.normal_eq_ok.mp hc)
  rw [← hcond]
  split at hprov
  · next hlit =>
    unfold Term.isLit at hlit
    split at hlit
    · next b =>
      rw [T.holds_lit]
      simpa using hlit
    · cases hlit
  · obtain ⟨facts, hfacts, hprov⟩ := Check.bind_eq_ok.mp hprov
    have hall := T.holds_of_mem_facts h hfacts
    rw [T.not_contradictory hall, Bool.or_false, Check.pure_eq_ok, List.any_eq_true] at hprov
    obtain ⟨f, hf, halpha⟩ := hprov
    rw [← T.alpha f c (hall f hf).1 hcs halpha]
    exact (hall f hf).2

/-! ## Paths -/

theorem Guides.head {T : Truth env} {cond : Checked} {b : Bool} {events : List (Event .checked)}
    (h : T.Guides (.decided cond b :: events)) : T.settles cond ∧ b = T.holds cond :=
  h cond b List.mem_cons_self

theorem Guides.tail {T : Truth env} {e : Event .checked} {events : List (Event .checked)}
    (h : T.Guides (e :: events)) : T.Guides events :=
  fun c b hmem => h c b (List.mem_cons_of_mem _ hmem)

theorem Guides.left {T : Truth env} {before after : List (Event .checked)}
    (h : T.Guides (before ++ after)) : T.Guides before :=
  fun c b hmem => h c b (List.mem_append_left _ hmem)

theorem Guides.right {T : Truth env} {before after : List (Event .checked)}
    (h : T.Guides (before ++ after)) : T.Guides after :=
  fun c b hmem => h c b (List.mem_append_right _ hmem)

/-- What is learnt from a statement holds on every path that passes it. -/
theorem holds_learn {s : Stmt .checked} {events : List (Event .checked)} (h : ctx.Holds T)
    (hpath : s.Path events .passed) (hguides : T.Guides events) : (s.learn ctx).Holds T := by
  cases hpath with
  | call => exact h
  | ifThen hyes =>
    simp only [Stmt.learn]
    split
    · next hret => exact absurd rfl (BodyPath.ne_passed _ hret hyes)
    · exact h
  | skip =>
    simp only [Stmt.learn]
    split
    · exact T.holds_assume_not h hguides.head.1 hguides.head.2.symm
    · exact h
  | ifElse outcome hbranch =>
    simp only [Stmt.learn]
    split
    · next hret =>
      obtain ⟨hno, -⟩ := Bool.and_eq_true_iff.mp hret
      cases outcome with
      | true => exact T.holds_assume h hguides.head.1 hguides.head.2.symm
      | false => exact absurd rfl (BodyPath.ne_passed _ hno hbranch)
    · exact h

mutual

/-- No path of an accepted statement that follows the truth values ends at an `impossible` without
a reason. -/
theorem stmt_ne_impossible : ∀ {s : Stmt .written} {s' : Stmt .checked} {ctx : Context}
    {ret : Checked} {events : List (Event .checked)} {ending : Ending .checked},
    Stmt.Accepts fuel env ctx ret s s' → ctx.Holds T → s'.Path events ending → T.Guides events →
      ending ≠ .impossible none
  | _, _, _, _, _, _, .call _ _, _, .call, _ => nofun
  | _, _, _, _, _, _, .ifThen _ _, _, .skip, _ => nofun
  | _, _, _, _, _, _, .ifThen _ hyes, h, .ifThen hpath, hguides => by
    refine ne_impossible hyes (T.holds_newScope ?_) hpath hguides.tail
    exact T.holds_assume (T.holds_newScope h) hguides.head.1 hguides.head.2.symm
  | _, _, _, _, _, _, .ifElse _ hyes hno, h, .ifElse outcome hpath, hguides => by
    obtain ⟨hs, hcond⟩ := hguides.head
    cases outcome with
    | true =>
      refine ne_impossible hyes (T.holds_newScope ?_) hpath hguides.tail
      exact T.holds_assume (T.holds_newScope h) hs hcond.symm
    | false =>
      refine ne_impossible hno (T.holds_newScope ?_) hpath hguides.tail
      exact T.holds_assume_not (T.holds_newScope h) hs hcond.symm
  | _, _, _, _, _, _, .ret _, _, .ret, _ => nofun
  | _, _, _, _, _, _, .retUnit _, _, .retUnit, _ => nofun
  | _, _, _, _, _, _, .impossible hfacts hcontra, h, .impossible, _ => by
    -- the checker saw facts that exclude each other
    rw [T.not_contradictory (T.holds_of_mem_facts h hfacts)] at hcontra
    cases hcontra
  | _, _, _, _, _, _, .impossibleBy _, _, .impossibleBy, _ => nofun

/-- No path of an accepted body that follows the truth values ends at an `impossible` without a
reason. -/
theorem ne_impossible : ∀ {b : Body .written} {b' : Body .checked} {ctx : Context} {ret : Checked}
    {events : List (Event .checked)} {ending : Ending .checked},
    AcceptsBody fuel env ctx ret b b' → ctx.Holds T → BodyPath b' events ending →
      T.Guides events → ending ≠ .impossible none
  | _, _, _, _, _, _, .nil, _, .nil, _ => nofun
  | _, _, _, _, _, _, .cons hs _, h, .stop hpath _, hguides =>
    stmt_ne_impossible hs h hpath hguides
  | _, _, _, _, _, _, .cons _ hrest, h, .next hpath hafter, hguides =>
    ne_impossible hrest (T.holds_learn h hpath hguides.left) hafter hguides.right

end

end Truth

/-! ## Truth values of variables -/

/-- The truth value of a condition built from boolean literals, variables and operators on
booleans, if the variables have the values given. -/
def Term.truth? (ρ : Var → Bool) : Checked → Option Bool
  | .mk _ (.atom (.lit b)) => some b
  | .mk _ (.var v) => some (ρ v)
  | .mk _ (.unary .not x) => (x.truth? ρ).map (!·)
  | .mk _ (.binary (.logic op) x y) =>
    (x.truth? ρ).bind fun a => (y.truth? ρ).map fun b => decide (op.Holds a b)
  | _ => none

section
variable {env : Env} {ρ : Var → Bool} {stack : List GlobalName}

/-- A step at the root keeps the truth value. -/
theorem Term.Steps.truth? {t u : Checked} {b : Bool} (h : Term.Steps env t u)
    (ht : t.truth? ρ = some b) : u.truth? ρ = some b := by
  cases h with
  | not => exact ht
  | logic =>
    have hb : decide (BoolOp.Holds _ _ _) = b := Option.some.inj ht
    rw [Term.truth?, ← hb]
    exact congrArg some (BoolOp.eval_eq_iff.mpr decide_eq_true_iff)
  | _ => cases ht

/-- A condition that has a truth value is no call. -/
theorem Term.unfolding?_of_truth? {t : Checked} {b : Bool} (h : t.truth? ρ = some b) :
    t.unfolding? env stack = none := by
  unfold Term.unfolding?
  split
  · cases h
  · rfl

/-- The truth value of the term that a pass is over. -/
def Subject.truth? (ρ : Var → Bool) : Subject → Option Bool
  | .term t | .parts t | .call t => t.truth? ρ
  | _ => none

/-- Rewriting keeps truth values. -/
theorem Rewrites.truth? {a a' : Subject} {c : Bool} (h : Rewrites env stack a a' c) :
    ∀ {b : Bool}, a.truth? ρ = some b → a'.truth? ρ = some b := by
  induction h with
  | again _ _ _ _ parts call again =>
    intro b ht
    exact again (call (Term.reduce_induction (fun _ _ h hstep => hstep.truth? h) (parts ht)))
  | done _ _ _ parts call =>
    intro b ht
    exact call (Term.reduce_induction (fun _ _ h hstep => hstep.truth? h) (parts ht))
  | @unary _ _ op _ _ _ _ term =>
    intro b ht
    cases op with
    | not =>
      obtain ⟨v, hv, rfl⟩ := Option.map_eq_some_iff.mp ht
      exact Option.map_eq_some_iff.mpr ⟨v, term hv, rfl⟩
    | _ => cases ht
  | @binary _ _ op _ _ _ _ _ _ _ _ left right =>
    intro b ht
    cases op with
    | logic op =>
      obtain ⟨v, hv, ht⟩ := Option.bind_eq_some_iff.mp ht
      obtain ⟨w, hw, rfl⟩ := Option.map_eq_some_iff.mp ht
      exact Option.bind_eq_some_iff.mpr
        ⟨v, left hv, Option.map_eq_some_iff.mpr ⟨w, right hw, rfl⟩⟩
    | _ => cases ht
  | unfold hunfold _ _ _ =>
    intro b ht
    rw [Term.unfolding?_of_truth? ht] at hunfold
    cases hunfold
  | atom | var | keep => exact id
  | _ => exact nofun

/-- Conditions that are equal up to bound names have the same truth value: they bind no variables,
so that they have the same shape. -/
theorem Term.truth?_eq_of_alphaEq : ∀ {t u : Checked} {b : Bool}, t.truth? ρ = some b →
    t.alphaEq u → u.truth? ρ = some b
  | .mk _ (.atom (.lit c)), .mk _ g, _, ht, h => by
    cases g <;> simp_all [Term.alphaEq, Term.alphaEqUnder, Form.alphaEqUnder]
    subst h
    exact ht
  | .mk _ (.var v), .mk _ g, _, ht, h => by
    cases g <;> simp_all [Term.alphaEq, Term.alphaEqUnder, Form.alphaEqUnder, Paired.sameVar]
    exact ht
  | .mk _ (.unary .not x), .mk _ g, _, ht, h => by
    obtain ⟨a, ha, rfl⟩ := Option.map_eq_some_iff.mp ht
    cases g with
    | unary op y =>
      simp only [Term.alphaEq, Term.alphaEqUnder, Form.alphaEqUnder, Bool.and_eq_true,
        decide_eq_true_eq] at h
      obtain ⟨rfl, h⟩ := h
      exact Option.map_eq_some_iff.mpr ⟨a, Term.truth?_eq_of_alphaEq ha h, rfl⟩
    | _ => cases h
  | .mk _ (.binary (.logic op) x₁ x₂), .mk _ g, _, ht, h => by
    obtain ⟨a₁, ha₁, ht⟩ := Option.bind_eq_some_iff.mp ht
    obtain ⟨a₂, ha₂, rfl⟩ := Option.map_eq_some_iff.mp ht
    cases g with
    | binary op' y₁ y₂ =>
      simp only [Term.alphaEq, Term.alphaEqUnder, Form.alphaEqUnder, Bool.and_eq_true,
        decide_eq_true_eq] at h
      obtain ⟨⟨rfl, h₁⟩, h₂⟩ := h
      exact Option.bind_eq_some_iff.mpr ⟨a₁, Term.truth?_eq_of_alphaEq ha₁ h₁,
        Option.map_eq_some_iff.mpr ⟨a₂, Term.truth?_eq_of_alphaEq ha₂ h₂, rfl⟩⟩
    | _ => cases h

/-- Truth values of variables extend to the conditions built from them. -/
def Truth.ofVars (env : Env) (ρ : Var → Bool) : Truth env where
  settles t := (t.truth? ρ).isSome
  holds t := (t.truth? ρ).getD false
  holds_lit _ _ := rfl
  settles_not _ x := by simp [Term.truth?]
  holds_not _ x hx := by
    obtain ⟨b, hb⟩ := Option.isSome_iff_exists.mp hx
    simp [Term.truth?, hb]
  normal fuel t u ht hu := by
    obtain ⟨b, hb⟩ := Option.isSome_iff_exists.mp ht
    obtain ⟨c, hrewrites⟩ := Env.rewrites_of_normalize? hu
    have hu : u.truth? ρ = some b := hrewrites.truth? hb
    simp [hb, hu]
  alpha a b ha _ h := by
    obtain ⟨c, hc⟩ := Option.isSome_iff_exists.mp ha
    rw [hc, Term.truth?_eq_of_alphaEq hc h]

end

/-- The comparison `200 + 100 == 44` of unsigned integers. -/
def sumComparison (width : Width) : Checked :=
  let ty := Checked.type (.atom (.int ⟨.unsigned, width⟩))
  let num (n : Int) := Checked.term ty (.atom (.num n))
  Checked.term Checked.bool (.binary (.compare .eq)
    (Checked.term ty (.binary (.arith .plus) (num 200) (num 100))) (num 44))

/-- No truth values can be given to all terms: equality up to bound names does not look at types,
and a sum depends on the type at which it wraps around. -/
theorem Truth.not_total {env : Env} (T : Truth env) : ¬∀ t, T.settles t := by
  intro hall
  have hnarrow : env.normalize? 20 (sumComparison .w8)
      = some (Checked.term Checked.bool (.atom (.lit true))) := rfl
  have hwide : env.normalize? 20 (sumComparison .w16)
      = some (Checked.term Checked.bool (.atom (.lit false))) := rfl
  have halpha : (sumComparison .w8).alphaEq (sumComparison .w16) := by decide
  have hsame := T.alpha _ _ (hall _) (hall _) halpha
  rw [← (T.normal 20 _ _ (hall _) hnarrow).2, ← (T.normal 20 _ _ (hall _) hwide).2, Checked.term,
    Checked.term, T.holds_lit, T.holds_lit] at hsame
  exact Bool.noConfusion hsame

/-! ## Soundness -/

/-- Proofs and `impossible` statements are sound when conditions have fixed truth values. In a
context whose assumptions hold, a provable condition holds; and the truth values select a path
through an accepted body, where no path that they guide arrives at an `impossible` without a
reason. -/
theorem provable_holds_and_impossible_unreachable {env : Env} (T : Truth env) {ctx : Context}
    (h : ctx.Holds T) (fuel : Nat) :
    (∀ cond, T.settles cond → env.provable fuel ctx cond = .ok true → T.holds cond) ∧
    (∀ (b : Body .written) (ret : Checked) (b' : Body .checked),
      env.checkBody fuel ctx b ret = .ok b' →
        (∃ events ending, BodyPath b' events ending ∧ Decides T.holds events) ∧
        ∀ events ending, BodyPath b' events ending → T.Guides events →
          ending ≠ .impossible none) := by
  refine ⟨fun cond hs hprov => T.holds_of_provable h hs hprov, fun b ret b' hb => ⟨?_, ?_⟩⟩
  · exact BodyPath.exists_of_decisions T.holds b'
  · intro events ending hpath hguides
    exact T.ne_impossible (acceptsBody_of_elaborate b hb) (T.holds_newScope h) hpath hguides

/-- Where `b` is assumed, an `impossible` is accepted after `if b { return; }`, and no path arrives
at it if `b` is true. -/
theorem impossible_unreachable_after_return :
    let b : Var := { name := "b" }
    let ctx : Context := { inner := ⟨[(b, ⟨none, .term .many Checked.bool⟩)],
      [Checked.term Checked.bool (.var b)]⟩ }
    let T := Truth.ofVars {} fun _ => true
    ctx.Holds T ∧ ∃ checked : Body .checked,
      Env.checkBody {} 8 ctx [.ifThen {} (.mk (.place {} rfl) (.var b)) [.retUnit {}],
        .impossible {}] (Checked.type (.atom .unit)) = .ok checked ∧
      ∀ events ending, BodyPath checked events ending → T.Guides events →
        ending ≠ .impossible none := by
  intro b ctx T
  have h : ctx.Holds T := by
    intro a ha
    obtain rfl : a = Checked.term Checked.bool (.var b) := by
      simpa [ctx, Context.assumptions, Context.scopes] using ha
    exact ⟨rfl, rfl⟩
  have hcheck : Env.checkBody {} 8 ctx [.ifThen {} (.mk (.place {} rfl) (.var b)) [.retUnit {}],
      .impossible {}] (Checked.type (.atom .unit)) = .ok
        [.ifThen () (Checked.term Checked.bool (.var b)) [.retUnit ()], .impossible ()] := rfl
  exact ⟨h, _, hcheck, ((provable_holds_and_impossible_unreachable T h 8).2 _ _ _ hcheck).2⟩

end DependentCore
