import DependentCore.Proofs.Typing.Unreachable
import DependentCore.Typing.Declare
import Mathlib.Data.List.Basic

/-!
# Unreachable statements and conditions with effects

A condition that calls a function with effects may come out differently each time it is evaluated.
The checker records its outcome as a fact all the same, and accepts an `impossible` if two recorded
facts exclude each other. So an `impossible` can be reached in a function with effects, but only
where the outcome of such a condition is part of the contradiction.

* `Truth.GuidesPure`: truth values decide the conditions without effects, the others are free,
* `Context.Records`: all assumptions are outcomes of conditions that were met,
* `AcceptsBody.contradictory_of_impossible`: where a path meets an `impossible` without a reason,
  the outcomes that were recorded on the way contradict each other,
* `Truth.effectfulClash_of_contradictory`: one of the two outcomes that do is of a condition with
  effects.
-/

namespace DependentCore

/-- What the outcome of a condition is recorded as. -/
def outcomeFact (cond : Checked) (outcome : Bool) : Checked :=
  if outcome then cond else Checked.not cond

/-- A fact is the normal form of what an outcome on a path is recorded as. -/
def Recorded (env : Env) (fuel : Nat) (events : List (Event .checked)) (cond fact : Checked) :
    Prop :=
  ∃ outcome, .decided cond outcome ∈ events ∧ env.normal fuel (outcomeFact cond outcome) = .ok fact

/-- Two outcomes on a path exclude each other, and one of the conditions has an effect: the first is
recorded as `false`, or as the negation of the second. -/
def EffectfulClash (env : Env) (fuel : Nat) (events : List (Event .checked)) : Prop :=
  ∃ cond₁ cond₂ fact₁ fact₂, Recorded env fuel events cond₁ fact₁ ∧
    Recorded env fuel events cond₂ fact₂ ∧ excludes [fact₂] fact₁ ∧
    (cond₁.hasEffect ∨ cond₂.hasEffect)

/-- The conditions without effects that are met on a path are settled and come out as they hold. A
condition with effects may come out either way, each time anew. -/
def Truth.GuidesPure {env : Env} (T : Truth env) (events : List (Event .checked)) : Prop :=
  ∀ cond b, .decided cond b ∈ events → cond.hasEffect = false → T.settles cond ∧ b = T.holds cond

/-! ## Recorded outcomes -/

/-- Every assumption of a context is the outcome of a condition on a path. -/
def Context.Records (events : List (Event .checked)) (ctx : Context) : Prop :=
  ∀ a ∈ ctx.assumptions, ∃ cond b, .decided cond b ∈ events ∧ a = outcomeFact cond b

section
variable {ctx : Context} {events before after : List (Event .checked)}

theorem Context.Records.mono (h : ctx.Records before) (hsub : before ⊆ after) :
    ctx.Records after := by
  intro a ha
  obtain ⟨cond, b, hmem, hfact⟩ := h a ha
  exact ⟨cond, b, hsub hmem, hfact⟩

theorem Context.Records.newScope (h : ctx.Records events) : ctx.newScope.Records events := by
  intro a ha
  rw [Context.assumptions_newScope] at ha
  exact h a ha

theorem Context.Records.assume {cond : Checked} {b : Bool} (h : ctx.Records events)
    (hmem : .decided cond b ∈ events) : (ctx.assume (outcomeFact cond b)).Records events := by
  intro a ha
  rw [Context.assumptions_assume] at ha
  rcases List.mem_cons.mp ha with rfl | ha
  · exact ⟨cond, b, hmem, rfl⟩
  · exact h a ha

/-- A branch is checked in a context in which the outcome that leads to it is recorded. -/
theorem Context.Records.branch (h : ctx.Records before) (cond : Checked) (b : Bool) :
    (ctx.newScope.assume (outcomeFact cond b)).newScope.Records (before ++ [.decided cond b]) :=
  ((h.mono (List.subset_append_left before _)).newScope.assume (by simp)).newScope

/-- What is learnt from a statement is an outcome on every path that passes it. -/
theorem Context.Records.learn {s : Stmt .checked} (h : ctx.Records before)
    (hpath : s.Path events .passed) : (s.learn ctx).Records (before ++ events) := by
  have hold : ctx.Records (before ++ events) := h.mono (List.subset_append_left before events)
  cases hpath with
  | call => exact hold
  | ifThen hyes =>
    simp only [Stmt.learn]
    split
    · next hret => exact absurd rfl (BodyPath.ne_passed _ hret hyes)
    · exact hold
  | skip =>
    simp only [Stmt.learn]
    split
    · exact hold.assume (b := false) (by simp)
    · exact hold
  | ifElse outcome hbranch =>
    simp only [Stmt.learn]
    split
    · next hret =>
      obtain ⟨hno, -⟩ := Bool.and_eq_true_iff.mp hret
      cases outcome with
      | true => exact hold.assume (b := true) (by simp)
      | false => exact absurd rfl (BodyPath.ne_passed _ hno hbranch)
    · exact hold

end

/-! ## Contradictions -/

section
variable {env : Env} {fuel : Nat}

/-- The facts of a context whose assumptions are outcomes on a path are recorded there. -/
theorem Context.Records.facts {ctx : Context} {events : List (Event .checked)}
    (h : ctx.Records events) {facts : List Checked} (hfacts : env.facts fuel ctx = .ok facts) :
    ∀ f ∈ facts, ∃ cond, Recorded env fuel events cond f := by
  intro f hf
  obtain ⟨a, ha, hnormal⟩ := Env.exists_assumption_of_mem_facts hfacts f hf
  obtain ⟨cond, b, hmem, rfl⟩ := h a ha
  exact ⟨cond, b, hmem, hnormal⟩

/-- Facts that are recorded on a path contradict each other. -/
def ContradictoryOutcomes (env : Env) (fuel : Nat) (events : List (Event .checked)) : Prop :=
  ∃ facts, (∀ f ∈ facts, ∃ cond, Recorded env fuel events cond f) ∧ contradictory facts

mutual

/-- Where a path through an accepted statement ends at an `impossible` without a reason, the
outcomes recorded on the way contradict each other. -/
theorem Stmt.Accepts.contradictory_of_impossible : ∀ {s : Stmt .written} {s' : Stmt .checked}
    {ctx : Context} {ret : Checked} {before events : List (Event .checked)},
    Stmt.Accepts fuel env ctx ret s s' → ctx.Records before → s'.Path events (.impossible none) →
      ContradictoryOutcomes env fuel (before ++ events)
  | _, _, _, _, _, _, .ifThen _ hyes, h, .ifThen hpath => by
    rw [List.append_cons]
    exact hyes.contradictory_of_impossible (h.branch _ true) hpath
  | _, _, _, _, _, _, .ifElse _ hyes hno, h, .ifElse outcome hpath => by
    rw [List.append_cons]
    cases outcome with
    | true => exact hyes.contradictory_of_impossible (h.branch _ true) hpath
    | false => exact hno.contradictory_of_impossible (h.branch _ false) hpath
  | _, _, _, _, _, _, .impossible hfacts hcontra, h, .impossible => by
    rw [List.append_nil]
    exact ⟨_, h.facts hfacts, hcontra⟩

/-- Where a path through an accepted body ends at an `impossible` without a reason, the outcomes
recorded on the way contradict each other. -/
theorem AcceptsBody.contradictory_of_impossible : ∀ {b : Body .written} {b' : Body .checked}
    {ctx : Context} {ret : Checked} {before events : List (Event .checked)},
    AcceptsBody fuel env ctx ret b b' → ctx.Records before → BodyPath b' events (.impossible none) →
      ContradictoryOutcomes env fuel (before ++ events)
  | _, _, _, _, _, _, .cons hs _, h, .stop hpath _ => hs.contradictory_of_impossible h hpath
  | _, _, _, _, _, _, .cons _ hrest, h, .next hpath hafter => by
    rw [← List.append_assoc]
    exact hrest.contradictory_of_impossible (h.learn hpath) hafter

end

/-! ## Clashes -/

/-- A fact that excludes another excludes it among more facts. -/
theorem excludes_mono {facts more : List Checked} (hsub : facts ⊆ more) {f : Checked}
    (h : excludes facts f) : excludes more f := by
  unfold excludes at h ⊢
  split at h
  · exact h
  · obtain ⟨g, hg, halpha⟩ := List.any_eq_true.mp h
    exact List.any_eq_true.mpr ⟨g, hsub hg, halpha⟩
  · cases h

/-- If facts contradict each other, one of them excludes one of them. -/
theorem exists_excludes_of_contradictory {facts : List Checked} (h : contradictory facts) :
    ∃ f ∈ facts, ∃ g ∈ facts, excludes [g] f := by
  obtain ⟨f, hf, hex⟩ := List.any_eq_true.mp h
  refine ⟨f, hf, ?_⟩
  unfold excludes at hex ⊢
  split at hex
  · exact ⟨_, hf, hex⟩
  · obtain ⟨g, hg, halpha⟩ := List.any_eq_true.mp hex
    exact ⟨g, hg, by simpa using halpha⟩
  · cases hex

/-- The fact that a condition without effects is recorded as holds. -/
theorem Truth.holds_of_recorded (T : Truth env) {events : List (Event .checked)}
    (hguides : T.GuidesPure events) {cond fact : Checked}
    (h : Recorded env fuel events cond fact) (hpure : cond.hasEffect = false) :
    T.settles fact ∧ T.holds fact := by
  obtain ⟨b, hmem, hnormal⟩ := h
  obtain ⟨hs, rfl⟩ := hguides cond b hmem hpure
  have houtcome : T.settles (outcomeFact cond (T.holds cond)) ∧
      T.holds (outcomeFact cond (T.holds cond)) := by
    unfold outcomeFact
    cases hcond : T.holds cond with
    | true => exact ⟨hs, hcond⟩
    | false =>
      refine ⟨(T.settles_not _ _).mpr hs, ?_⟩
      simp [Checked.not, Checked.term, T.holds_not _ _ hs, hcond]
  obtain ⟨hs', heq⟩ := T.normal fuel _ fact houtcome.1 (Env.normal_eq_ok.mp hnormal)
  exact ⟨hs', heq ▸ houtcome.2⟩

/-- Outcomes that contradict each other are not all of conditions without effects. -/
theorem Truth.effectfulClash_of_contradictory (T : Truth env) {events : List (Event .checked)}
    (hguides : T.GuidesPure events) (h : ContradictoryOutcomes env fuel events) :
    EffectfulClash env fuel events := by
  obtain ⟨facts, hrecorded, hcontra⟩ := h
  obtain ⟨f, hf, g, hg, hex⟩ := exists_excludes_of_contradictory hcontra
  obtain ⟨cond₁, h₁⟩ := hrecorded f hf
  obtain ⟨cond₂, h₂⟩ := hrecorded g hg
  refine ⟨cond₁, cond₂, f, g, h₁, h₂, hex, ?_⟩
  by_contra hpure
  simp only [not_or, Bool.not_eq_true] at hpure
  -- otherwise both facts would hold
  have hboth : ∀ x ∈ [f, g], T.settles x ∧ T.holds x := by
    intro x hx
    rcases List.mem_pair.mp hx with rfl | rfl
    · exact T.holds_of_recorded hguides h₁ hpure.1
    · exact T.holds_of_recorded hguides h₂ hpure.2
  have hcontra : contradictory [f, g] := by
    refine List.any_eq_true.mpr ⟨f, by simp, excludes_mono ?_ hex⟩
    simp
  rw [T.not_contradictory hboth] at hcontra
  cases hcontra

end

/-- An `impossible` without a reason that is accepted in a context without assumptions can be
reached only if the outcome of a condition with effects is part of the contradiction. On every path
on which the conditions without effects come out as they hold, the outcomes that the checker relied
on are among those on the path, and one of the two that exclude each other is of a condition with
effects. In particular no path without such a condition arrives there. -/
theorem effectful_clash_of_impossible_reached {env : Env} (T : Truth env) {fuel : Nat}
    {ctx : Context} (hctx : ctx.assumptions = []) {b : Body .written} {ret : Checked}
    {b' : Body .checked} (hb : env.checkBody fuel ctx b ret = .ok b')
    {events : List (Event .checked)} (hpath : BodyPath b' events (.impossible none))
    (hguides : T.GuidesPure events) : EffectfulClash env fuel events := by
  have hstart : ctx.newScope.Records [] := by
    intro a ha
    rw [Context.assumptions_newScope, hctx] at ha
    cases ha
  have hbody := acceptsBody_of_elaborate b hb
  exact T.effectfulClash_of_contradictory hguides
    (hbody.contradictory_of_impossible hstart hpath)

/-! ## A condition that is evaluated twice -/

/-- The environment of a unit that declares `f` as a function with effects from outside, without
arguments and with a boolean result. -/
def effectfulEnv : Env :=
  let bool : Written := .mk (.place {} rfl) (.atom .bool)
  ((checkUnit 8 [⟨{}, "f", .external (.returns .yes bool)⟩]).run.run {}).2

/-- The body `if f() { return; } if f() { impossible; }`. -/
def calledTwice : Body .written :=
  let f : Written := .mk (.place {} rfl) (.atom (.global { name := "f" }))
  let cond : Written := .mk (.place {} rfl) (.app f [])
  [.ifThen {} cond [.retUnit {}], .ifThen {} cond [.impossible {}]]

/-- The call `f()` as checked. -/
def effectfulCall : Checked :=
  Checked.term Checked.bool (.app (Checked.term (Checked.pi (.returns .yes Checked.bool))
    (.atom (.global { name := "f" }))) [])

theorem checkBody_calledTwice :
    effectfulEnv.checkBody 8 { mutability := .yes } calledTwice (Checked.type (.atom .unit)) = .ok
      [.ifThen () effectfulCall [.retUnit ()], .ifThen () effectfulCall [.impossible ()]] :=
  rfl

/-- The first call returns false and the second one true. -/
theorem path_calledTwice : BodyPath
    [.ifThen () effectfulCall [.retUnit ()], .ifThen () effectfulCall [.impossible ()]]
    [.decided effectfulCall false, .decided effectfulCall true] (.impossible none) :=
  .next .skip (.stop (.ifThen (.stop .impossible nofun)) nofun)

theorem Truth.guidesPure_calledTwice (T : Truth effectfulEnv) :
    T.GuidesPure [.decided effectfulCall false, .decided effectfulCall true] := by
  intro cond b hmem hpure
  have hcond : cond = effectfulCall := by
    rcases List.mem_pair.mp hmem with h | h <;> cases h <;> rfl
  rw [hcond] at hpure
  cases hpure

/-- The body is accepted in a function with effects, and the `impossible` is reached although all
conditions without effects come out as any truth values say. -/
theorem impossible_reached_by_second_call :
    ∃ (env : Env) (ctx : Context) (b : Body .written) (b' : Body .checked)
      (events : List (Event .checked)), ctx.mutability = .yes ∧ ctx.assumptions = [] ∧
      env.checkBody 8 ctx b (Checked.type (.atom .unit)) = .ok b' ∧
      BodyPath b' events (.impossible none) ∧ ∀ T : Truth env, T.GuidesPure events :=
  ⟨effectfulEnv, _, calledTwice, _, _, rfl, rfl, checkBody_calledTwice, path_calledTwice,
    Truth.guidesPure_calledTwice⟩

/-- On the path that reaches the `impossible`, the two calls of `f` clash. -/
theorem effectfulClash_calledTwice :
    effectfulCall.hasEffect ∧ EffectfulClash effectfulEnv 8
      [.decided effectfulCall false, .decided effectfulCall true] := by
  refine ⟨rfl, ?_⟩
  have T := Truth.ofVars effectfulEnv fun _ => true
  exact effectful_clash_of_impossible_reached T rfl checkBody_calledTwice path_calledTwice
    T.guidesPure_calledTwice

end DependentCore
