import DependentCore.Proofs.Flow.Paths

/-!
# Terminators and paths

The checker asks whether a body always returns, and normalisation asks behind which statements
control never goes on. Both questions are about paths, and both answers are exact: a body or
statement is refused the verdict only if some path shows why.

`Stmt.stops` looks at literal conditions too. It is the verdict about the paths that obey them, and
it is one-sided: literal conditions inside the branches are not looked at.

* `ObeysLiterals`: a literal condition comes out as the literal says,
* `returnsAlways_iff`, `Stmt.isTerminator_iff`: the verdicts in terms of paths,
* `Stmt.Path.ne_passed_of_stops`: no path that obeys literal conditions goes on behind a statement
  that stops.
-/

namespace DependentCore

variable {p : Phase}

/-- The literal conditions that are met on a path come out as they say. -/
def ObeysLiterals (events : List (Event p)) : Prop :=
  ∀ cond outcome b, .decided cond outcome ∈ events → cond.isLit b → outcome = b

/-- A path that obeys literal conditions takes the branch that the first one of them selects. -/
theorem ObeysLiterals.outcome_eq {cond : Term p} {outcome b : Bool} {events : List (Event p)}
    (h : ObeysLiterals (.decided cond outcome :: events)) (hlit : cond.isLit b) : outcome = b :=
  h cond outcome b List.mem_cons_self hlit

theorem ObeysLiterals.nil : ObeysLiterals ([] : List (Event p)) :=
  nofun

theorem ObeysLiterals.cons {cond : Term p} {outcome : Bool} {events : List (Event p)}
    (hcond : ∀ b, cond.isLit b → outcome = b) (h : ObeysLiterals events) :
    ObeysLiterals (.decided cond outcome :: events) := by
  intro c o b hmem hlit
  rcases List.mem_cons.mp hmem with heq | hmem
  · cases heq
    exact hcond b hlit
  · exact h c o b hmem hlit

theorem ObeysLiterals.append {before after : List (Event p)} (hb : ObeysLiterals before)
    (ha : ObeysLiterals after) : ObeysLiterals (before ++ after) := by
  intro c o b hmem hlit
  rcases List.mem_append.mp hmem with hmem | hmem
  · exact hb c o b hmem hlit
  · exact ha c o b hmem hlit

/-! ## Verdicts -/

theorem returnsAlways_iff (b : Body p) :
    returnsAlways b ↔ ∀ events, ¬BodyPath b events .passed := by
  constructor
  · intro hret events hpath
    exact BodyPath.ne_passed b hret hpath rfl
  · intro hnone
    cases hret : returnsAlways b with
    | true => rfl
    | false =>
      obtain ⟨events, hpath⟩ := BodyPath.exists_passed b hret
      exact absurd hpath (hnone events)

theorem Stmt.isTerminator_iff (s : Stmt p) :
    s.isTerminator ↔ ∀ events, ¬s.Path events .passed := by
  constructor
  · intro hterm events hpath
    exact Stmt.Path.ne_passed s hterm hpath rfl
  · intro hnone
    cases hterm : s.isTerminator with
    | true => rfl
    | false =>
      obtain ⟨events, hpath⟩ := Stmt.Path.exists_passed s hterm
      exact absurd hpath (hnone events)

/-- What no path passes is not passed either if literal conditions are obeyed. -/
theorem Stmt.stops_of_isTerminator (s : Stmt p) (hterm : s.isTerminator) : s.stops := by
  cases s with
  | ifElse m cond yes no =>
    obtain ⟨hyes, hno⟩ := Bool.and_eq_true_iff.mp hterm
    rw [Stmt.stops]
    split
    · exact hyes
    · split
      · exact hno
      · exact hterm
  | ifThen => cases hterm
  | _ => exact hterm

theorem Stmt.Path.ne_passed_of_stops {s : Stmt p} {events : List (Event p)} {ending : Ending p}
    (hstops : s.stops) (hpath : s.Path events ending) (hlit : ObeysLiterals events) :
    ending ≠ .passed := by
  cases hpath with
  | call => cases hstops
  | ifThen hyes =>
    obtain ⟨-, hret⟩ := Bool.and_eq_true_iff.mp hstops
    exact BodyPath.ne_passed _ hret hyes
  | skip =>
    -- the branch is skipped against a condition that is literally true
    obtain ⟨htrue, -⟩ := Bool.and_eq_true_iff.mp hstops
    exact absurd (hlit.outcome_eq htrue) Bool.false_ne_true
  | @ifElse _ cond yes no _ _ outcome hbranch =>
    -- a literal condition leaves one branch, which always returns; otherwise both do
    refine BodyPath.ne_passed _ ?_ hbranch
    rw [Stmt.stops] at hstops
    by_cases htrue : cond.isLit true
    · rw [if_pos htrue] at hstops
      rw [hlit.outcome_eq htrue]
      exact hstops
    · rw [if_neg htrue] at hstops
      by_cases hfalse : cond.isLit false
      · rw [if_pos hfalse] at hstops
        rw [hlit.outcome_eq hfalse]
        exact hstops
      · rw [if_neg hfalse] at hstops
        obtain ⟨hyes, hno⟩ := Bool.and_eq_true_iff.mp hstops
        cases outcome with
        | true => exact hyes
        | false => exact hno
  | ret | retUnit | impossible | impossibleBy =>
    intro hpassed
    cases hpassed

/-- The verdicts on bodies and statements are exact: a body always returns just if no path falls off
its end, and a statement is a terminator just if no path goes on behind it. Every terminator stops,
and no path that obeys literal conditions goes on behind a statement that stops. -/
theorem terminator_verdicts_are_exact (p : Phase) :
    (∀ b : Body p, returnsAlways b ↔ ∀ events, ¬BodyPath b events .passed) ∧
    (∀ s : Stmt p, s.isTerminator ↔ ∀ events, ¬s.Path events .passed) ∧
    (∀ s : Stmt p, s.isTerminator → s.stops) ∧
    ∀ s : Stmt p, s.stops → ∀ events, ObeysLiterals events → ¬s.Path events .passed := by
  refine ⟨returnsAlways_iff, Stmt.isTerminator_iff, Stmt.stops_of_isTerminator, ?_⟩
  intro s hstops events hlit hpath
  exact Stmt.Path.ne_passed_of_stops hstops hpath hlit rfl

/-- The statement `if true { return; } else {}` stops. It is no terminator: the path through the
else goes on behind it, and that path does not obey the condition. -/
theorem terminator_verdicts_on_literal_condition :
    let loc : Note .written Written := .place {} rfl
    let cond : Written := .mk loc (.atom (.lit true))
    let s : Stmt .written := .ifElse {} cond [.retUnit {}] []
    s.stops ∧ (∀ events, ObeysLiterals events → ¬s.Path events .passed) ∧
      ¬s.isTerminator ∧ s.Path [.decided cond false] .passed := by
  intro loc cond s
  obtain ⟨-, hterminator, -, hstops⟩ := terminator_verdicts_are_exact .written
  have hpath : s.Path [.decided cond false] .passed := .ifElse false .nil
  exact ⟨rfl, hstops s rfl, fun hterm => (hterminator s).mp hterm _ hpath, hpath⟩

end DependentCore
