import DependentCore.Flow.Reachability

/-!
# Paths through statements

A path goes through a body statement by statement until it meets a `return` or an `impossible`.
At an `if` it may go either way; it records which way it took, and the calls it made.

* `Event`, `Ending`: what a path records, and how it ends,
* `Stmt.Path`, `BodyPath`: the paths through a statement and a body,
* `BodyPath.exists_of_decisions`: conditions that are decided once and for all select a path,
* `BodyPath.ne_passed`, `BodyPath.exists_passed`: no path falls off the end of a body that always
  returns, and some path does off the end of any other.
-/

namespace DependentCore

variable {p : Phase}

/-- What happens on a path. -/
inductive Event (p : Phase) where
  /-- The condition of an `if` came out as given. -/
  | decided (cond : Term p) (outcome : Bool)
  | called (x : Term p)

/-- How a path ends. -/
inductive Ending (p : Phase) where
  /-- Control goes on behind the last statement. -/
  | passed
  | returned (x : Option (Term p))
  | impossible (reason : Option (Term p))

mutual

/-- A path through a statement, with its events in order. -/
inductive Stmt.Path : Stmt p → List (Event p) → Ending p → Prop where
  | call {mark x} : Stmt.Path (.call mark x) [.called x] .passed
  | ifThen {mark cond yes events ending} : BodyPath yes events ending →
    Stmt.Path (.ifThen mark cond yes) (.decided cond true :: events) ending
  | skip {mark cond yes} : Stmt.Path (.ifThen mark cond yes) [.decided cond false] .passed
  | ifElse {mark cond yes no events ending} (outcome : Bool) :
    BodyPath (if outcome then yes else no) events ending →
    Stmt.Path (.ifElse mark cond yes no) (.decided cond outcome :: events) ending
  | ret {mark x} : Stmt.Path (.ret mark x) [] (.returned (some x))
  | retUnit {mark} : Stmt.Path (.retUnit mark) [] (.returned none)
  | impossible {mark} : Stmt.Path (.impossible mark) [] (.impossible none)
  | impossibleBy {mark x} : Stmt.Path (.impossibleBy mark x) [] (.impossible (some x))

/-- A path through a body, with its events in order. -/
inductive BodyPath : List (Stmt p) → List (Event p) → Ending p → Prop where
  | nil : BodyPath [] [] .passed
  | stop {s rest events ending} : s.Path events ending → ending ≠ .passed →
    BodyPath (s :: rest) events ending
  | next {s rest before after ending} : s.Path before .passed → BodyPath rest after ending →
    BodyPath (s :: rest) (before ++ after) ending

end

/-- The conditions met on a path come out as a function of conditions says. -/
def Decides (outcome : Term p → Bool) (events : List (Event p)) : Prop :=
  ∀ cond b, .decided cond b ∈ events → b = outcome cond

theorem Decides.nil (outcome : Term p → Bool) : Decides outcome [] :=
  nofun

theorem Decides.cons {outcome : Term p → Bool} {cond : Term p} {events : List (Event p)}
    (h : Decides outcome events) : Decides outcome (.decided cond (outcome cond) :: events) := by
  intro c b hmem
  rcases List.mem_cons.mp hmem with heq | hmem
  · cases heq
    rfl
  · exact h c b hmem

theorem Decides.append {outcome : Term p → Bool} {before after : List (Event p)}
    (hb : Decides outcome before) (ha : Decides outcome after) :
    Decides outcome (before ++ after) := by
  intro c b hmem
  rcases List.mem_append.mp hmem with hmem | hmem
  · exact hb c b hmem
  · exact ha c b hmem

/-! ## Existence -/

mutual

/-- Some path through a statement takes the decisions given. -/
theorem Stmt.Path.exists_of_decisions (outcome : Term p → Bool) : ∀ s : Stmt p,
    ∃ events ending, s.Path events ending ∧ Decides outcome events
  | .call _ x => ⟨_, _, .call, by simp [Decides]⟩
  | .ifThen _ cond yes => by
    obtain ⟨events, ending, hpath, hdec⟩ := BodyPath.exists_of_decisions outcome yes
    cases hcond : outcome cond with
    | true => exact ⟨_, _, .ifThen hpath, hcond ▸ hdec.cons⟩
    | false => exact ⟨_, _, .skip, hcond ▸ (Decides.nil outcome).cons⟩
  | .ifElse _ cond yes no => by
    cases hcond : outcome cond with
    | true =>
      obtain ⟨events, ending, hpath, hdec⟩ := BodyPath.exists_of_decisions outcome yes
      exact ⟨_, _, .ifElse true hpath, hcond ▸ hdec.cons⟩
    | false =>
      obtain ⟨events, ending, hpath, hdec⟩ := BodyPath.exists_of_decisions outcome no
      exact ⟨_, _, .ifElse false hpath, hcond ▸ hdec.cons⟩
  | .ret _ _ => ⟨_, _, .ret, .nil _⟩
  | .retUnit _ => ⟨_, _, .retUnit, .nil _⟩
  | .impossible _ => ⟨_, _, .impossible, .nil _⟩
  | .impossibleBy _ _ => ⟨_, _, .impossibleBy, .nil _⟩

/-- Some path through a body takes the decisions given. -/
theorem BodyPath.exists_of_decisions (outcome : Term p → Bool) : ∀ b : List (Stmt p),
    ∃ events ending, BodyPath b events ending ∧ Decides outcome events
  | [] => ⟨_, _, .nil, .nil _⟩
  | s :: rest => by
    obtain ⟨before, ending, hs, hbefore⟩ := Stmt.Path.exists_of_decisions outcome s
    by_cases hpassed : ending = .passed
    · subst hpassed
      obtain ⟨after, ending, hrest, hafter⟩ := BodyPath.exists_of_decisions outcome rest
      exact ⟨_, _, .next hs hrest, hbefore.append hafter⟩
    · exact ⟨_, _, .stop hs hpassed, hbefore⟩

end

/-! ## Terminators -/

mutual

/-- No path goes on behind a terminator. -/
theorem Stmt.Path.ne_passed : ∀ (s : Stmt p) {events : List (Event p)} {ending : Ending p},
    s.isTerminator → s.Path events ending → ending ≠ .passed
  | .ifElse _ _ yes no, _, _, hterm, .ifElse outcome hpath => by
    obtain ⟨hyes, hno⟩ := Bool.and_eq_true_iff.mp hterm
    cases outcome with
    | true => exact BodyPath.ne_passed yes hyes hpath
    | false => exact BodyPath.ne_passed no hno hpath
  | .ret _ _, _, _, _, .ret => nofun
  | .retUnit _, _, _, _, .retUnit => nofun
  | .impossible _, _, _, _, .impossible => nofun
  | .impossibleBy _ _, _, _, _, .impossibleBy => nofun

/-- No path falls off the end of a body that always returns. -/
theorem BodyPath.ne_passed : ∀ (b : List (Stmt p)) {events : List (Event p)} {ending : Ending p},
    returnsAlways b → BodyPath b events ending → ending ≠ .passed
  | _ :: _, _, _, _, .stop _ hstop => hstop
  | s :: rest, _, _, hret, .next hs hrest => by
    -- the terminator that the body has cannot be the statement that was passed
    rcases Bool.or_eq_true_iff.mp hret with hterm | hret
    · exact absurd rfl (Stmt.Path.ne_passed s hterm hs)
    · exact BodyPath.ne_passed rest hret hrest

end

mutual

/-- Some path goes on behind a statement that is no terminator. -/
theorem Stmt.Path.exists_passed : ∀ s : Stmt p, s.isTerminator = false →
    ∃ events, s.Path events .passed
  | .call _ _, _ => ⟨_, .call⟩
  | .ifThen _ _ _, _ => ⟨_, .skip⟩
  | .ifElse _ _ yes no, hterm => by
    -- one of the branches can be passed
    rcases Bool.and_eq_false_iff.mp hterm with hyes | hno
    · obtain ⟨events, hpath⟩ := BodyPath.exists_passed yes hyes
      exact ⟨_, .ifElse true hpath⟩
    · obtain ⟨events, hpath⟩ := BodyPath.exists_passed no hno
      exact ⟨_, .ifElse false hpath⟩

/-- Some path falls off the end of a body that does not always return. -/
theorem BodyPath.exists_passed : ∀ b : List (Stmt p), returnsAlways b = false →
    ∃ events, BodyPath b events .passed
  | [], _ => ⟨_, .nil⟩
  | s :: rest, hret => by
    obtain ⟨hs, hrest⟩ := Bool.or_eq_false_iff.mp hret
    obtain ⟨before, hbefore⟩ := Stmt.Path.exists_passed s hs
    obtain ⟨after, hafter⟩ := BodyPath.exists_passed rest hrest
    exact ⟨_, .next hbefore hafter⟩

end

end DependentCore
