import DependentCore.Proofs.Flow.Terminators

/-!
# Executions

An execution of a body decides the conditions it comes to and makes the calls it comes to. What a
condition evaluates to and what a call answers is left to an `Interpretation`, which sees all that
was decided and answered before; literal conditions evaluate to themselves.

* `Interpretation`: the meaning of conditions and calls after a history,
* `Stmt.run`, `runBody`: what is observed in an execution, and where it stops,
* `runBody_append`: a body made of two parts is executed one part after the other,
* `runBody_path`, `runBody_obeysLiterals`: an execution follows one of the paths through the body
  that obey literal conditions,
* `dropUnreachable_keeps_executions`: the code that `dropUnreachable` removes takes no part in
  executions.
-/

namespace DependentCore

universe u

variable {p : Phase} {ρ : Type u}

/-! ## Interpretations -/

/-- What is observed in an execution: the outcome of a condition, or the answer to a call. -/
inductive Observation (p : Phase) (ρ : Type u) where
  | decided (cond : Term p) (outcome : Bool)
  | called (x : Term p) (answer : ρ)

/-- The event on a path that is observed. -/
def Observation.event : Observation p ρ → Event p
  | .decided cond outcome => .decided cond outcome
  | .called x _ => .called x

/-- What conditions evaluate to and calls answer, given the observations that were made before, the
first one first. -/
structure Interpretation (p : Phase) (ρ : Type u) where
  decide : List (Observation p ρ) → Term p → Bool
  answer : List (Observation p ρ) → Term p → ρ
  decide_lit : ∀ history cond b, cond.isLit b → decide history cond = b

/-- Where an execution stops: at a `return` or an `impossible`, with its place. -/
inductive Exit (p : Phase) where
  | returned (mark : Mark p) (x : Option (Term p))
  | impossible (mark : Mark p) (reason : Option (Term p))

/-- How a path ends that stops there. -/
def Exit.ending : Exit p → Ending p
  | .returned _ x => .returned x
  | .impossible _ reason => .impossible reason

theorem Exit.ending_ne_passed (e : Exit p) : e.ending ≠ .passed := by
  cases e <;> nofun

/-- A finished execution: the observations that were made, and where it stopped, unless control went
on behind the last statement. -/
structure Run (p : Phase) (ρ : Type u) where
  seen : List (Observation p ρ)
  exit : Option (Exit p)

namespace Run

/-- How the path ends that is taken. -/
def ending (r : Run p ρ) : Ending p :=
  match r.exit with
  | some e => e.ending
  | none => .passed

/-- The same execution with observations made before it. -/
def after (before : List (Observation p ρ)) (r : Run p ρ) : Run p ρ :=
  ⟨before ++ r.seen, r.exit⟩

/-- An execution that goes on, unless it has stopped. -/
def andThen (r : Run p ρ) (next : List (Observation p ρ) → Run p ρ) : Run p ρ :=
  match r.exit with
  | some _ => r
  | none => (next r.seen).after r.seen

@[simp]
theorem ending_after (before : List (Observation p ρ)) (r : Run p ρ) :
    (r.after before).ending = r.ending :=
  rfl

theorem after_after (before between : List (Observation p ρ)) (r : Run p ρ) :
    (r.after between).after before = r.after (before ++ between) := by
  simp [after, List.append_assoc]

theorem ending_of_exit {r : Run p ρ} {e : Exit p} (h : r.exit = some e) : r.ending = e.ending := by
  rw [ending, h]

theorem ending_eq_passed {r : Run p ρ} : r.ending = .passed ↔ r.exit = none := by
  cases h : r.exit with
  | none => simp [ending, h]
  | some e => simp [ending, h, e.ending_ne_passed]

theorem andThen_of_exit {r : Run p ρ} {e : Exit p} (h : r.exit = some e)
    (next : List (Observation p ρ) → Run p ρ) : r.andThen next = r := by
  rw [andThen, h]

theorem andThen_of_passed {r : Run p ρ} (h : r.exit = none)
    (next : List (Observation p ρ) → Run p ρ) : r.andThen next = (next r.seen).after r.seen := by
  rw [andThen, h]

theorem andThen_assoc (r : Run p ρ) (next next' : List (Observation p ρ) → Run p ρ) :
    (r.andThen next).andThen next'
      = r.andThen fun seen => (next seen).andThen fun seen' => next' (seen ++ seen') := by
  cases h : r.exit with
  | some e => simp only [andThen_of_exit h]
  | none =>
    simp only [andThen_of_passed h]
    cases hn : (next r.seen).exit with
    | some e =>
      have hafter : ((next r.seen).after r.seen).exit = some e := hn
      rw [andThen_of_exit hn, andThen_of_exit hafter]
    | none =>
      have hafter : ((next r.seen).after r.seen).exit = none := hn
      rw [andThen_of_passed hn, andThen_of_passed hafter, after_after]
      rfl

end Run

/-! ## Executions -/

mutual

/-- The execution of a statement after a history. -/
def Stmt.run (I : Interpretation p ρ) (history : List (Observation p ρ)) : Stmt p → Run p ρ
  | .call _ x => ⟨[.called x (I.answer history x)], none⟩
  | .ifThen _ cond yes =>
    if I.decide history cond then
      (runBody I (history ++ [.decided cond true]) yes).after [.decided cond true]
    else
      ⟨[.decided cond false], none⟩
  | .ifElse _ cond yes no =>
    if I.decide history cond then
      (runBody I (history ++ [.decided cond true]) yes).after [.decided cond true]
    else
      (runBody I (history ++ [.decided cond false]) no).after [.decided cond false]
  | .ret mark x => ⟨[], some (.returned mark (some x))⟩
  | .retUnit mark => ⟨[], some (.returned mark none)⟩
  | .impossible mark => ⟨[], some (.impossible mark none)⟩
  | .impossibleBy mark reason => ⟨[], some (.impossible mark (some reason))⟩

/-- The execution of a body after a history. -/
def runBody (I : Interpretation p ρ) (history : List (Observation p ρ)) :
    List (Stmt p) → Run p ρ
  | [] => ⟨[], none⟩
  | s :: rest => (s.run I history).andThen fun seen => runBody I (history ++ seen) rest

end

section
variable (I : Interpretation p ρ) (history : List (Observation p ρ))

theorem runBody_append (b c : List (Stmt p)) :
    runBody I history (b ++ c)
      = (runBody I history b).andThen fun seen => runBody I (history ++ seen) c := by
  induction b generalizing history with
  | nil =>
    rw [List.nil_append, runBody, Run.andThen, List.append_nil]
    rfl
  | cons s rest ih =>
    rw [List.cons_append, runBody, runBody, Run.andThen_assoc]
    simp only [ih, List.append_assoc]

mutual

/-- An execution of a statement follows a path through it. -/
theorem Stmt.run_path : ∀ (history : List (Observation p ρ)) (s : Stmt p),
    s.Path ((s.run I history).seen.map (·.event)) (s.run I history).ending
  | _, .call _ _ => .call
  | history, .ifThen _ cond yes => by
    rw [Stmt.run]
    split
    · exact .ifThen (runBody_path _ yes)
    · exact .skip
  | history, .ifElse _ cond yes no => by
    rw [Stmt.run]
    split
    · exact .ifElse true (runBody_path _ yes)
    · exact .ifElse false (runBody_path _ no)
  | _, .ret _ _ => .ret
  | _, .retUnit _ => .retUnit
  | _, .impossible _ => .impossible
  | _, .impossibleBy _ _ => .impossibleBy

/-- An execution of a body follows a path through it. -/
theorem runBody_path : ∀ (history : List (Observation p ρ)) (b : List (Stmt p)),
    BodyPath b ((runBody I history b).seen.map (·.event)) (runBody I history b).ending
  | _, [] => .nil
  | history, s :: rest => by
    have hs := Stmt.run_path history s
    rw [runBody]
    cases hexit : (s.run I history).exit with
    | some e =>
      rw [Run.andThen_of_exit hexit]
      refine .stop hs ?_
      rw [Run.ending_of_exit hexit]
      exact e.ending_ne_passed
    | none =>
      rw [Run.ending_eq_passed.mpr hexit] at hs
      rw [Run.andThen_of_passed hexit, Run.ending_after, Run.after, List.map_append]
      exact .next hs (runBody_path _ rest)

end

mutual

theorem Stmt.run_obeysLiterals : ∀ (history : List (Observation p ρ)) (s : Stmt p),
    ObeysLiterals ((s.run I history).seen.map (·.event))
  | _, .call _ _ => by simp [ObeysLiterals, Stmt.run, Observation.event]
  | history, .ifThen _ cond yes => by
    have hlit := I.decide_lit history cond
    rw [Stmt.run]
    split
    · next hcond =>
      exact .cons (fun b hb => hcond.symm.trans (hlit b hb)) (runBody_obeysLiterals _ yes)
    · next hcond =>
      exact .cons (fun b hb => (eq_false_of_ne_true hcond).symm.trans (hlit b hb)) .nil
  | history, .ifElse _ cond yes no => by
    have hlit := I.decide_lit history cond
    rw [Stmt.run]
    split
    · next hcond =>
      exact .cons (fun b hb => hcond.symm.trans (hlit b hb)) (runBody_obeysLiterals _ yes)
    · next hcond =>
      exact .cons (fun b hb => (eq_false_of_ne_true hcond).symm.trans (hlit b hb))
        (runBody_obeysLiterals _ no)
  | _, .ret _ _ | _, .retUnit _ | _, .impossible _ | _, .impossibleBy _ _ => .nil

/-- The path that an execution follows obeys literal conditions. -/
theorem runBody_obeysLiterals : ∀ (history : List (Observation p ρ)) (b : List (Stmt p)),
    ObeysLiterals ((runBody I history b).seen.map (·.event))
  | _, [] => .nil
  | history, s :: rest => by
    have hs := Stmt.run_obeysLiterals history s
    rw [runBody]
    cases hexit : (s.run I history).exit with
    | some e => rwa [Run.andThen_of_exit hexit]
    | none =>
      rw [Run.andThen_of_passed hexit, Run.after, List.map_append]
      exact hs.append (runBody_obeysLiterals _ rest)

end

/-- An execution of a terminator stops in it. -/
theorem Stmt.exists_exit_of_isTerminator {s : Stmt p} (hterm : s.isTerminator) :
    ∃ e, (s.run I history).exit = some e := by
  refine Option.ne_none_iff_exists'.mp fun hexit => ?_
  exact Stmt.Path.ne_passed s hterm (s.run_path I history) (Run.ending_eq_passed.mpr hexit)

/-! ## Removal of unreachable code -/

mutual

theorem Stmt.run_dropUnreachable : ∀ (history : List (Observation p ρ)) (s : Stmt p),
    s.dropUnreachable.result.run I history = s.run I history
  | history, .ifThen m cond yes => by
    rw [Stmt.dropUnreachable]
    split
    · -- the branch is never taken, so it can as well be empty
      next hfalse => simp [Stmt.run, I.decide_lit history cond false hfalse]
    · simp only [Stmt.run, runBody_dropUnreachable _ yes]
  | history, .ifElse m cond yes no => by
    rw [Stmt.dropUnreachable]
    split
    · next htrue =>
      simp [Stmt.run, I.decide_lit history cond true htrue, runBody_dropUnreachable _ yes]
    · split
      · next hfalse =>
        simp [Stmt.run, I.decide_lit history cond false hfalse, runBody_dropUnreachable _ no]
      · simp only [Stmt.run, runBody_dropUnreachable _ yes, runBody_dropUnreachable _ no]
  | _, .call _ _ | _, .ret _ _ | _, .retUnit _ | _, .impossible _ | _, .impossibleBy _ _ => rfl

theorem runBody_dropUnreachable : ∀ (history : List (Observation p ρ)) (b : List (Stmt p)),
    runBody I history (dropUnreachable b).result = runBody I history b
  | _, [] => rfl
  | history, s :: rest => by
    have hs := Stmt.run_dropUnreachable history s
    rw [dropUnreachable]
    split
    · -- what is cut off comes after a statement in which all executions stop
      next hterm =>
      obtain ⟨e, hexit⟩ := Stmt.exists_exit_of_isTerminator I history hterm
      rw [runBody, runBody, Run.andThen_of_exit hexit]
      rw [hs] at hexit ⊢
      rw [Run.andThen_of_exit hexit]
    · simp only [runBody, hs, runBody_dropUnreachable _ rest]

end

end

/-- Removing unreachable code changes no execution: whatever happened before, the same conditions
are decided and the same calls are made in the same order, and control goes on behind the body or
stops at the same `return` or `impossible`. -/
theorem dropUnreachable_keeps_executions (I : Interpretation p ρ)
    (history : List (Observation p ρ)) (b : Body p) :
    (runBody I history (dropUnreachable b).result).seen = (runBody I history b).seen ∧
      (runBody I history (dropUnreachable b).result).exit = (runBody I history b).exit := by
  rw [runBody_dropUnreachable I history b]
  exact ⟨rfl, rfl⟩

/-- Without its else, `if true { return; } else { return; }` is no terminator any more, so that the
statement behind it stays. -/
example :
    let cond : Written := .mk (.place {} rfl) (.atom (.lit true))
    let body : Body .written :=
      [.ifElse {} cond [.retUnit {}] [.retUnit {}], .retUnit {}, .retUnit {}]
    (dropUnreachable body).result = [.ifThen {} cond [.retUnit {}], .retUnit {}] :=
  rfl

end DependentCore
