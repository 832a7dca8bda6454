import DependentCore.Proofs.Flow.Paths

/-!
# Impossible code

`endsImpossible` is asked whether a body can be dropped because every path through it ends at an
`impossible`. What it answers is a question about fewer paths: it passes every statement that can
be passed and never looks at what happens if control stops inside it. The paths that it does look
at are the direct ones.

* `DirectPath`: a path that stops only at a statement that no path passes,
* `endsImpossible_iff`: all direct paths end at an `impossible`,
* `all_paths_impossible_iff`: all paths do, if moreover none of them returns.
-/

namespace DependentCore

variable {p : Phase}

/-- The path ends at an `impossible`. -/
def Ending.IsImpossible (ending : Ending p) : Prop :=
  ∃ reason, ending = .impossible reason

theorem Ending.not_isImpossible_passed : ¬(Ending.passed : Ending p).IsImpossible :=
  nofun

theorem Ending.not_isImpossible_returned (x : Option (Term p)) :
    ¬(Ending.returned x).IsImpossible :=
  nofun

mutual

/-- A direct path through a statement that no path passes. -/
inductive Stmt.DirectPath : Stmt p → List (Event p) → Ending p → Prop where
  | ifElse {mark cond yes no events ending} (outcome : Bool) :
    DirectPath (if outcome then yes else no) events ending →
    Stmt.DirectPath (.ifElse mark cond yes no) (.decided cond outcome :: events) ending
  | ret {mark x} : Stmt.DirectPath (.ret mark x) [] (.returned (some x))
  | retUnit {mark} : Stmt.DirectPath (.retUnit mark) [] (.returned none)
  | impossible {mark} : Stmt.DirectPath (.impossible mark) [] (.impossible none)
  | impossibleBy {mark x} : Stmt.DirectPath (.impossibleBy mark x) [] (.impossible (some x))

/-- A path through a body that passes every statement that can be passed. -/
inductive DirectPath : List (Stmt p) → List (Event p) → Ending p → Prop where
  | nil : DirectPath [] [] .passed
  | stop {s rest events ending} : s.isTerminator → s.DirectPath events ending →
    DirectPath (s :: rest) events ending
  | next {s rest before after ending} : s.Path before .passed → DirectPath rest after ending →
    DirectPath (s :: rest) (before ++ after) ending

end

mutual

theorem Stmt.DirectPath.path : ∀ {s : Stmt p} {events : List (Event p)} {ending : Ending p},
    s.DirectPath events ending → s.Path events ending
  | _, _, _, .ifElse outcome h => .ifElse outcome h.path
  | _, _, _, .ret => .ret
  | _, _, _, .retUnit => .retUnit
  | _, _, _, .impossible => .impossible
  | _, _, _, .impossibleBy => .impossibleBy

/-- A direct path is a path. -/
theorem DirectPath.path : ∀ {b : List (Stmt p)} {events : List (Event p)} {ending : Ending p},
    DirectPath b events ending → BodyPath b events ending
  | _, _, _, .nil => .nil
  | s :: _, _, _, .stop hterm h => .stop h.path (Stmt.Path.ne_passed s hterm h.path)
  | _, _, _, .next hs h => .next hs h.path

end

/-! ## Verdicts -/

mutual

theorem Stmt.isTerminator_of_endsImpossible : ∀ s : Stmt p, s.endsImpossible → s.isTerminator
  | .ifElse _ _ yes no, h => by
    obtain ⟨hyes, hno⟩ := Bool.and_eq_true_iff.mp h
    exact Bool.and_eq_true_iff.mpr
      ⟨returnsAlways_of_endsImpossible yes hyes, returnsAlways_of_endsImpossible no hno⟩
  | .impossible _, _ => rfl
  | .impossibleBy _ _, _ => rfl

/-- A body that is reported impossible is not left at its end. -/
theorem returnsAlways_of_endsImpossible : ∀ b : List (Stmt p), endsImpossible b → returnsAlways b
  | s :: rest, h => by
    refine Bool.or_eq_true_iff.mpr ?_
    rcases Bool.or_eq_true_iff.mp h with hs | hrest
    · exact .inl (s.isTerminator_of_endsImpossible hs)
    · exact .inr (returnsAlways_of_endsImpossible rest (Bool.and_eq_true_iff.mp hrest).2)

end

mutual

/-- Direct paths through a statement that is reported impossible end at an `impossible`. -/
theorem Stmt.DirectPath.isImpossible : ∀ {s : Stmt p} {events : List (Event p)}
    {ending : Ending p}, s.endsImpossible → s.DirectPath events ending → ending.IsImpossible
  | _, _, _, h, .ifElse outcome hpath => by
    obtain ⟨hyes, hno⟩ := Bool.and_eq_true_iff.mp h
    cases outcome with
    | true => exact DirectPath.isImpossible hyes hpath
    | false => exact DirectPath.isImpossible hno hpath
  | _, _, _, _, .impossible => ⟨_, rfl⟩
  | _, _, _, _, .impossibleBy => ⟨_, rfl⟩

/-- Direct paths through a body that is reported impossible end at an `impossible`. -/
theorem DirectPath.isImpossible : ∀ {b : List (Stmt p)} {events : List (Event p)}
    {ending : Ending p}, endsImpossible b → DirectPath b events ending → ending.IsImpossible
  | s :: rest, _, _, h, .stop hterm hpath => by
    -- the rest is looked at only if the first statement can be passed
    rcases Bool.or_eq_true_iff.mp h with hs | hrest
    · exact hpath.isImpossible hs
    · simp [hterm] at hrest
  | s :: rest, _, _, h, .next hpassed hpath => by
    rcases Bool.or_eq_true_iff.mp h with hs | hrest
    · exact absurd rfl (Stmt.Path.ne_passed s (s.isTerminator_of_endsImpossible hs) hpassed)
    · exact hpath.isImpossible (Bool.and_eq_true_iff.mp hrest).2

end

mutual

/-- A terminator is reported impossible if all direct paths through it end at an `impossible`. -/
theorem Stmt.endsImpossible_of_directPaths : ∀ s : Stmt p, s.isTerminator →
    (∀ events ending, s.DirectPath events ending → ending.IsImpossible) → s.endsImpossible
  | .ifElse _ _ yes no, _, h => by
    refine Bool.and_eq_true_iff.mpr ⟨?_, ?_⟩
    · exact endsImpossible_of_directPaths yes fun _ _ hpath => h _ _ (.ifElse true hpath)
    · exact endsImpossible_of_directPaths no fun _ _ hpath => h _ _ (.ifElse false hpath)
  | .ret _ _, _, h => absurd (h _ _ .ret) (Ending.not_isImpossible_returned _)
  | .retUnit _, _, h => absurd (h _ _ .retUnit) (Ending.not_isImpossible_returned _)
  | .impossible _, _, _ => rfl
  | .impossibleBy _ _, _, _ => rfl

/-- A body is reported impossible if all direct paths through it end at an `impossible`. -/
theorem endsImpossible_of_directPaths : ∀ b : List (Stmt p),
    (∀ events ending, DirectPath b events ending → ending.IsImpossible) → endsImpossible b
  | [], h => absurd (h _ _ .nil) Ending.not_isImpossible_passed
  | s :: rest, h => by
    refine Bool.or_eq_true_iff.mpr ?_
    cases hterm : s.isTerminator with
    | true =>
      left
      exact s.endsImpossible_of_directPaths hterm fun _ _ hpath => h _ _ (.stop hterm hpath)
    | false =>
      -- what comes after a path that passes the statement decides
      right
      obtain ⟨before, hbefore⟩ := Stmt.Path.exists_passed s hterm
      have hrest : endsImpossible rest :=
        endsImpossible_of_directPaths rest fun _ _ hpath => h _ _ (.next hbefore hpath)
      simpa using hrest

end

theorem endsImpossible_iff (b : List (Stmt p)) :
    endsImpossible b ↔ ∀ events ending, DirectPath b events ending → ending.IsImpossible :=
  ⟨fun h _ _ hpath => hpath.isImpossible h, endsImpossible_of_directPaths b⟩

/-- All paths through a body end at an `impossible` just if the body is reported impossible and
none of its paths returns. -/
theorem all_paths_impossible_iff (b : List (Stmt p)) :
    (∀ events ending, BodyPath b events ending → ending.IsImpossible) ↔
      endsImpossible b ∧ ∀ events x, ¬BodyPath b events (.returned x) := by
  constructor
  · intro h
    have hdirect := endsImpossible_of_directPaths b fun _ _ hpath => h _ _ hpath.path
    exact ⟨hdirect, fun _ x hpath => Ending.not_isImpossible_returned x (h _ _ hpath)⟩
  · rintro ⟨h, hreturned⟩ events ending hpath
    cases ending with
    | passed =>
      exact absurd rfl (BodyPath.ne_passed b (returnsAlways_of_endsImpossible b h) hpath)
    | returned x => exact absurd hpath (hreturned events x)
    | impossible reason => exact ⟨reason, rfl⟩

/-- What the verdict `endsImpossible` says about the paths through a body. It holds just if every
path that passes all statements that can be passed ends at an `impossible`. A body all paths of
which end at an `impossible` has the verdict; a body with the verdict has such paths only, unless
control returns from inside a statement that can be passed. -/
theorem endsImpossible_verdict (b : List (Stmt p)) :
    (endsImpossible b ↔ ∀ events ending, DirectPath b events ending → ending.IsImpossible) ∧
    ((∀ events ending, BodyPath b events ending → ending.IsImpossible) ↔
      endsImpossible b ∧ ∀ events x, ¬BodyPath b events (.returned x)) :=
  ⟨endsImpossible_iff b, all_paths_impossible_iff b⟩

/-- The body `if b { return; } impossible;` is reported impossible, but it returns if `b` holds. -/
theorem endsImpossible_of_early_return :
    let cond : Written := .mk (.place {} rfl) (.var { name := "b" })
    let body : Body .written := [.ifThen {} cond [.retUnit {}], .impossible {}]
    endsImpossible body ∧
      ¬∀ events ending, BodyPath body events ending → ending.IsImpossible := by
  intro cond body
  refine ⟨rfl, fun h => ?_⟩
  have hpath : BodyPath body [.decided cond true] (.returned none) :=
    .stop (.ifThen (.stop .retUnit nofun)) nofun
  exact Ending.not_isImpossible_returned none (h _ _ hpath)

end DependentCore
