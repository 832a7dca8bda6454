import DependentCore.Proofs.Flow.Execution
import DependentCore.Proofs.Flow.Impossible
import DependentCore.Proofs.Reduction.Rules
import DependentCore.Typing.Rules

/-!
# What pruning keeps of an execution

Pruning drops conditions and calls without effects, takes the branch of an `if` that is left when
the other one is impossible, and may drop all that follows an `if`. Nobody sees the difference who
looks at effects only, as long as what is taken for impossible is so: an execution that ends at no
`impossible` keeps its effects and its outcome.

* `effects`: the observations of an execution that are effects,
* `Interpretation.SeesEffects`: what conditions and calls mean depends on earlier effects only,
* `RightVerdicts`: the statements that pruning takes for impossible are so,
* `runBody_congr`: executions with the same effects before them do not differ,
* `prune_keeps_effects`: what pruning keeps.
-/

namespace DependentCore

universe u

variable {ρ : Type u}

/-! ## Effects of executions -/

/-- The condition or call that is observed. -/
def Observation.term {p : Phase} : Observation p ρ → Term p
  | .decided cond _ => cond
  | .called x _ => x

/-- The effects among the observations that were made. -/
def effects (seen : List (Observation .checked ρ)) : List (Observation .checked ρ) :=
  seen.filter (·.term.hasEffect)

@[simp]
theorem effects_append (before after : List (Observation .checked ρ)) :
    effects (before ++ after) = effects before ++ effects after :=
  List.filter_append ..

theorem effects_append_congr {history history' : List (Observation .checked ρ)}
    (h : effects history = effects history') (seen : List (Observation .checked ρ)) :
    effects (history ++ seen) = effects (history' ++ seen) := by
  rw [effects_append, effects_append, h]

theorem effects_singleton {o : Observation .checked ρ} (h : o.term.hasEffect = false) :
    effects [o] = [] := by
  simp [effects, h]

/-- What a condition evaluates to and what a call answers depends on the effects before it. -/
def Interpretation.SeesEffects (I : Interpretation .checked ρ) : Prop :=
  ∀ history history', effects history = effects history' →
    I.decide history = I.decide history' ∧ I.answer history = I.answer history'

/-- The interpretation that asks functions of the effects so far, unless a condition is literal. -/
def Interpretation.ofEffects (decide : List (Observation .checked ρ) → Checked → Bool)
    (answer : List (Observation .checked ρ) → Checked → ρ) : Interpretation .checked ρ where
  decide history cond := cond.isLit true || (!cond.isLit false && decide (effects history) cond)
  answer history x := answer (effects history) x
  decide_lit history cond b h := by
    unfold Term.isLit at h ⊢
    split at h
    · cases b <;> simp_all
    · cases h

theorem Interpretation.seesEffects_ofEffects
    (decide : List (Observation .checked ρ) → Checked → Bool)
    (answer : List (Observation .checked ρ) → Checked → ρ) :
    (Interpretation.ofEffects decide answer).SeesEffects := by
  intro history history' h
  simp only [Interpretation.ofEffects, h, and_self]

/-- Two executions with the same effects that stop at the same place, or both at none. -/
structure Run.SameEffects (r r' : Run .checked ρ) : Prop where
  seen : effects r.seen = effects r'.seen
  exit : r.exit = r'.exit

namespace Run

variable {r r' : Run .checked ρ} {next next' : List (Observation .checked ρ) → Run .checked ρ}

theorem SameEffects.refl (r : Run .checked ρ) : r.SameEffects r :=
  ⟨rfl, rfl⟩

theorem SameEffects.after {before before' : List (Observation .checked ρ)} (h : r.SameEffects r')
    (hbefore : effects before = effects before') :
    (r.after before).SameEffects (r'.after before') where
  seen := by simp [Run.after, hbefore, h.seen]
  exit := h.exit

/-- Executions stay alike if they go on alike. -/
theorem SameEffects.andThen (h : r.SameEffects r')
    (hnext : r'.exit = none → (next r.seen).SameEffects (next' r'.seen)) :
    (r.andThen next).SameEffects (r'.andThen next') := by
  cases hexit : r'.exit with
  | some e => rwa [andThen_of_exit (h.exit.trans hexit), andThen_of_exit hexit]
  | none =>
    rw [andThen_of_passed (h.exit.trans hexit), andThen_of_passed hexit]
    exact (hnext hexit).after h.seen

/-- If an execution that goes on ends at no `impossible`, neither does its first part. -/
theorem not_isImpossible_of_andThen (h : ¬(r.andThen next).ending.IsImpossible) :
    ¬r.ending.IsImpossible := by
  cases hexit : r.exit with
  | some e => rwa [andThen_of_exit hexit] at h
  | none =>
    rw [ending_eq_passed.mpr hexit]
    exact Ending.not_isImpossible_passed

end Run

section
variable {I : Interpretation .checked ρ}

mutual

theorem Stmt.run_congr (hI : I.SeesEffects) :
    ∀ {history history' : List (Observation .checked ρ)} (s : Stmt .checked),
      effects history = effects history' → s.run I history = s.run I history'
  | history, history', .call _ x, h => by
    simp only [Stmt.run, (hI history history' h).2]
  | history, history', .ifThen _ cond yes, h => by
    have hyes := runBody_congr hI yes (effects_append_congr h [.decided cond true])
    simp only [Stmt.run, (hI history history' h).1, hyes]
  | history, history', .ifElse _ cond yes no, h => by
    have hyes := runBody_congr hI yes (effects_append_congr h [.decided cond true])
    have hno := runBody_congr hI no (effects_append_congr h [.decided cond false])
    simp only [Stmt.run, (hI history history' h).1, hyes, hno]
  | _, _, .ret _ _, _ | _, _, .retUnit _, _ | _, _, .impossible _, _ | _, _, .impossibleBy _ _, _ =>
    rfl

/-- The execution of a body depends on the effects before it only. -/
theorem runBody_congr (hI : I.SeesEffects) :
    ∀ {history history' : List (Observation .checked ρ)} (b : Body .checked),
      effects history = effects history' → runBody I history b = runBody I history' b
  | _, _, [], _ => rfl
  | _, _, s :: rest, h => by
    simp only [runBody, Stmt.run_congr hI s h,
      fun seen => runBody_congr hI rest (effects_append_congr h seen)]

end

/-- A condition without effects makes no difference to what comes after it. -/
theorem runBody_sameEffects_decided (hI : I.SeesEffects) {cond : Checked}
    (heffect : cond.hasEffect = false) (outcome : Bool) (history : List (Observation .checked ρ))
    (b : Body .checked) :
    (runBody I history b).SameEffects
      ((runBody I (history ++ [.decided cond outcome]) b).after [.decided cond outcome]) := by
  have hnone : effects [(.decided cond outcome : Observation .checked ρ)] = [] :=
    effects_singleton heffect
  have hsame : runBody I history b = runBody I (history ++ [.decided cond outcome]) b := by
    refine runBody_congr hI b ?_
    rw [effects_append, hnone, List.append_nil]
  rw [← hsame]
  refine ⟨?_, rfl⟩
  show effects (runBody I history b).seen
    = effects ([.decided cond outcome] ++ (runBody I history b).seen)
  rw [effects_append, hnone, List.nil_append]

end

/-! ## Verdicts -/

/-- A body is reported impossible only if all paths through it that obey literal conditions end at
an `impossible`. -/
def RightVerdict (b : Body .checked) : Prop :=
  endsImpossible b → ∀ events ending, ObeysLiterals events → BodyPath b events ending →
    ending.IsImpossible

/-- The bodies whose impossibility decides what becomes of a statement in front of `rest`: the
branches of an `if`, and without an else what follows it. -/
def Stmt.alternatives (rest : Body .checked) : Stmt .checked → List (Body .checked)
  | .ifThen _ _ yes => [yes, rest]
  | .ifElse _ _ yes no => [yes, no]
  | _ => []

/-- What is reported impossible among the branches and remaining statements of a body is so. -/
def RightVerdicts : Body .checked → Prop
  | [] => True
  | s :: rest => (∀ b ∈ s.alternatives rest, RightVerdict b) ∧ RightVerdicts rest

/-- No execution of such a body that is reported impossible ends otherwise. -/
theorem RightVerdict.isImpossible {b : Body .checked} (hb : RightVerdict b)
    (hends : endsImpossible b) (I : Interpretation .checked ρ)
    (history : List (Observation .checked ρ)) :
    (runBody I history b).ending.IsImpossible :=
  hb hends _ _ (runBody_obeysLiterals I history b) (runBody_path I history b)

/-! ## Pruning -/

theorem Term.hasEffect_of_isLit {t : Checked} {b : Bool} (h : t.isLit b) : t.hasEffect = false := by
  unfold Term.isLit at h
  split at h
  · rfl
  · cases h

section
variable {I : Interpretation .checked ρ} {history : List (Observation .checked ρ)} {cond : Checked}
  {yes rest spliced : Body .checked} {no : Option (Body .checked)} (m : Unit)

/-- An `if` without an else is executed like one with an empty else. -/
theorem Stmt.run_ifThen :
    (Stmt.ifThen m cond yes).run I history = (Stmt.ifElse m cond yes []).run I history :=
  rfl

variable {m}

theorem Stmt.run_ifElse_of_true (h : I.decide history cond = true) (no : Body .checked) :
    (Stmt.ifElse m cond yes no).run I history
      = (runBody I (history ++ [.decided cond true]) yes).after [.decided cond true] := by
  rw [Stmt.run, if_pos h]

theorem Stmt.run_ifElse_of_false (h : I.decide history cond = false) (no : Body .checked) :
    (Stmt.ifElse m cond yes no).run I history
      = (runBody I (history ++ [.decided cond false]) no).after [.decided cond false] := by
  rw [Stmt.run, if_neg (ne_true_of_eq_false h)]

/-- An `if` is replaced by a branch that has the same effects, unless it ends at an `impossible`. -/
theorem PrunesIf.sameEffects (hI : I.SeesEffects)
    (hif : PrunesIf cond yes rest no spliced false) (hyes : RightVerdict yes)
    (hno : RightVerdict (no.getD []))
    (hrun : ¬((Stmt.ifElse m cond yes (no.getD [])).run I history).ending.IsImpossible) :
    (runBody I history spliced).SameEffects
      ((Stmt.ifElse m cond yes (no.getD [])).run I history) := by
  cases hif with
  | literalTrue htrue =>
    rw [Stmt.run_ifElse_of_true (I.decide_lit history cond true htrue)]
    exact runBody_sameEffects_decided hI (Term.hasEffect_of_isLit htrue) true history yes
  | literalFalse _ hfalse =>
    rw [Stmt.run_ifElse_of_false (I.decide_lit history cond false hfalse)]
    exact runBody_sameEffects_decided hI (Term.hasEffect_of_isLit hfalse) false history _
  | second _ heffect hends =>
    cases hcond : I.decide history cond with
    | true =>
      rw [Stmt.run_ifElse_of_true hcond] at hrun
      exact absurd (hyes.isImpossible hends I _) hrun
    | false =>
      rw [Stmt.run_ifElse_of_false hcond]
      exact runBody_sameEffects_decided hI heffect false history _
  | first _ heffect hends =>
    cases hcond : I.decide history cond with
    | true =>
      rw [Stmt.run_ifElse_of_true hcond]
      exact runBody_sameEffects_decided hI heffect true history yes
    | false =>
      rw [Stmt.run_ifElse_of_false hcond] at hrun
      exact absurd (hno.isImpossible hends I _) hrun

/-- If what follows an `if` without an else is impossible, an execution that ends at no `impossible`
takes the branch and stops there. -/
theorem PrunesIf.sameEffects_take (hI : I.SeesEffects)
    (hif : PrunesIf cond yes rest none spliced true) (hrest : RightVerdict rest)
    (hrun : ¬(runBody I history (.ifThen m cond yes :: rest)).ending.IsImpossible) :
    (runBody I history spliced).SameEffects (runBody I history (.ifThen m cond yes :: rest)) := by
  obtain - | - | - | - | ⟨-, heffect, hends⟩ := hif
  rw [runBody, Stmt.run_ifThen] at hrun ⊢
  cases hexit : ((Stmt.ifElse m cond yes []).run I history).exit with
  | none =>
    rw [Run.andThen_of_passed hexit] at hrun
    exact absurd (hrest.isImpossible hends I _) hrun
  | some e =>
    rw [Run.andThen_of_exit hexit]
    cases hcond : I.decide history cond with
    | true =>
      rw [Stmt.run_ifElse_of_true hcond]
      exact runBody_sameEffects_decided hI heffect true history yes
    | false =>
      rw [Stmt.run_ifElse_of_false hcond] at hexit
      cases hexit

/-- Only an `if` without an else is replaced along with what follows it. -/
theorem Stmt.prunesIf_of_prune?_drop {s : Stmt .checked}
    (hprune : s.prune? rest = some (spliced, true)) :
    ∃ m cond yes, s = .ifThen m cond yes ∧ PrunesIf cond yes rest none spliced true := by
  cases s with
  | call m x =>
    rw [Stmt.prune?] at hprune
    split at hprune <;> cases hprune
  | ifThen m cond yes => exact ⟨m, cond, yes, rfl, prunesIf_of_outcomeOfIf? hprune⟩
  | ifElse m cond yes no =>
    have hif : PrunesIf cond yes rest (some no) spliced true := prunesIf_of_outcomeOfIf? hprune
    cases hif
  | _ => cases hprune

/-- What a statement is replaced by has the same effects, unless it ends at an `impossible`. -/
theorem Stmt.sameEffects_of_prune? (hI : I.SeesEffects) {s : Stmt .checked}
    (hprune : s.prune? rest = some (spliced, false))
    (hright : ∀ b ∈ s.alternatives rest, RightVerdict b)
    (hrun : ¬(s.run I history).ending.IsImpossible) :
    (runBody I history spliced).SameEffects (s.run I history) := by
  cases s with
  | call m x =>
    rw [Stmt.prune?] at hprune
    split at hprune
    · cases hprune
    · next heffect =>
      cases hprune
      have hnone : effects [.called x (I.answer history x)] = [] :=
        effects_singleton (eq_false_of_ne_true heffect)
      exact ⟨hnone.symm, rfl⟩
  | ifThen m cond yes =>
    have hempty : RightVerdict [] := nofun
    have hif : PrunesIf cond yes rest none spliced false := prunesIf_of_outcomeOfIf? hprune
    exact hif.sameEffects (m := m) hI (hright yes List.mem_cons_self) hempty hrun
  | ifElse m cond yes no =>
    have hif : PrunesIf cond yes rest (some no) spliced false := prunesIf_of_outcomeOfIf? hprune
    exact hif.sameEffects hI (hright yes List.mem_cons_self)
      (hright no (List.mem_cons_of_mem _ List.mem_cons_self)) hrun
  | _ => cases hprune

end

theorem runBody_pruneStmts {I : Interpretation .checked ρ} (hI : I.SeesEffects) :
    ∀ {history : List (Observation .checked ρ)} (b : Body .checked), RightVerdicts b →
      ¬(runBody I history b).ending.IsImpossible →
      (runBody I history (pruneStmts b).result).SameEffects (runBody I history b)
  | _, [], _, _ => .refl _
  | history, s :: rest, ⟨hs, hrest⟩, hrun => by
    have hfirst : ¬(s.run I history).ending.IsImpossible := Run.not_isImpossible_of_andThen hrun
    -- the rest is pruned alike, whatever the statement in front of it is replaced by
    have hnext {seen : List (Observation .checked ρ)}
        (hseen : effects seen = effects (s.run I history).seen)
        (hexit : (s.run I history).exit = none) :
        (runBody I (history ++ seen) (pruneStmts rest).result).SameEffects
          (runBody I (history ++ (s.run I history).seen) rest) := by
      rw [runBody, Run.andThen_of_passed hexit] at hrun
      have hsame : effects (history ++ seen) = effects (history ++ (s.run I history).seen) := by
        rw [effects_append, effects_append, hseen]
      rw [runBody_congr hI _ hsame]
      exact runBody_pruneStmts hI rest hrest hrun
    rw [pruneStmts]
    split
    · next spliced hprune =>
      obtain ⟨m, cond, yes, rfl, hif⟩ := Stmt.prunesIf_of_prune?_drop hprune
      exact PrunesIf.sameEffects_take hI hif
        (hs rest (List.mem_cons_of_mem _ List.mem_cons_self)) hrun
    · next spliced hprune =>
      have hspliced := Stmt.sameEffects_of_prune? hI hprune hs hfirst
      rw [runBody_append, runBody]
      exact hspliced.andThen (hnext hspliced.seen)
    · rw [runBody, runBody]
      exact (Run.SameEffects.refl _).andThen (hnext rfl)

/-- Pruning keeps what an execution does, as long as nothing is taken for impossible that is not: if
what conditions and calls mean depends on earlier effects only, then an execution that ends at no
`impossible` has the same effects in the same order, and control goes on behind the body or stops at
the same `return`. -/
theorem prune_keeps_effects {I : Interpretation .checked ρ} (hI : I.SeesEffects)
    (history : List (Observation .checked ρ)) (b : Body .checked) (hverdicts : RightVerdicts b)
    (hrun : ¬(runBody I history b).ending.IsImpossible) :
    effects (runBody I history (pruneStmts b).result).seen = effects (runBody I history b).seen ∧
      (runBody I history (pruneStmts b).result).exit = (runBody I history b).exit := by
  obtain ⟨hseen, hexit⟩ := runBody_pruneStmts hI b hverdicts hrun
  exact ⟨hseen, hexit⟩

/-- In `if b { impossible; } else { f(); } if c { return; } impossible;` both conditions are
dropped: `b` since its branch is impossible, and `c` since what follows is. What is left is
`f(); return;`. If `b` is false, and `c` holds after one effect, the execution before and after
pruning calls `f` and returns. -/
theorem prune_keeps_effects_of_guarded_call :
    let var (name : String) : Checked := Checked.term Checked.bool (.var ⟨name, 0⟩)
    let unit : Checked := Checked.type (.atom .unit)
    let f : Checked := Checked.term (Checked.pi (.returns .yes unit)) (.atom (.global ⟨[], "f"⟩))
    let call : Checked := Checked.term unit (.app f [])
    let body : Body .checked := [.ifElse () (var "b") [.impossible ()] [.call () call],
      .ifThen () (var "c") [.retUnit ()], .impossible ()]
    let I : Interpretation .checked Unit := .ofEffects
      (fun seen cond => cond.occursFree ⟨"c", 0⟩ && seen.length == 1) fun _ _ => ()
    I.SeesEffects ∧ RightVerdicts body ∧ ¬(runBody I [] body).ending.IsImpossible ∧
      (pruneStmts body).result = [.call () call, .retUnit ()] ∧
      effects (runBody I [] body).seen = [.called call ()] ∧
      (runBody I [] body).exit = some (.returned () none) ∧
      effects (runBody I [] (pruneStmts body).result).seen = effects (runBody I [] body).seen ∧
      (runBody I [] (pruneStmts body).result).exit = (runBody I [] body).exit := by
  intro var unit f call body I
  have hI : I.SeesEffects := Interpretation.seesEffects_ofEffects _ _
  have himpossible : RightVerdict [.impossible ()] := by
    rintro - events ending - hpath
    cases hpath with
    | stop hs =>
      cases hs
      exact ⟨none, rfl⟩
    | next hs => cases hs
  have hverdicts : RightVerdicts body := by
    refine ⟨?_, ?_, nofun, trivial⟩
    · exact List.forall_mem_cons.mpr ⟨himpossible, List.forall_mem_singleton.mpr nofun⟩
    · exact List.forall_mem_cons.mpr ⟨nofun, List.forall_mem_singleton.mpr himpossible⟩
  have hrun : ¬(runBody I [] body).ending.IsImpossible := Ending.not_isImpossible_returned none
  exact ⟨hI, hverdicts, hrun, rfl, rfl, rfl, prune_keeps_effects hI [] body hverdicts hrun⟩

end DependentCore
