import DependentCore.Flow.Reachability

/-!
# Removal of unreachable code

One pass of `dropUnreachable` is enough. It removes branches that a literal condition does not
select, and this changes which statements are terminators: an `if true` loses its else and is none
any more, an `if false` with an empty branch is none either. But the pass looks for terminators in
what it has left of the statements, so nothing that it does inside of a statement exposes a new one.

* `Stmt.IsTidy`, `IsTidyBody`: there is nothing to remove,
* `isTidyBody_dropUnreachable`: what a pass leaves is tidy,
* `IsTidyBody.dropUnreachable`: tidy bodies are left as they are, and no change is reported,
* `dropUnreachable_unchanged`: if no change is reported, there is none.
-/

namespace DependentCore

variable {p : Phase}

mutual

/-- A branch that a literal condition does not select is not there, and the branches are tidy. -/
def Stmt.IsTidy : Stmt p → Prop
  | .ifThen _ cond yes => (cond.isLit false → yes = []) ∧ IsTidyBody yes
  | .ifElse _ cond yes no =>
    ¬cond.isLit true ∧ (cond.isLit false → yes = []) ∧ IsTidyBody yes ∧ IsTidyBody no
  | .call _ _ | .ret _ _ | .retUnit _ | .impossible _ | .impossibleBy _ _ => True

/-- All statements are tidy, and a terminator is the last of them. -/
def IsTidyBody : List (Stmt p) → Prop
  | [] => True
  | s :: rest => s.IsTidy ∧ (s.isTerminator → rest = []) ∧ IsTidyBody rest

end

/-! ## What a pass leaves -/

theorem Term.isLit_false_of_isLit_true {t : Term p} (h : t.isLit true) : t.isLit false = false := by
  unfold Term.isLit at h ⊢
  split at h
  · next c =>
    rw [beq_iff_eq] at h
    rw [h]
    rfl
  · cases h

mutual

theorem Stmt.isTidy_dropUnreachable : ∀ s : Stmt p, s.dropUnreachable.result.IsTidy
  | .ifThen m cond yes => by
    rw [Stmt.dropUnreachable]
    split
    · exact ⟨fun _ => rfl, trivial⟩
    · next hfalse => exact ⟨fun h => absurd h hfalse, isTidyBody_dropUnreachable yes⟩
  | .ifElse m cond yes no => by
    rw [Stmt.dropUnreachable]
    split
    · -- an `if true` without its else is an `ifThen`, the condition of which is not `false`
      next htrue =>
      refine ⟨fun hfalse => ?_, isTidyBody_dropUnreachable yes⟩
      rw [Term.isLit_false_of_isLit_true htrue] at hfalse
      cases hfalse
    · next htrue =>
      split
      · exact ⟨htrue, fun _ => rfl, trivial, isTidyBody_dropUnreachable no⟩
      · next hfalse =>
        exact ⟨htrue, fun h => absurd h hfalse, isTidyBody_dropUnreachable yes,
          isTidyBody_dropUnreachable no⟩
  | .call _ _ | .ret _ _ | .retUnit _ | .impossible _ | .impossibleBy _ _ => trivial

/-- Terminators are looked for among the statements that are left, so no other one comes up. -/
theorem isTidyBody_dropUnreachable : ∀ b : List (Stmt p), IsTidyBody (dropUnreachable b).result
  | [] => trivial
  | s :: rest => by
    rw [dropUnreachable]
    split
    · exact ⟨s.isTidy_dropUnreachable, fun _ => rfl, trivial⟩
    · next hterm =>
      exact ⟨s.isTidy_dropUnreachable, fun h => absurd h hterm, isTidyBody_dropUnreachable rest⟩

end

/-! ## What is left as it is -/

mutual

theorem Stmt.IsTidy.dropUnreachable : ∀ {s : Stmt p}, s.IsTidy → s.dropUnreachable = ⟨s, false⟩
  | .ifThen m cond yes, ⟨hempty, hyes⟩ => by
    rw [Stmt.dropUnreachable]
    split
    · next hfalse =>
      cases hempty hfalse
      rfl
    · rw [IsTidyBody.dropUnreachable hyes]
  | .ifElse m cond yes no, ⟨htrue, hempty, hyes, hno⟩ => by
    rw [Stmt.dropUnreachable, if_neg htrue, IsTidyBody.dropUnreachable hno]
    split
    · next hfalse =>
      cases hempty hfalse
      rfl
    · rw [IsTidyBody.dropUnreachable hyes]
      rfl
  | .call _ _, _ | .ret _ _, _ | .retUnit _, _ | .impossible _, _ | .impossibleBy _ _, _ => rfl

theorem IsTidyBody.dropUnreachable : ∀ {b : List (Stmt p)}, IsTidyBody b →
    dropUnreachable b = ⟨b, false⟩
  | [], _ => rfl
  | s :: rest, ⟨hs, hlast, hrest⟩ => by
    rw [DependentCore.dropUnreachable, Stmt.IsTidy.dropUnreachable hs]
    split
    · next hterm =>
      cases hlast hterm
      rfl
    · rw [IsTidyBody.dropUnreachable hrest]
      rfl

end

mutual

theorem Stmt.dropUnreachable_unchanged : ∀ {s : Stmt p},
    s.dropUnreachable.changed = false → s.dropUnreachable.result = s
  | .ifThen m cond yes, h => by
    rw [Stmt.dropUnreachable] at h ⊢
    split at h
    · next hb =>
      rw [if_pos hb]
      cases yes with
      | nil => rfl
      | cons => cases h
    · next hb =>
      rw [if_neg hb]
      exact congrArg (Stmt.ifThen m cond) (dropUnreachable_unchanged h)
  | .ifElse m cond yes no, h => by
    rw [Stmt.dropUnreachable] at h ⊢
    split at h
    · -- to take an else away is always a change
      cases h
    · next hb =>
      rw [if_neg hb]
      split at h
      · next hb' =>
        rw [if_pos hb']
        simp only [Bool.or_eq_false_iff] at h
        cases yes with
        | nil => exact congrArg (Stmt.ifElse m cond []) (dropUnreachable_unchanged h.2)
        | cons => cases h.1
      · next hb' =>
        rw [if_neg hb']
        simp only [Bool.or_eq_false_iff] at h
        dsimp only
        rw [dropUnreachable_unchanged h.1, dropUnreachable_unchanged h.2]
  | .call _ _, _ | .ret _ _, _ | .retUnit _, _ | .impossible _, _ | .impossibleBy _ _, _ => rfl

theorem dropUnreachable_unchanged : ∀ {b : Body p}, (dropUnreachable b).changed = false →
    (dropUnreachable b).result = b
  | [], _ => rfl
  | s :: rest, h => by
    rw [dropUnreachable] at h ⊢
    dsimp only at h ⊢
    split at h
    · next hs =>
      rw [if_pos hs]
      simp only [Bool.or_eq_false_iff] at h
      cases rest with
      | nil => rw [Stmt.dropUnreachable_unchanged h.1]
      | cons => cases h.2
    · next hs =>
      rw [if_neg hs]
      simp only [Bool.or_eq_false_iff] at h
      rw [Stmt.dropUnreachable_unchanged h.1, dropUnreachable_unchanged h.2]

end

/-- The removal of unreachable code reports truthfully, and once is enough: no change is reported
just if the body is left as it is, which is so just if there is nothing to remove; and a second pass
changes nothing and says so. -/
theorem dropUnreachable_settles (b : Body p) :
    ((dropUnreachable b).changed = false ↔ (dropUnreachable b).result = b) ∧
    ((dropUnreachable b).changed = false ↔ IsTidyBody b) ∧
    dropUnreachable (dropUnreachable b).result = ⟨(dropUnreachable b).result, false⟩ := by
  have htidy := isTidyBody_dropUnreachable b
  have hsettled : IsTidyBody b → (dropUnreachable b).changed = false := by
    intro hb
    rw [hb.dropUnreachable]
  refine ⟨⟨dropUnreachable_unchanged, fun hsame => ?_⟩, ⟨fun h => ?_, hsettled⟩,
    htidy.dropUnreachable⟩
  · rw [hsame] at htidy
    exact hsettled htidy
  · rw [dropUnreachable_unchanged h] at htidy
    exact htidy

end DependentCore
