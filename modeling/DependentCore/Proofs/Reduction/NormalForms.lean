import DependentCore.Proofs.Flow.Removal
import DependentCore.Proofs.Reduction.Rules
import DependentCore.Typing.Rules
import DependentCore.Syntax.Equality

/-!
# Normal forms

What a normal form is, said without the passes that compute it: no step is possible at the root of
any part of it, nothing follows a statement that ends a body, and no statement can be deleted or
replaced by one of its branches. Sorts are not looked at.

* `Term.IsNormal`, `IsNormalBody`: normal terms and bodies,
* `Rewrites.eq_of_unchanged`: a pass that reports no change has made none,
* `Rewrites.isNormal`: the result of a pass is normal,
* `Term.IsNormal.leaves`, `IsNormalBody.leaves`: where definitions are not unfolded, a normal form
  is left as it is,
* `normalize_normal_forms`: so it is with whatever normalisation returns.
-/

namespace DependentCore

/-! ## Definitions -/

/-- A statement can be deleted, or replaced by one of its branches, in front of the statements
`rest`. -/
inductive Prunable (rest : Body .checked) : Stmt .checked → Prop where
  | call {m x} : x.hasEffect = false → Prunable rest (.call m x)
  | literalThen {m b cond yes} : cond.isLit b → Prunable rest (.ifThen m cond yes)
  | literalElse {m b cond yes no} : cond.isLit b → Prunable rest (.ifElse m cond yes no)
  /-- The branch cannot be taken. -/
  | skip {m cond yes} : cond.hasEffect = false → endsImpossible yes →
    Prunable rest (.ifThen m cond yes)
  /-- The branch must be taken, as what follows cannot be reached. -/
  | take {m cond yes} : cond.hasEffect = false → endsImpossible rest →
    Prunable rest (.ifThen m cond yes)
  | second {m cond yes no} : cond.hasEffect = false → endsImpossible yes →
    Prunable rest (.ifElse m cond yes no)
  | first {m cond yes no} : cond.hasEffect = false → endsImpossible no →
    Prunable rest (.ifElse m cond yes no)

mutual

/-- No part of a term can be reduced. -/
def Term.IsNormal (env : Env) : Checked → Prop
  | .mk note form => (∀ u, ¬Term.Steps env (.mk note form) u) ∧ form.IsNormal env

/-- No part of a form can be reduced. -/
def Form.IsNormal (env : Env) : Form .checked → Prop
  | .atom _ | .var _ => True
  | .unary _ x => x.IsNormal env
  | .binary _ x y => x.IsNormal env ∧ y.IsNormal env
  | .app f args => f.IsNormal env ∧ IsNormalList env args
  | .list xs => IsNormalList env xs
  | .bind _ t => t.IsNormal env

/-- No part of a telescope can be reduced. -/
def Tele.IsNormal (env : Env) {k : Binder} : Tele .checked k → Prop
  | .fields => True
  | .returns _ ret => ret.IsNormal env
  | .runs _ ret body => ret.IsNormal env ∧ IsNormalBody env body
  | .arg _ _ ty _ rest => ty.IsNormal env ∧ rest.IsNormal env

/-- No part of a statement can be reduced. -/
def Stmt.IsNormal (env : Env) : Stmt .checked → Prop
  | .call _ x | .ret _ x | .impossibleBy _ x => x.IsNormal env
  | .ifThen _ cond yes => cond.IsNormal env ∧ IsNormalBody env yes
  | .ifElse _ cond yes no => cond.IsNormal env ∧ IsNormalBody env yes ∧ IsNormalBody env no
  | .retUnit _ | .impossible _ => True

/-- No part of the terms of a list can be reduced. -/
def IsNormalList (env : Env) : List Checked → Prop
  | [] => True
  | x :: xs => x.IsNormal env ∧ IsNormalList env xs

/-- No part of a body can be reduced; it ends at the first terminator, and all its statements are
needed. -/
def IsNormalBody (env : Env) : Body .checked → Prop
  | [] => True
  | s :: rest =>
    s.IsNormal env ∧ (s.isTerminator → rest = []) ∧ ¬Prunable rest s ∧ IsNormalBody env rest

end

variable {env : Env}

/-! ## Steps and pruning -/

/-- The steps at the root are those that beta reduction and folding take. -/
theorem Term.Steps.beta?_or_fold? {t u : Checked} (h : Term.Steps env t u) :
    t.beta? = some u ∨ t.fold? env = some u := by
  cases h with
  | because => exact .inl rfl
  | @supply note fnote f args hne harity heffect =>
    left
    cases args with
    | nil => exact absurd rfl hne
    | cons x xs => simp [Term.beta?, betaApply?, harity, heffect]
  | ret hbody => exact .inl (by simp [Term.beta?, betaApply?, hbody])
  | not | logic => exact .inr rfl
  | compare ho => exact .inr (by simp [Term.fold?, ho])
  | arith hn => exact .inr (by simp [Term.fold?, hn])
  | member hu | element hu => exact .inr hu
  | slice hslice hxs => exact .inr (by simp [Term.fold?, hslice, hxs])

theorem Stmt.prune?_eq_none_iff {s : Stmt .checked} {rest : Body .checked} :
    s.prune? rest = none ↔ ¬Prunable rest s := by
  constructor
  · intro hnone h
    cases h with
    | call hx => simp [Stmt.prune?, hx] at hnone
    | @literalThen _ b | @literalElse _ b =>
      cases b <;> grind [Stmt.prune?, outcomeOfIf?]
    | skip | take | second | first => grind [Stmt.prune?, outcomeOfIf?]
  · intro h
    cases s with
    | call m x =>
      cases hx : x.hasEffect with
      | true => simp [Stmt.prune?, hx]
      | false => exact absurd (.call hx) h
    | ifThen m cond yes =>
      have htrue : cond.isLit true = false := Bool.eq_false_iff.mpr fun hb => h (.literalThen hb)
      have hfalse : cond.isLit false = false := Bool.eq_false_iff.mpr fun hb => h (.literalThen hb)
      cases hx : cond.hasEffect with
      | true => simp [Stmt.prune?, outcomeOfIf?, htrue, hfalse, hx]
      | false =>
        have hyes : DependentCore.endsImpossible yes = false :=
          Bool.eq_false_iff.mpr fun hi => h (.skip hx hi)
        have hrest : DependentCore.endsImpossible rest = false :=
          Bool.eq_false_iff.mpr fun hi => h (.take hx hi)
        simp [Stmt.prune?, outcomeOfIf?, htrue, hfalse, hx, hyes, hrest]
    | ifElse m cond yes no =>
      have htrue : cond.isLit true = false := Bool.eq_false_iff.mpr fun hb => h (.literalElse hb)
      have hfalse : cond.isLit false = false := Bool.eq_false_iff.mpr fun hb => h (.literalElse hb)
      cases hx : cond.hasEffect with
      | true => simp [Stmt.prune?, outcomeOfIf?, htrue, hfalse, hx]
      | false =>
        have hyes : DependentCore.endsImpossible yes = false :=
          Bool.eq_false_iff.mpr fun hi => h (.second hx hi)
        have hno : DependentCore.endsImpossible no = false :=
          Bool.eq_false_iff.mpr fun hi => h (.first hx hi)
        simp [Stmt.prune?, outcomeOfIf?, htrue, hfalse, hx, hyes, hno]
    | ret | retUnit | impossible | impossibleBy => rfl

/-- Apart from statements with a literal condition, only terminators stop the pass over a body. -/
theorem Stmt.isTerminator_of_stops {s : Stmt .checked} {rest : Body .checked}
    (h : ¬Prunable rest s) (hs : s.stops) : s.isTerminator := by
  cases s with
  | ifThen m cond yes =>
    simp only [Stmt.stops, Bool.and_eq_true] at hs
    exact absurd (.literalThen hs.1) h
  | ifElse m cond yes no =>
    have htrue : cond.isLit true = false := Bool.eq_false_iff.mpr fun hb => h (.literalElse hb)
    have hfalse : cond.isLit false = false := Bool.eq_false_iff.mpr fun hb => h (.literalElse hb)
    simpa [Stmt.stops, htrue, hfalse] using hs
  | call | ret | retUnit | impossible | impossibleBy => exact hs

/-! ## Passes that report no change -/

theorem Rewritten.ofStep_unchanged {α : Type} {a : α} {step : Option α}
    (h : (Rewritten.ofStep a step).changed = false) :
    step = none ∧ (Rewritten.ofStep a step).result = a := by
  cases step with
  | none => exact ⟨rfl, rfl⟩
  | some b => cases h

theorem Term.reduce_unchanged {t : Checked} (h : (t.reduce env).changed = false) :
    (∀ u, ¬Term.Steps env t u) ∧ (t.reduce env).result = t := by
  simp only [Term.reduce, Bool.or_eq_false_iff] at h
  obtain ⟨hbeta, hsame⟩ := Rewritten.ofStep_unchanged h.1
  obtain ⟨hfold, hsame'⟩ := Rewritten.ofStep_unchanged h.2
  rw [hsame] at hfold
  refine ⟨fun u hu => ?_, hsame'.trans hsame⟩
  rcases hu.beta?_or_fold? with hu | hu
  · rw [hbeta] at hu
    cases hu
  · rw [hfold] at hu
    cases hu

theorem pruneStmts_unchanged : ∀ {b : Body .checked}, (pruneStmts b).changed = false →
    (pruneStmts b).result = b
  | [], _ => rfl
  | s :: rest, h => by
    rw [pruneStmts] at h ⊢
    cases hs : s.prune? rest with
    | none =>
      rw [hs] at h
      exact congrArg (s :: ·) (pruneStmts_unchanged (b := rest) h)
    | some spliced =>
      obtain ⟨_, _ | _⟩ := spliced <;> simp [hs] at h

/-- A pass that reports no change has made none. -/
theorem Rewrites.eq_of_unchanged {stack : List GlobalName} {a b : Subject} {c : Bool}
    (h : Rewrites env stack a b c) (hc : c = false) : a = b := by
  induction h with
  | again | unfold | bodyAgain => cases hc
  | done _ _ hflags ihparts ihcall =>
    simp only [Bool.or_eq_false_iff] at hflags
    obtain ⟨⟨hc₁, hreduce⟩, hc₂⟩ := hflags
    cases ihparts hc₁
    cases ihcall hc₂
    rw [(Term.reduce_unchanged hreduce).2]
  | bodyDone _ hflags ih =>
    simp only [Bool.or_eq_false_iff] at hflags
    obtain ⟨⟨hdrop, hc⟩, hprune⟩ := hflags
    cases ih hc
    rw [pruneStmts_unchanged hprune, dropUnreachable_unchanged hdrop]
  | atom | var | nil | fields | keep | stmtsNil | retUnit | impossible => rfl
  | unary _ ih | list _ ih | bind _ ih | returns _ ih | stmtsStop _ _ ih | stmtCall _ ih | ret _ ih
  | impossibleBy _ ih =>
    cases ih hc
    rfl
  | binary _ _ ih₁ ih₂ | app _ _ ih₁ ih₂ | cons _ _ ih₁ ih₂ | runs _ _ ih₁ ih₂ | arg _ _ ih₁ ih₂
  | stmtsNext _ _ _ ih₁ ih₂ | ifThen _ _ ih₁ ih₂ =>
    rw [Bool.or_eq_false_iff] at hc
    cases ih₁ hc.1
    cases ih₂ hc.2
    rfl
  | ifElse _ _ _ ih₁ ih₂ ih₃ =>
    simp only [Bool.or_eq_false_iff] at hc
    cases ih₁ hc.1.1
    cases ih₂ hc.1.2
    cases ih₃ hc.2
    rfl

/-! ## Results are normal -/

/-- The statements of a body are normal, up to one that stops the pass. -/
def IsNormalUpToStop (env : Env) : Body .checked → Prop
  | [] => True
  | s :: rest => s.IsNormal env ∧ (s.stops ∨ IsNormalUpToStop env rest)

/-- What a pass achieves. -/
def Subject.IsNormal (env : Env) : Subject → Prop
  | .term t => t.IsNormal env
  | .parts t => t.form.IsNormal env
  | .list xs => IsNormalList env xs
  | .tele t => t.IsNormal env
  | .call _ => True
  | .body b => IsNormalBody env b
  | .stmts b => IsNormalUpToStop env b
  | .stmt s => s.IsNormal env

/-- If there is nothing to drop and nothing to prune, no statement stops the pass before the last
one. -/
theorem isNormalBody_of_unchanged : ∀ {b : Body .checked}, (dropUnreachable b).changed = false →
    (pruneStmts b).changed = false → IsNormalUpToStop env b → IsNormalBody env b
  | [], _, _, _ => trivial
  | s :: rest, hdrop, hprune, h => by
    have hneeded : ¬Prunable rest s ∧ (pruneStmts rest).changed = false := by
      rw [pruneStmts] at hprune
      cases hs : s.prune? rest with
      | none =>
        rw [hs] at hprune
        exact ⟨Stmt.prune?_eq_none_iff.mp hs, hprune⟩
      | some spliced =>
        obtain ⟨_, _ | _⟩ := spliced <;> simp [hs] at hprune
    rw [dropUnreachable] at hdrop
    dsimp only at hdrop
    split at hdrop
    · simp only [Bool.or_eq_false_iff] at hdrop
      cases rest with
      | nil => exact ⟨h.1, fun _ => rfl, hneeded.1, trivial⟩
      | cons => cases hdrop.2
    · next hterm =>
      simp only [Bool.or_eq_false_iff] at hdrop
      rw [Stmt.dropUnreachable_unchanged hdrop.1] at hterm
      have hrest : IsNormalUpToStop env rest :=
        h.2.resolve_left fun hstops => hterm (Stmt.isTerminator_of_stops hneeded.1 hstops)
      exact ⟨h.1, fun hs => absurd hs hterm, hneeded.1,
        isNormalBody_of_unchanged hdrop.2 hneeded.2 hrest⟩

/-- The result of a pass is normal. -/
theorem Rewrites.isNormal {stack : List GlobalName} {a b : Subject} {c : Bool}
    (h : Rewrites env stack a b c) : b.IsNormal env := by
  induction h with
  | again _ _ _ _ _ _ ih | bodyAgain _ _ _ _ ih => exact ih
  | @done _ _ t₁ _ _ _ hparts hcall hflags ih _ =>
    simp only [Bool.or_eq_false_iff] at hflags
    obtain ⟨⟨-, hreduce⟩, hc₂⟩ := hflags
    obtain ⟨hsteps, hsame⟩ := Term.reduce_unchanged hreduce
    cases hcall.eq_of_unchanged hc₂
    rw [hsame]
    obtain ⟨note, form⟩ := t₁
    exact ⟨hsteps, ih⟩
  | bodyDone hstmts hflags ih =>
    simp only [Bool.or_eq_false_iff] at hflags
    obtain ⟨⟨hdrop, hc⟩, hprune⟩ := hflags
    have hsame := dropUnreachable_unchanged hdrop
    cases hstmts.eq_of_unchanged hc
    rw [pruneStmts_unchanged hprune]
    rw [hsame] at hprune ih ⊢
    exact isNormalBody_of_unchanged hdrop hprune ih
  | atom | var | nil | fields | keep | unfold | stmtsNil | retUnit | impossible => trivial
  | unary _ ih | list _ ih | bind _ ih | returns _ ih | stmtCall _ ih | ret _ ih
  | impossibleBy _ ih => exact ih
  | binary _ _ ih₁ ih₂ | app _ _ ih₁ ih₂ | cons _ _ ih₁ ih₂ | runs _ _ ih₁ ih₂ | arg _ _ ih₁ ih₂
  | ifThen _ _ ih₁ ih₂ => exact ⟨ih₁, ih₂⟩
  | stmtsStop _ hstops ih => exact ⟨ih, .inl hstops⟩
  | stmtsNext _ _ _ ih₁ ih₂ => exact ⟨ih₁, .inr ih₂⟩
  | ifElse _ _ _ ih₁ ih₂ ih₃ => exact ⟨ih₁, ih₂, ih₃⟩

/-! ## Normal forms are left as they are -/

mutual

theorem Stmt.IsNormal.dropUnreachable : ∀ {s : Stmt .checked} {rest : Body .checked},
    s.IsNormal env → ¬Prunable rest s → s.dropUnreachable = ⟨s, false⟩
  | .ifThen m cond yes, _, h, hs => by
    have hfalse : cond.isLit false = false := Bool.eq_false_iff.mpr fun hb => hs (.literalThen hb)
    simp [Stmt.dropUnreachable, hfalse, IsNormalBody.dropUnreachable h.2]
  | .ifElse m cond yes no, _, h, hs => by
    have htrue : cond.isLit true = false := Bool.eq_false_iff.mpr fun hb => hs (.literalElse hb)
    have hfalse : cond.isLit false = false := Bool.eq_false_iff.mpr fun hb => hs (.literalElse hb)
    simp [Stmt.dropUnreachable, htrue, hfalse, IsNormalBody.dropUnreachable h.2.1,
      IsNormalBody.dropUnreachable h.2.2]
  | .call _ _, _, _, _ | .ret _ _, _, _, _ | .retUnit _, _, _, _ | .impossible _, _, _, _
  | .impossibleBy _ _, _, _, _ => rfl

theorem IsNormalBody.dropUnreachable : ∀ {b : Body .checked}, IsNormalBody env b →
    dropUnreachable b = ⟨b, false⟩
  | [], _ => rfl
  | s :: rest, ⟨hs, hend, hneeded, hrest⟩ => by
    rw [DependentCore.dropUnreachable, Stmt.IsNormal.dropUnreachable hs hneeded]
    by_cases hterm : s.isTerminator
    · cases hend hterm
      simp [hterm]
    · simp [hterm, IsNormalBody.dropUnreachable hrest]

end

theorem IsNormalBody.pruneStmts : ∀ {b : Body .checked}, IsNormalBody env b →
    pruneStmts b = ⟨b, false⟩
  | [], _ => rfl
  | s :: rest, ⟨_, _, hneeded, hrest⟩ => by
    rw [DependentCore.pruneStmts, Stmt.prune?_eq_none_iff.mpr hneeded]
    simp only [IsNormalBody.pruneStmts hrest]

/-- The environment with the same globals, in which definitions are not unfolded. -/
def Env.withoutInlining (env : Env) : Env :=
  { env with inlineGlobals := false }

theorem Term.unfolding?_withoutInlining (stack : List GlobalName) (t : Checked) :
    t.unfolding? env.withoutInlining stack = none := by
  unfold Term.unfolding?
  split
  · split
    · simp [Env.withoutInlining]
    · rfl
  · rfl

/-- A pass gives back what it gets, reports no change, and makes no attempt to unfold. -/
def Rewriting.Leaves {α : Type} (m : Rewriting (Rewritten α)) (a : α) : Prop :=
  ∀ attempts, m.run attempts = some (⟨a, false⟩, attempts)

theorem Rewriting.Leaves.pure {α : Type} (a : α) : Leaves (Pure.pure ⟨a, false⟩) a :=
  fun _ => rfl

theorem Rewriting.Leaves.bind {α β : Type} {m : Rewriting (Rewritten α)}
    {f : Rewritten α → Rewriting (Rewritten β)} {a : α} {b : β} (hm : Leaves m a)
    (hf : Leaves (f ⟨a, false⟩) b) : Leaves (m >>= f) b := by
  intro attempts
  rw [StateT.run_bind, hm attempts]
  exact hf attempts

open Rewriting (Leaves)

theorem unfoldCall_leaves {fuel : Nat} (hfuel : 1 ≤ fuel) (stack : List GlobalName) (t : Checked) :
    Leaves (unfoldCall env.withoutInlining fuel stack t) t := by
  obtain ⟨n, rfl⟩ : ∃ n, fuel = n + 1 := ⟨fuel - 1, by omega⟩
  intro attempts
  rw [unfoldCall, Term.unfolding?_withoutInlining]
  rfl

section

variable {stack : List GlobalName}

mutual

/-- A normal term is left as it is. The bound on the fuel leaves room for the passes over the parts
and over lists and bodies between two nodes. -/
theorem Term.IsNormal.leaves : ∀ {t : Checked} {fuel : Nat}, t.IsNormal env → 3 * t.size ≤ fuel →
    Leaves (normalizeTerm env.withoutInlining fuel stack t) t
  | .mk note form, 0, _, hfuel => by simp [Term.size] at hfuel
  | .mk note form, fuel + 1, h, hfuel => by
    rw [Term.size] at hfuel
    have hbeta : Term.beta? (.mk note form) = none :=
      Option.eq_none_iff_forall_not_mem.mpr fun u hu => h.1 u (Term.steps_of_beta? hu)
    have hfold : Term.fold? env.withoutInlining (.mk note form) = none :=
      Option.eq_none_iff_forall_not_mem.mpr fun u hu => h.1 u (Term.steps_of_fold? hu)
    rw [normalizeTerm]
    refine (h.2.leaves note (by omega)).bind ?_
    simp only [hbeta, hfold, Rewritten.ofStep]
    exact (unfoldCall_leaves (by omega) stack _).bind (.pure _)

theorem Form.IsNormal.leaves : ∀ {form : Form .checked} {fuel : Nat}, form.IsNormal env →
    ∀ note, 3 * form.size + 2 ≤ fuel →
      Leaves (normalizeParts env.withoutInlining fuel stack (.mk note form)) (.mk note form)
  | _, 0, _, _, hfuel => by omega
  | .atom _, _ + 1, _, _, _ | .var _, _ + 1, _, _, _ => fun _ => rfl
  | .unary op x, fuel + 1, h, _, hfuel => by
    rw [Form.size] at hfuel
    exact (Term.IsNormal.leaves (t := x) h (by omega)).bind (.pure _)
  | .binary op x y, fuel + 1, h, _, hfuel => by
    rw [Form.size] at hfuel
    refine (Term.IsNormal.leaves h.1 (by omega)).bind ?_
    exact (Term.IsNormal.leaves h.2 (by omega)).bind (.pure _)
  | .app f args, fuel + 1, h, _, hfuel => by
    rw [Form.size] at hfuel
    refine (Term.IsNormal.leaves h.1 (by omega)).bind ?_
    exact (IsNormalList.leaves h.2 (by omega)).bind (.pure _)
  | .list xs, fuel + 1, h, _, hfuel => by
    rw [Form.size] at hfuel
    exact (IsNormalList.leaves h (by omega)).bind (.pure _)
  | .bind k t, fuel + 1, h, _, hfuel => by
    rw [Form.size] at hfuel
    exact (Tele.IsNormal.leaves (t := t) h (by omega)).bind (.pure _)

theorem Tele.IsNormal.leaves {k : Binder} : ∀ {t : Tele .checked k} {fuel : Nat},
    t.IsNormal env → 3 * t.size ≤ fuel → Leaves (normalizeTele env.withoutInlining fuel stack t) t
  | t, 0, _, hfuel => by cases t <;> simp [Tele.size] at hfuel
  | .fields, _ + 1, _, _ => fun _ => rfl
  | .returns m ret, fuel + 1, h, hfuel => by
    rw [Tele.size] at hfuel
    exact (Term.IsNormal.leaves (t := ret) h (by omega)).bind (.pure _)
  | .runs m ret body, fuel + 1, h, hfuel => by
    rw [Tele.size] at hfuel
    refine (Term.IsNormal.leaves h.1 (by omega)).bind ?_
    exact (IsNormalBody.leaves h.2 (by omega)).bind (.pure _)
  | .arg mark qty ty v rest, fuel + 1, h, hfuel => by
    rw [Tele.size] at hfuel
    refine (Term.IsNormal.leaves h.1 (by omega)).bind ?_
    exact (Tele.IsNormal.leaves h.2 (by omega)).bind (.pure _)

theorem Stmt.IsNormal.leaves : ∀ {s : Stmt .checked} {fuel : Nat}, s.IsNormal env →
    3 * s.size ≤ fuel → Leaves (normalizeStmt env.withoutInlining fuel stack s) s
  | s, 0, _, hfuel => by cases s <;> simp [Stmt.size] at hfuel
  | .call m x, fuel + 1, h, hfuel | .ret m x, fuel + 1, h, hfuel
  | .impossibleBy m x, fuel + 1, h, hfuel => by
    rw [Stmt.size] at hfuel
    exact (Term.IsNormal.leaves (t := x) h (by omega)).bind (.pure _)
  | .ifThen m cond yes, fuel + 1, h, hfuel => by
    rw [Stmt.size] at hfuel
    refine (Term.IsNormal.leaves h.1 (by omega)).bind ?_
    exact (IsNormalBody.leaves h.2 (by omega)).bind (.pure _)
  | .ifElse m cond yes no, fuel + 1, h, hfuel => by
    rw [Stmt.size] at hfuel
    refine (Term.IsNormal.leaves h.1 (by omega)).bind ?_
    refine (IsNormalBody.leaves h.2.1 (by omega)).bind ?_
    exact (IsNormalBody.leaves h.2.2 (by omega)).bind (.pure _)
  | .retUnit _, _ + 1, _, _ | .impossible _, _ + 1, _, _ => fun _ => rfl

theorem IsNormalList.leaves : ∀ {xs : List Checked} {fuel : Nat}, IsNormalList env xs →
    3 * sizeList xs + 1 ≤ fuel → Leaves (normalizeList env.withoutInlining fuel stack xs) xs
  | _, 0, _, hfuel => by omega
  | [], _ + 1, _, _ => fun _ => rfl
  | x :: xs, fuel + 1, h, hfuel => by
    have hx := x.one_le_size
    rw [sizeList] at hfuel
    refine (Term.IsNormal.leaves h.1 (by omega)).bind ?_
    exact (IsNormalList.leaves h.2 (by omega)).bind (.pure _)

theorem isNormalStmts_leaves : ∀ {b : Body .checked} {fuel : Nat}, IsNormalBody env b →
    3 * sizeBody b + 1 ≤ fuel → Leaves (normalizeStmts env.withoutInlining fuel stack b) b
  | _, 0, _, hfuel => by omega
  | [], _ + 1, _, _ => fun _ => rfl
  | s :: rest, fuel + 1, ⟨hs, _, _, hrest⟩, hfuel => by
    have hsize := s.one_le_size
    rw [sizeBody] at hfuel
    refine (Stmt.IsNormal.leaves hs (by omega)).bind ?_
    dsimp only
    split
    · exact .pure _
    · exact (isNormalStmts_leaves hrest (by omega)).bind (.pure _)

theorem IsNormalBody.leaves : ∀ {b : Body .checked} {fuel : Nat}, IsNormalBody env b →
    3 * sizeBody b + 2 ≤ fuel → Leaves (normalizeBody env.withoutInlining fuel stack b) b
  | _, 0, _, hfuel => by omega
  | b, fuel + 1, h, hfuel => by
    rw [normalizeBody, h.dropUnreachable]
    refine (isNormalStmts_leaves h (by omega)).bind ?_
    simp only [h.pruneStmts]
    exact .pure _

end

end

/-- Whatever normalisation returns is a normal form, of a term and of a body, with any limits on
unfolding. Where definitions are not unfolded, it is normalised to itself, and no change is
reported. -/
theorem normalize_normal_forms (env : Env) :
    (∀ fuel stack attempts t u left,
      (normalizeTerm env fuel stack t).run attempts = some (u, left) →
        u.result.IsNormal env ∧ ∀ fuel' stack' attempts', 3 * u.result.size ≤ fuel' →
          (normalizeTerm { env with inlineGlobals := false } fuel' stack' u.result).run attempts' =
            some (⟨u.result, false⟩, attempts')) ∧
    (∀ fuel stack attempts b u left,
      (normalizeBody env fuel stack b).run attempts = some (u, left) →
        IsNormalBody env u.result ∧ ∀ fuel' stack' attempts', 3 * sizeBody u.result + 2 ≤ fuel' →
          (normalizeBody { env with inlineGlobals := false } fuel' stack' u.result).run attempts' =
            some (⟨u.result, false⟩, attempts')) := by
  refine ⟨fun fuel stack attempts t u left h => ?_, fun fuel stack attempts b u left h => ?_⟩
  · obtain ⟨hterm, -⟩ := rewrites_of_run env fuel
    have hu : u.result.IsNormal env := (hterm stack t _ _ _ h).isNormal
    exact ⟨hu, fun fuel' stack' attempts' hfuel => hu.leaves hfuel attempts'⟩
  · obtain ⟨-, -, -, -, -, hbody, -⟩ := rewrites_of_run env fuel
    have hu : IsNormalBody env u.result := (hbody stack b _ _ _ h).isNormal
    exact ⟨hu, fun fuel' stack' attempts' hfuel => hu.leaves hfuel attempts'⟩

/-- The body `if (1 < 2) { h(); x == 0; } return (3 because b) + 4; h();`, where only `h` has an
effect, is normalised to `h(); return 7;`. -/
theorem normalize_normal_forms_of_literal_condition :
    let num (k : Int) : Checked := Checked.term Checked.u64 (.atom (.num k))
    let h : Checked := Checked.term (Checked.pi (.returns .yes Checked.u64)) (.var { name := "h" })
    let call : Stmt .checked := .call () (Checked.term Checked.u64 (.app h []))
    let compare (op : RelOp) (x y : Checked) :=
      Checked.term Checked.bool (.binary (.compare op) x y)
    let x : Checked := Checked.term Checked.u64 (.var { name := "x" })
    let b : Checked := Checked.term Checked.bool (.var { name := "b" })
    let body : Body .checked :=
      [.ifThen () (compare .lt (num 1) (num 2)) [call, .call () (compare .eq x (num 0))],
        .ret () (Checked.term Checked.u64 (.binary (.arith .plus)
          (Checked.term Checked.u64 (.binary .because (num 3) b)) (num 4))), call]
    let normal : Body .checked := [call, .ret () (num 7)]
    (normalizeBody {} 20 [] body).run 0 = some (⟨normal, true⟩, 0) ∧ IsNormalBody {} normal ∧
      (normalizeBody { inlineGlobals := false } 100 [] normal).run 0 =
        some (⟨normal, false⟩, 0) := by
  intro num h call compare x b body normal
  have hrun : (normalizeBody {} 20 [] body).run 0 = some (⟨normal, true⟩, 0) := rfl
  obtain ⟨hnormal, hagain⟩ := (normalize_normal_forms {}).2 20 [] 0 body ⟨normal, true⟩ 0 hrun
  exact ⟨hrun, hnormal, hagain 100 [] 0 (by decide)⟩

end DependentCore
