import DependentCore.Proofs.Flow.Impossible
import DependentCore.Proofs.Flow.Paths
import DependentCore.Proofs.Globals.Entries
import DependentCore.Proofs.Reduction.NormalForms
import DependentCore.Proofs.Reduction.Units

/-!
# Bodies that always return

The checker makes sure that no path through the body of a function falls off its end, unless the
function returns the unit. Normalisation drops, splices and truncates the branches of the body, and
for one of these steps the guarantee is at stake: an `if` without an else whose branch must be
taken, since the statements after it are impossible, is replaced by its branch, and what follows is
dropped. If the branch can be left at its end, so can the new body.

* `Stmt.halts`, `haltsBody`: no path falls off the end, where literal conditions select a branch,
* `Stmt.exposed`, `exposedBody`: there is an `if` that could be replaced in the way described,
* `KeepsReturns`: what one body has to keep of another,
* `Rewrites.keepsReturns`: all passes of normalisation keep it,
* `returnsAlways_normalizeUnit`: the functions of a unit whose bodies are not exposed still
  return on every path.
-/

namespace DependentCore

variable {p : Phase}

/-! ## Definitions -/

mutual

/-- Whether control never continues past the statement, where a literal condition selects its branch
at any depth. -/
def Stmt.halts : Stmt p → Bool
  | .call _ _ => false
  | .ifThen _ cond yes => cond.isLit true && haltsBody yes
  | .ifElse _ cond yes no =>
    if cond.isLit true then haltsBody yes
    else if cond.isLit false then haltsBody no
    else haltsBody yes && haltsBody no
  | .ret _ _ | .retUnit _ | .impossible _ | .impossibleBy _ _ => true

/-- Whether no path falls off the end of the body, where a literal condition selects its branch at
any depth. -/
def haltsBody : List (Stmt p) → Bool
  | [] => false
  | s :: rest => s.halts || haltsBody rest

end

mutual

/-- Whether the statement is `impossible` or has one inside. -/
def Stmt.hasImpossible : Stmt p → Bool
  | .impossible _ | .impossibleBy _ _ => true
  | .ifThen _ _ yes => hasImpossibleBody yes
  | .ifElse _ _ yes no => hasImpossibleBody yes || hasImpossibleBody no
  | .call _ _ | .ret _ _ | .retUnit _ => false

/-- Whether there is an `impossible` anywhere in the body. -/
def hasImpossibleBody : List (Stmt p) → Bool
  | [] => false
  | s :: rest => s.hasImpossible || hasImpossibleBody rest

end

mutual

/-- Whether there is an `if` without an else in the statement that an `impossible` comes after, and
whose branch can be left at its end. A literal condition does not count. The flag says whether an
`impossible` comes after the statement. -/
def Stmt.exposed (after : Bool) : Stmt p → Bool
  | .ifThen _ cond yes =>
    (!cond.isLit true && !cond.isLit false && after && !haltsBody yes) || exposedBody after yes
  | .ifElse _ _ yes no => exposedBody after yes || exposedBody after no
  | .call _ _ | .ret _ _ | .retUnit _ | .impossible _ | .impossibleBy _ _ => false

/-- Whether there is an `if` without an else in the body that an `impossible` comes after, and whose
branch can be left at its end. The flag says whether an `impossible` comes after the body. -/
def exposedBody (after : Bool) : List (Stmt p) → Bool
  | [] => false
  | s :: rest => s.exposed (after || hasImpossibleBody rest) || exposedBody after rest

end

/-! ## Halting, impossible and exposed bodies -/

mutual

theorem Stmt.halts_of_isTerminator : ∀ {s : Stmt p}, s.isTerminator → s.halts
  | .ifElse _ cond yes no, h => by
    simp only [Stmt.isTerminator, Bool.and_eq_true] at h
    have hyes := haltsBody_of_returnsAlways h.1
    have hno := haltsBody_of_returnsAlways h.2
    rw [Stmt.halts, hyes, hno]
    split
    · rfl
    · split <;> rfl
  | .ret _ _, _ | .retUnit _, _ | .impossible _, _ | .impossibleBy _ _, _ => rfl

/-- Where the branches that literal conditions select are told apart, no fewer bodies halt. -/
theorem haltsBody_of_returnsAlways : ∀ {b : List (Stmt p)}, returnsAlways b → haltsBody b
  | s :: rest, h => by
    rw [returnsAlways, Bool.or_eq_true] at h
    rw [haltsBody, Bool.or_eq_true]
    exact h.imp Stmt.halts_of_isTerminator haltsBody_of_returnsAlways

end

theorem haltsBody_append (b c : List (Stmt p)) :
    haltsBody (b ++ c) = (haltsBody b || haltsBody c) := by
  induction b with
  | nil => rfl
  | cons s b ih => simp only [List.cons_append, haltsBody, ih, Bool.or_assoc]

theorem hasImpossibleBody_append (b c : List (Stmt p)) :
    hasImpossibleBody (b ++ c) = (hasImpossibleBody b || hasImpossibleBody c) := by
  induction b with
  | nil => rfl
  | cons s b ih => simp only [List.cons_append, hasImpossibleBody, ih, Bool.or_assoc]

theorem exposedBody_append (after : Bool) (b c : List (Stmt p)) :
    exposedBody after (b ++ c)
      = (exposedBody (after || hasImpossibleBody c) b || exposedBody after c) := by
  induction b with
  | nil => rfl
  | cons s b ih =>
    simp only [List.cons_append, exposedBody, ih, hasImpossibleBody_append, Bool.or_assoc,
      Bool.or_comm (hasImpossibleBody b)]

mutual

theorem Stmt.hasImpossible_of_endsImpossible : ∀ {s : Stmt p}, s.endsImpossible → s.hasImpossible
  | .ifElse _ _ yes no, h => by
    simp only [Stmt.endsImpossible, Bool.and_eq_true] at h
    rw [Stmt.hasImpossible, hasImpossibleBody_of_endsImpossible h.1, Bool.true_or]
  | .impossible _, _ | .impossibleBy _ _, _ => rfl

theorem hasImpossibleBody_of_endsImpossible : ∀ {b : List (Stmt p)}, endsImpossible b →
    hasImpossibleBody b
  | s :: rest, h => by
    simp only [endsImpossible, Bool.or_eq_true, Bool.and_eq_true] at h
    rw [hasImpossibleBody, Bool.or_eq_true]
    exact h.imp Stmt.hasImpossible_of_endsImpossible
      fun h => hasImpossibleBody_of_endsImpossible h.2

end

mutual

theorem Stmt.not_exposed_of_imp {after after' : Bool} (hafter : after' → after) :
    ∀ {s : Stmt p}, s.exposed after = false → s.exposed after' = false
  | .ifThen _ cond yes, h => by
    simp only [Stmt.exposed, Bool.or_eq_false_iff] at h ⊢
    refine ⟨?_, not_exposedBody_of_imp hafter h.2⟩
    cases after' with
    | false => simp
    | true =>
      rw [hafter rfl] at h
      exact h.1
  | .ifElse _ _ yes no, h => by
    simp only [Stmt.exposed, Bool.or_eq_false_iff] at h ⊢
    exact ⟨not_exposedBody_of_imp hafter h.1, not_exposedBody_of_imp hafter h.2⟩
  | .call _ _, _ | .ret _ _, _ | .retUnit _, _ | .impossible _, _ | .impossibleBy _ _, _ => rfl

/-- A body is exposed the less, the less comes after it. -/
theorem not_exposedBody_of_imp {after after' : Bool} (hafter : after' → after) :
    ∀ {b : List (Stmt p)}, exposedBody after b = false → exposedBody after' b = false
  | [], _ => rfl
  | s :: rest, h => by
    rw [exposedBody, Bool.or_eq_false_iff] at h ⊢
    refine ⟨Stmt.not_exposed_of_imp (fun h => ?_) h.1, not_exposedBody_of_imp hafter h.2⟩
    rw [Bool.or_eq_true] at h ⊢
    exact h.imp hafter id

end

/-! ## What is kept -/

/-- What a statement has to keep of another that it replaces: it adds no `impossible` and no exposed
`if`, and unless there is an exposed one, it halts if the other does. -/
structure Stmt.KeepsReturns (s s' : Stmt p) : Prop where
  impossible : s'.hasImpossible → s.hasImpossible
  exposed : ∀ {after}, s.exposed after = false → s'.exposed after = false
  halts : ∀ {after}, s.exposed after = false → s.halts → s'.halts

/-- What a body has to keep of another that it replaces. -/
structure KeepsReturns (b b' : List (Stmt p)) : Prop where
  impossible : hasImpossibleBody b' → hasImpossibleBody b
  exposed : ∀ {after}, exposedBody after b = false → exposedBody after b' = false
  halts : ∀ {after}, exposedBody after b = false → haltsBody b → haltsBody b'

namespace KeepsReturns

variable {s s' : Stmt p} {b c d rest rest' : List (Stmt p)}

theorem refl (b : List (Stmt p)) : KeepsReturns b b :=
  ⟨id, id, fun _ h => h⟩

theorem trans (h : KeepsReturns b c) (h' : KeepsReturns c d) : KeepsReturns b d where
  impossible hd := h.impossible (h'.impossible hd)
  exposed hb := h'.exposed (h.exposed hb)
  halts hb hhalts := h'.halts (h.exposed hb) (h.halts hb hhalts)

theorem cons (hs : s.KeepsReturns s') (hrest : KeepsReturns rest rest') :
    KeepsReturns (s :: rest) (s' :: rest') where
  impossible h := by
    rw [hasImpossibleBody, Bool.or_eq_true] at h ⊢
    exact h.imp hs.impossible hrest.impossible
  exposed h := by
    rw [exposedBody, Bool.or_eq_false_iff] at h ⊢
    refine ⟨Stmt.not_exposed_of_imp (fun h => ?_) (hs.exposed h.1), hrest.exposed h.2⟩
    rw [Bool.or_eq_true] at h ⊢
    exact h.imp id hrest.impossible
  halts h hhalts := by
    rw [exposedBody, Bool.or_eq_false_iff] at h
    rw [haltsBody, Bool.or_eq_true] at hhalts ⊢
    exact hhalts.imp (hs.halts h.1) (hrest.halts h.2)

/-- What follows a statement that halts may be dropped. -/
theorem single (hs : s.KeepsReturns s') (hhalts : s'.halts) : KeepsReturns (s :: rest) [s'] where
  impossible h := by
    rw [hasImpossibleBody, hasImpossibleBody, Bool.or_false] at h
    rw [hasImpossibleBody, hs.impossible h, Bool.true_or]
  exposed h := by
    rw [exposedBody, Bool.or_eq_false_iff] at h
    rw [exposedBody, exposedBody, Bool.or_false]
    refine Stmt.not_exposed_of_imp (fun h => ?_) (hs.exposed h.1)
    rw [hasImpossibleBody, Bool.or_false] at h
    rw [h, Bool.true_or]
  halts _ _ := by rw [haltsBody, hhalts, Bool.true_or]

end KeepsReturns

/-! ## Branches -/

namespace Stmt.KeepsReturns

variable {m : Mark p} {cond cond' : Term p} {yes yes' no no' : List (Stmt p)}

theorem refl (s : Stmt p) : s.KeepsReturns s :=
  ⟨id, id, fun _ h => h⟩

/-- A branch may be replaced, and a condition that is not literal may become so. -/
theorem ifThen (hcond : ∀ b, cond.isLit b → cond'.isLit b)
    (hyes : DependentCore.KeepsReturns yes yes') :
    (Stmt.ifThen m cond yes).KeepsReturns (.ifThen m cond' yes') where
  impossible := hyes.impossible
  exposed {after} h := by
    simp only [Stmt.exposed, Bool.or_eq_false_iff] at h ⊢
    refine ⟨?_, hyes.exposed h.2⟩
    cases hhalts : haltsBody yes with
    | true => simp [hyes.halts h.2 hhalts]
    | false =>
      cases htrue : cond.isLit true with
      | true => simp [hcond true htrue]
      | false =>
        cases hfalse : cond.isLit false with
        | true => simp [hcond false hfalse]
        | false =>
          have hafter : after = false := by simpa [htrue, hfalse, hhalts] using h.1
          simp [hafter]
  halts h hhalts := by
    simp only [Stmt.exposed, Bool.or_eq_false_iff] at h
    simp only [Stmt.halts, Bool.and_eq_true] at hhalts ⊢
    exact ⟨hcond true hhalts.1, hyes.halts h.2 hhalts.2⟩

theorem ifElse (hcond : ∀ b, cond.isLit b → cond'.isLit b)
    (hyes : DependentCore.KeepsReturns yes yes') (hno : DependentCore.KeepsReturns no no') :
    (Stmt.ifElse m cond yes no).KeepsReturns (.ifElse m cond' yes' no') where
  impossible h := by
    rw [Stmt.hasImpossible, Bool.or_eq_true] at h ⊢
    exact h.imp hyes.impossible hno.impossible
  exposed h := by
    simp only [Stmt.exposed, Bool.or_eq_false_iff] at h ⊢
    exact ⟨hyes.exposed h.1, hno.exposed h.2⟩
  halts h hhalts := by
    simp only [Stmt.exposed, Bool.or_eq_false_iff] at h
    rw [Stmt.halts] at hhalts
    split at hhalts
    · next htrue => rw [Stmt.halts, if_pos (hcond true htrue), hyes.halts h.1 hhalts]
    · split at hhalts
      · next hfalse =>
        have htrue' : ¬cond'.isLit true := fun htrue => by
          have hfalse' := Term.isLit_false_of_isLit_true htrue
          rw [hcond false hfalse] at hfalse'
          cases hfalse'
        rw [Stmt.halts, if_neg htrue', if_pos (hcond false hfalse), hno.halts h.2 hhalts]
      · -- both branches halt, so it does not matter whether the new condition selects one
        rw [Bool.and_eq_true] at hhalts
        rw [Stmt.halts, hyes.halts h.1 hhalts.1, hno.halts h.2 hhalts.2]
        simp

end Stmt.KeepsReturns

/-! ## Removal of unreachable code -/

mutual

theorem Stmt.keepsReturns_dropUnreachable : ∀ s : Stmt p, s.KeepsReturns s.dropUnreachable.result
  | .ifThen m cond yes => by
    have hyes := keepsReturns_dropUnreachable yes
    rw [Stmt.dropUnreachable]
    split
    · next hfalse =>
      refine ⟨nofun, fun _ => ?_, fun _ h => ?_⟩
      · simp [Stmt.exposed, exposedBody, hfalse]
      · simp only [Stmt.halts, Bool.and_eq_true] at h
        rw [Term.isLit_false_of_isLit_true h.1] at hfalse
        cases hfalse
    · exact .ifThen (fun _ h => h) hyes
  | .ifElse m cond yes no => by
    have hyes := keepsReturns_dropUnreachable yes
    have hno := keepsReturns_dropUnreachable no
    rw [Stmt.dropUnreachable]
    split
    · next htrue =>
      refine ⟨fun h => ?_, fun h => ?_, fun h hhalts => ?_⟩
      · rw [Stmt.hasImpossible, hyes.impossible h, Bool.true_or]
      · simp only [Stmt.exposed, Bool.or_eq_false_iff] at h
        simp [Stmt.exposed, htrue, hyes.exposed h.1]
      · simp only [Stmt.exposed, Bool.or_eq_false_iff] at h
        rw [Stmt.halts, if_pos htrue] at hhalts
        rw [Stmt.halts, htrue, hyes.halts h.1 hhalts, Bool.and_true]
    · next htrue =>
      split
      · next hfalse =>
        refine ⟨fun h => ?_, fun h => ?_, fun h hhalts => ?_⟩
        · rw [Stmt.hasImpossible, hno.impossible h, Bool.or_true]
        · simp only [Stmt.exposed, Bool.or_eq_false_iff] at h
          simp [Stmt.exposed, exposedBody, hno.exposed h.2]
        · simp only [Stmt.exposed, Bool.or_eq_false_iff] at h
          rw [Stmt.halts, if_neg htrue, if_pos hfalse] at hhalts ⊢
          exact hno.halts h.2 hhalts
      · exact .ifElse (fun _ h => h) hyes hno
  | .call _ _ | .ret _ _ | .retUnit _ | .impossible _ | .impossibleBy _ _ => .refl _

theorem keepsReturns_dropUnreachable : ∀ b : List (Stmt p),
    KeepsReturns b (dropUnreachable b).result
  | [] => .refl []
  | s :: rest => by
    have hs := s.keepsReturns_dropUnreachable
    rw [dropUnreachable]
    split
    · next hterm => exact .single hs (Stmt.halts_of_isTerminator hterm)
    · exact .cons hs (keepsReturns_dropUnreachable rest)

end

/-! ## Pruning -/

/-- The statements that an `if` is replaced by are one of its branches: a branch that halts if the
`if` does; and if the statements after it are dropped, it is the branch of an `if` without an else,
and they are impossible. -/
theorem Stmt.prune?_cases {s : Stmt .checked} {rest spliced : Body .checked} {dropRest : Bool}
    (h : s.prune? rest = some (spliced, dropRest)) :
    (∀ after, s.exposed after = false → exposedBody after spliced = false) ∧
    (hasImpossibleBody spliced → s.hasImpossible) ∧ (s.halts → haltsBody spliced) ∧
    (dropRest →
      DependentCore.endsImpossible rest ∧ (s.exposed true = false → haltsBody spliced)) := by
  have hnever {q : Prop} (h : false = true) : q := by cases h
  cases s with
  | call m x =>
    simp only [Stmt.prune?] at h
    split at h
    · cases h
    · cases h
      exact ⟨fun _ _ => rfl, hnever, hnever, hnever⟩
  | ifThen m cond yes =>
    have hif : PrunesIf cond yes rest none spliced dropRest := prunesIf_of_outcomeOfIf? h
    have hexposed (after : Bool) (h : (Stmt.ifThen m cond yes).exposed after = false) :
        exposedBody after yes = false := (Bool.or_eq_false_iff.mp h).2
    have hhalts (h : (Stmt.ifThen m cond yes).halts) : cond.isLit true ∧ haltsBody yes :=
      Bool.and_eq_true_iff.mp h
    cases hif with
    | literalTrue => exact ⟨hexposed, id, fun h => (hhalts h).2, hnever⟩
    | literalFalse htrue =>
      refine ⟨fun _ _ => rfl, hnever, fun h => ?_, hnever⟩
      exact absurd (hhalts h).1 (ne_true_of_eq_false htrue)
    | second hlit =>
      refine ⟨fun _ _ => rfl, hnever, fun h => ?_, hnever⟩
      exact absurd (hhalts h).1 (ne_true_of_eq_false (hlit true))
    | take hlit _ hrest =>
      refine ⟨hexposed, id, fun h => (hhalts h).2, fun _ => ⟨hrest, fun h => ?_⟩⟩
      simpa [Stmt.exposed, hlit] using (Bool.or_eq_false_iff.mp h).1
  | ifElse m cond yes no =>
    have hif : PrunesIf cond yes rest (some no) spliced dropRest := prunesIf_of_outcomeOfIf? h
    have hexposed (after : Bool) (h : (Stmt.ifElse m cond yes no).exposed after = false) :
        exposedBody after yes = false ∧ exposedBody after no = false := Bool.or_eq_false_iff.mp h
    have himpossible (h : hasImpossibleBody yes ∨ hasImpossibleBody no) :
        (Stmt.ifElse m cond yes no).hasImpossible := Bool.or_eq_true_iff.mpr h
    have hhalts (hlit : ∀ b, cond.isLit b = false) (h : (Stmt.ifElse m cond yes no).halts) :
        haltsBody yes ∧ haltsBody no := by simpa [Stmt.halts, hlit] using h
    cases hif with
    | literalTrue htrue =>
      refine ⟨fun _ h => (hexposed _ h).1, fun h => himpossible (.inl h), fun h => ?_, hnever⟩
      simpa [Stmt.halts, htrue] using h
    | literalFalse htrue hfalse =>
      refine ⟨fun _ h => (hexposed _ h).2, fun h => himpossible (.inr h), fun h => ?_, hnever⟩
      simpa [Stmt.halts, htrue, hfalse] using h
    | second hlit =>
      exact ⟨fun _ h => (hexposed _ h).2, fun h => himpossible (.inr h),
        fun h => (hhalts hlit h).2, hnever⟩
    | first hlit =>
      exact ⟨fun _ h => (hexposed _ h).1, fun h => himpossible (.inl h),
        fun h => (hhalts hlit h).1, hnever⟩
  | _ => cases h

theorem keepsReturns_pruneStmts : ∀ b : Body .checked, KeepsReturns b (pruneStmts b).result
  | [] => .refl []
  | s :: rest => by
    have hrest := keepsReturns_pruneStmts rest
    rw [pruneStmts]
    split
    · -- the rest is dropped with the `impossible` in it, which is why the branch has to halt
      next spliced hprune =>
      obtain ⟨hexposed, himpossible, -, hdrop⟩ := Stmt.prune?_cases hprune
      obtain ⟨hends, hhalts⟩ := hdrop rfl
      have hafter := hasImpossibleBody_of_endsImpossible hends
      refine ⟨fun h => ?_, fun h => ?_, fun h _ => ?_⟩
      · rw [hasImpossibleBody, himpossible h, Bool.true_or]
      · rw [exposedBody, Bool.or_eq_false_iff] at h
        exact not_exposedBody_of_imp (fun h => by rw [h, Bool.true_or]) (hexposed _ h.1)
      · rw [exposedBody, Bool.or_eq_false_iff, hafter, Bool.or_true] at h
        exact hhalts h.1
    · next spliced hprune =>
      obtain ⟨hexposed, himpossible, hhalts, -⟩ := Stmt.prune?_cases hprune
      refine ⟨fun h => ?_, fun h => ?_, fun h hb => ?_⟩
      · rw [hasImpossibleBody_append, Bool.or_eq_true] at h
        rw [hasImpossibleBody, Bool.or_eq_true]
        exact h.imp himpossible hrest.impossible
      · rw [exposedBody, Bool.or_eq_false_iff] at h
        rw [exposedBody_append, Bool.or_eq_false_iff]
        refine ⟨not_exposedBody_of_imp (fun h => ?_) (hexposed _ h.1), hrest.exposed h.2⟩
        rw [Bool.or_eq_true] at h ⊢
        exact h.imp id hrest.impossible
      · rw [exposedBody, Bool.or_eq_false_iff] at h
        rw [haltsBody, Bool.or_eq_true] at hb
        rw [haltsBody_append, Bool.or_eq_true]
        exact hb.imp hhalts (hrest.halts h.2)
    · exact .cons (.refl s) hrest

/-! ## Normalisation -/

/-- What one subject of a pass has to keep of another. Of terms these are the boolean literals. -/
def Subject.KeepsReturns : Subject → Subject → Prop
  | .term t, .term u | .parts t, .parts u | .call t, .call u => ∀ b, t.isLit b → u.isLit b
  | .body b, .body b' | .stmts b, .stmts b' => DependentCore.KeepsReturns b b'
  | .stmt s, .stmt s' => s.KeepsReturns s'
  | _, _ => True

theorem Term.isLit_reduce {env : Env} {t : Checked} {b : Bool} (h : t.isLit b) :
    (t.reduce env).result.isLit b := by
  refine Term.reduce_induction (P := fun t => t.isLit b) (fun t u ht hstep => ?_) h
  cases hstep <;> cases ht

/-- All passes of normalisation keep that a body returns on every path, unless it is exposed. -/
theorem Rewrites.keepsReturns {env : Env} {stack : List GlobalName} {a a' : Subject} {c : Bool}
    (h : Rewrites env stack a a' c) : a.KeepsReturns a' := by
  -- of the terms in a body only the conditions matter, and of these only which are literal
  induction h with
  | again _ _ _ _ hparts hcall hterm =>
    exact fun b h => hterm b (hcall b (Term.isLit_reduce (hparts b h)))
  | done _ _ _ hparts hcall => exact fun b h => hcall b (Term.isLit_reduce (hparts b h))
  | atom | var | keep => exact fun _ h => h
  | unary | binary | app | list | bind => exact fun _ h => by cases h
  | unfold hunfold =>
    intro b h
    unfold Term.unfolding? at hunfold
    split at hunfold
    · cases h
    · cases hunfold
  | nil | cons | fields | returns | runs | arg => trivial
  | @bodyAgain _ b _ _ _ _ _ _ _ hstmts hbody =>
    exact (keepsReturns_dropUnreachable b).trans
      (hstmts.trans ((keepsReturns_pruneStmts _).trans hbody))
  | @bodyDone _ b _ _ _ _ hstmts =>
    exact (keepsReturns_dropUnreachable b).trans (hstmts.trans (keepsReturns_pruneStmts _))
  | stmtsNil => exact .refl []
  | stmtsStop _ _ hs => exact .cons hs (.refl _)
  | stmtsNext _ _ _ hs hrest => exact .cons hs hrest
  | ifThen _ _ hcond hyes => exact .ifThen hcond hyes
  | ifElse _ _ _ hcond hyes hno => exact .ifElse hcond hyes hno
  | stmtCall | ret | retUnit | impossible | impossibleBy => exact ⟨id, id, fun _ h => h⟩

mutual

theorem Stmt.IsNormal.isTerminator_of_halts {env : Env} : ∀ {s : Stmt .checked}
    {rest : Body .checked}, s.IsNormal env → ¬Prunable rest s → s.halts → s.isTerminator
  | .ifThen _ cond yes, _, _, hneeded, h => by
    simp only [Stmt.halts, Bool.and_eq_true] at h
    exact absurd (.literalThen h.1) hneeded
  | .ifElse _ cond yes no, _, hs, hneeded, h => by
    rw [Stmt.halts, if_neg fun h => hneeded (.literalElse h),
      if_neg fun h => hneeded (.literalElse h), Bool.and_eq_true] at h
    rw [Stmt.isTerminator, Bool.and_eq_true]
    exact ⟨hs.2.1.returnsAlways_of_halts h.1, hs.2.2.returnsAlways_of_halts h.2⟩
  | .ret _ _, _, _, _, _ | .retUnit _, _, _, _, _ | .impossible _, _, _, _, _
  | .impossibleBy _ _, _, _, _, _ => rfl

/-- In a normal form there are no literal conditions to tell the branches apart. -/
theorem IsNormalBody.returnsAlways_of_halts {env : Env} : ∀ {b : Body .checked},
    IsNormalBody env b → haltsBody b → returnsAlways b
  | s :: rest, hb, h => by
    rw [haltsBody, Bool.or_eq_true] at h
    rw [returnsAlways, Bool.or_eq_true]
    exact h.imp (hb.1.isTerminator_of_halts hb.2.2.1) hb.2.2.2.returnsAlways_of_halts

end

/-- A body that returns on every path does so after normalisation, unless it is exposed. -/
theorem Rewrites.returnsAlways {env : Env} {stack : List GlobalName} {b b' : Body .checked}
    {c : Bool} (h : Rewrites env stack (.body b) (.body b') c) (hb : exposedBody false b = false)
    (hreturns : DependentCore.returnsAlways b) : DependentCore.returnsAlways b' := by
  have hkeeps : DependentCore.KeepsReturns b b' := h.keepsReturns
  have hnormal : IsNormalBody env b' := h.isNormal
  exact hnormal.returnsAlways_of_halts (hkeeps.halts hb (haltsBody_of_returnsAlways hreturns))

/-! ## Units -/

/-- A function that is accepted returns the unit, or it returns on every path. -/
theorem Tele.Accepts.returnsAlways {fuel : Nat} {env : Env} {ctx : Context} {k : Binder}
    {t : Tele .written k} {t' : Tele .checked k} (h : Tele.Accepts fuel env ctx t t')
    {ret : Checked} (hret : t'.ret? = some ret) {b : Body .checked} (hb : t'.body? = some b) :
    ret.isUnit || DependentCore.returnsAlways b := by
  induction k, t using Tele.args_induction generalizing ctx with
  | fields | returns =>
    cases h
    cases hb
  | runs =>
    cases h with
    | runs _ _ hreturns =>
      cases hret
      cases hb
      exact hreturns
  | arg _ _ _ _ _ _ ih =>
    cases h with
    | arg _ _ h => exact ih h hret hb

theorem Entry.Accepts.accepts_function {fuel : Nat} {env env' : Env} {e : Entry .written}
    {e' : Entry .checked} (h : e.Accepts fuel env e' env') {f' : Function .checked}
    (hf' : e'.item = .defined f') :
    ∃ env₁ ctx f, Tele.Accepts fuel env₁ ctx f f' := by
  have hitem {env₁ loc item} (hcheck : checkItem fuel env₁ loc item = .ok (.defined f')) :
      ∃ env₁ ctx f, Tele.Accepts fuel env₁ ctx f f' := by
    cases Item.accepts_of_checkItem hcheck with
    | defined hf => exact ⟨_, _, _, hf⟩
  cases h with
  | item _ hcheck _ =>
    cases hf'
    exact hitem hcheck
  | declaredBefore _ _ _ hcheck _ | declaredNow _ _ hcheck _ =>
    cases hf'
    exact hitem hcheck

theorem AcceptsUnit.accepts_function {fuel : Nat} {env env' : Env} {es : List (Entry .written)}
    {es' : List (Entry .checked)} (h : AcceptsUnit fuel env es es' env') {e' : Entry .checked}
    (he' : e' ∈ es') {f' : Function .checked} (hf' : e'.item = .defined f') :
    ∃ env₁ ctx f, Tele.Accepts fuel env₁ ctx f f' := by
  induction h with
  | nil => cases he'
  | cons he _ ih =>
    cases he' with
    | head => exact he.accepts_function hf'
    | tail _ he' => exact ih he'

/-- In a unit that is checked and then normalised, with whatever limits, every function that does
not return the unit and whose body is not exposed keeps its return type, and no path through its
body falls off the end. -/
theorem returnsAlways_normalizeUnit {fuel n : Nat} {start env limits : Env}
    {entries : List (Entry .written)} {es es' : List (Entry .checked)}
    (hunit : (checkUnit fuel entries).run.run start = (.ok es, env))
    (hnormal : limits.normalizeUnit? n es = some es') :
    List.Forall₂ (fun e e' => ∀ f ret b, e.item = .defined f → f.ret? = some ret →
      ret.isUnit = false → f.body? = some b → exposedBody false b = false →
        ∃ f' b', e'.item = .defined f' ∧ f'.ret? = some ret ∧ f'.body? = some b' ∧
          returnsAlways b' ∧ ∀ events ending, BodyPath b' events ending → ending ≠ .passed)
      es es' := by
  have haccepts : ∀ e ∈ es, ∀ f, e.item = .defined f →
      ∃ env₁ ctx f₀, Tele.Accepts fuel env₁ ctx f₀ f :=
    fun e he f hf => (acceptsUnit_of_checkUnit hunit).accepts_function he hf
  have hentries := Env.forall₂_of_normalizeUnit? hnormal
  refine ((List.forall₂_and_left es es').mpr ⟨haccepts, hentries⟩).imp ?_
  rintro e e' ⟨haccepts, hentry⟩ f ret b hf hret hnotUnit hb hexposed
  obtain ⟨_, _, _, hfunction⟩ := haccepts f hf
  have hreturns : returnsAlways b := by
    simpa only [hnotUnit, Bool.false_or] using hfunction.returnsAlways hret hb
  rcases Env.normalizeEntry?_cases hentry with
    ⟨-, hnot⟩ | ⟨_, f', _, b', _, hf₁, hf', hbare, hb₁, hb', hrewrites⟩
  · rw [hf] at hnot
    cases hnot
  · cases hf.symm.trans hf₁
    cases hb.symm.trans hb₁
    have hreturns' := hrewrites.returnsAlways hexposed hreturns
    refine ⟨f', b', hf', ?_, hb', hreturns', fun _ _ => BodyPath.ne_passed b' hreturns'⟩
    rw [← Tele.ret?_bare, hbare, Tele.ret?_bare, hret]

/-! ## An exposed body -/

/-- The function `write(i32 x) mutable -> unit_t` that is provided from outside, and
`main(bool b) mutable -> i32 { if (b) { .. } impossible because true; }` with a given branch. -/
def guardedUnit (branch : Body .written) : List (Entry .written) :=
  let at0 (form : Form .written) : Written := .mk (.place {} rfl) form
  let i32 := at0 (.atom (.int ⟨.signed, .w32⟩))
  let b : Var := { name := "b" }
  [⟨{}, "write", .external (.arg {} .many i32 (some { name := "x" })
      (.returns .yes (at0 (.atom .unit))))⟩,
    ⟨{}, "main", .defined (.arg {} .many (at0 (.atom .bool)) (some b) (.runs .yes i32
      [.ifThen {} (at0 (.var b)) branch, .impossibleBy {} (at0 (.atom (.lit true)))]))⟩]

/-- The type of the function `write` as checked. -/
def writeSignature : Signature .checked :=
  .arg () .many (Checked.type (.atom (.int ⟨.signed, .w32⟩))) (some { name := "x" })
    (.returns .yes (Checked.type (.atom .unit)))

/-- The unit as checked, where the body of `main` is given. -/
def guardedUnitAs (body : Body .checked) : List (Entry .checked) :=
  let i32 := Checked.type (.atom (.int ⟨.signed, .w32⟩))
  [⟨(), "write", .external writeSignature⟩,
    ⟨(), "main", .defined (.arg () .many Checked.bool (some { name := "b" })
      (.runs .yes i32 body))⟩]

/-- The body of `main` as checked, where the branch is given. -/
def guardedBody (branch : Body .checked) : Body .checked :=
  [.ifThen () (Checked.term Checked.bool (.var { name := "b" })) branch,
    .impossibleBy () (Checked.term Checked.bool (.atom (.lit true)))]

/-- With the branch `return 1;` the body is normalised to its branch, and still returns. -/
theorem returnsAlways_of_guarded_return :
    let at0 (form : Form .written) : Written := .mk (.place {} rfl) form
    let i32 := Checked.type (.atom (.int ⟨.signed, .w32⟩))
    let ret : Stmt .checked := .ret () (Checked.term i32 (.atom (.num 1)))
    ∃ env, (checkUnit 20 (guardedUnit [.ret {} (at0 (.atom (.num 1)))])).run.run {}
        = (.ok (guardedUnitAs (guardedBody [ret])), env) ∧
      env.normalizeUnit? 20 (guardedUnitAs (guardedBody [ret])) = some (guardedUnitAs [ret]) ∧
      exposedBody false (guardedBody [ret]) = false ∧
      ∀ events ending, BodyPath [ret] events ending → ending ≠ .passed := by
  intro at0 i32 ret
  let env := ((checkUnit 20 (guardedUnit [.ret {} (at0 (.atom (.num 1)))])).run.run {}).2
  have hchecked : ((checkUnit 20 (guardedUnit [.ret {} (at0 (.atom (.num 1)))])).run.run {}).1
      = .ok (guardedUnitAs (guardedBody [ret])) := by decide +kernel +zetaReduce
  have hunit : (checkUnit 20 (guardedUnit [.ret {} (at0 (.atom (.num 1)))])).run.run {}
      = (.ok (guardedUnitAs (guardedBody [ret])), env) := Prod.ext hchecked rfl
  have hnormal : env.normalizeUnit? 20 (guardedUnitAs (guardedBody [ret]))
      = some (guardedUnitAs [ret]) := by decide +kernel +zetaReduce
  refine ⟨env, hunit, hnormal, rfl, ?_⟩
  cases returnsAlways_normalizeUnit hunit hnormal with
  | cons _ hmain =>
    cases hmain with
    | cons hmain _ =>
      obtain ⟨_, _, hf', -, hb', -, hpaths⟩ := hmain _ _ _ rfl rfl rfl rfl rfl
      cases hf'
      cases hb'
      exact hpaths

/-- With the branch `write(1);` the body is normalised to its branch as well, and falls off the
end. -/
theorem normalizeUnit_falls_off_end :
    let at0 (form : Form .written) : Written := .mk (.place {} rfl) form
    let call := at0 (.app (at0 (.atom (.global { name := "write" }))) [at0 (.atom (.num 1))])
    let write : Stmt .checked := .call () (Checked.term (Checked.type (.atom .unit))
      (.app (Checked.term (Checked.pi writeSignature) (.atom (.global { name := "write" })))
        [Checked.term (Checked.type (.atom (.int ⟨.signed, .w32⟩))) (.atom (.num 1))]))
    ∃ env, (checkUnit 20 (guardedUnit [.call {} call])).run.run {}
        = (.ok (guardedUnitAs (guardedBody [write])), env) ∧
      env.normalizeUnit? 20 (guardedUnitAs (guardedBody [write])) = some (guardedUnitAs [write]) ∧
      returnsAlways (guardedBody [write]) ∧ returnsAlways [write] = false ∧
      ∃ events, BodyPath [write] events .passed := by
  intro at0 call write
  let env := ((checkUnit 20 (guardedUnit [.call {} call])).run.run {}).2
  have hchecked : ((checkUnit 20 (guardedUnit [.call {} call])).run.run {}).1
      = .ok (guardedUnitAs (guardedBody [write])) := by decide +kernel +zetaReduce
  have hnormal : env.normalizeUnit? 20 (guardedUnitAs (guardedBody [write]))
      = some (guardedUnitAs [write]) := by decide +kernel +zetaReduce
  exact ⟨env, Prod.ext hchecked rfl, hnormal, rfl, rfl, _, .next .call .nil⟩

end DependentCore
