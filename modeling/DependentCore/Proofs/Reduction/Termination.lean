import DependentCore.Proofs.Reduction.Everywhere
import DependentCore.Proofs.Reduction.NormalForms
import DependentCore.Syntax.Nodes
import DependentCore.Syntax.Printer

/-!
# Normalisation ends without abstractions

A term or body is rewritten in rounds, until a round reports no change. Where definitions are not
unfolded and no abstraction can be applied, nothing is ever copied: a round that reports a change
has made the tree lighter. All loops, at every node of the tree, then share one measure.

* `Term.weight`, `weightBody`: the number of nodes, statements and branches, sorts left out,
* `NoAbs`: there is no abstraction among some terms,
* `Subject.Lightens`: what a pass does to the measure,
* `Term.lightens_reduce`, `lightens_dropUnreachable`, `lightens_pruneStmts`: the single steps,
* `Rewrites.lightens`: whole passes,
* `termRound`, `bodyRound`: the rounds that are repeated,
* `ends_of_noAbs`: a fuel that is enough for all passes.
-/

namespace DependentCore

/-! ## Weight -/

section
variable {p : Phase}

mutual

/-- The number of nodes, statements and branches in a term. Sorts are not counted. -/
def Term.weight : Term p → Nat
  | .mk _ form => form.weight + 1

/-- The weight of what is inside a form. -/
def Form.weight : Form p → Nat
  | .atom _ | .var _ => 0
  | .unary _ x => x.weight
  | .binary _ x y => x.weight + y.weight
  | .app f args => f.weight + weightList args
  | .list xs => weightList xs
  | .bind _ t => t.weight

/-- The weight of the types and the body of a telescope. -/
def Tele.weight {k : Binder} : Tele p k → Nat
  | .fields => 0
  | .returns _ ret => ret.weight
  | .runs _ ret body => ret.weight + weightBody body
  | .arg _ _ ty _ rest => ty.weight + rest.weight

/-- The weight of a statement, which counts as one, and so does each branch that is there. -/
def Stmt.weight : Stmt p → Nat
  | .call _ x | .ret _ x | .impossibleBy _ x => x.weight + 1
  | .ifThen _ cond yes => cond.weight + (weightBody yes + 1) + 1
  | .ifElse _ cond yes no => cond.weight + (weightBody yes + 1) + (weightBody no + 1) + 1
  | .retUnit _ | .impossible _ => 1

/-- The weight of the terms of a list. -/
def weightList : List (Term p) → Nat
  | [] => 0
  | x :: xs => x.weight + weightList xs

/-- The weight of the statements of a body. -/
def weightBody : List (Stmt p) → Nat
  | [] => 0
  | s :: rest => s.weight + weightBody rest

end

theorem Term.weight_pos (t : Term p) : 0 < t.weight := by
  cases t
  exact Nat.succ_pos _

theorem Stmt.weight_pos (s : Stmt p) : 0 < s.weight := by
  cases s <;> exact Nat.succ_pos _

theorem weightBody_append (b c : Body p) : weightBody (b ++ c) = weightBody b + weightBody c := by
  induction b with
  | nil => exact (Nat.zero_add _).symm
  | cons s b ih => simp only [List.cons_append, weightBody, ih, Nat.add_assoc]

/-- Statements that are dropped make up for the change that is reported. -/
theorem isEmpty_toNat_le_weightBody (b : Body p) : (!b.isEmpty).toNat ≤ weightBody b := by
  cases b with
  | nil => exact Nat.le_refl 0
  | cons s rest => exact Nat.le_add_right_of_le s.weight_pos

/-! ## Abstractions -/

/-- None of the terms is an abstraction. -/
def NoAbs (ts : List (Term p)) : Prop :=
  ∀ t ∈ ts, t.form.isAbs = false

instance (ts : List (Term p)) : Decidable (NoAbs ts) :=
  inferInstanceAs (Decidable (∀ t ∈ ts, t.form.isAbs = false))

theorem noAbs_cons {t : Term p} {ts : List (Term p)} :
    NoAbs (t :: ts) ↔ t.form.isAbs = false ∧ NoAbs ts :=
  List.forall_mem_cons

theorem noAbs_append {ts us : List (Term p)} : NoAbs (ts ++ us) ↔ NoAbs ts ∧ NoAbs us :=
  List.forall_mem_append

mutual

theorem Stmt.nodes_eq : ∀ s : Stmt p, s.nodes = s.terms.flatMap Term.nodes
  | .call _ _ | .ret _ _ | .impossibleBy _ _ => by simp [Stmt.nodes, Stmt.terms]
  | .ifThen _ _ yes => by simp [Stmt.nodes, Stmt.terms, nodesBody_eq yes]
  | .ifElse _ _ yes no => by simp [Stmt.nodes, Stmt.terms, nodesBody_eq yes, nodesBody_eq no]
  | .retUnit _ | .impossible _ => rfl

/-- The nodes of a body are those of the terms in it. -/
theorem nodesBody_eq : ∀ b : List (Stmt p), nodesBody b = (bodyTerms b).flatMap Term.nodes
  | [] => rfl
  | s :: rest => by simp [nodesBody, bodyTerms, s.nodes_eq, nodesBody_eq rest]

end

/-- A body with no other terms has no other abstractions. -/
theorem NoAbs.body_of_subset {b b' : Body p} (hb : NoAbs (nodesBody b))
    (h : bodyTerms b' ⊆ bodyTerms b) : NoAbs (nodesBody b') := by
  rw [nodesBody_eq] at hb ⊢
  intro t ht
  obtain ⟨x, hx, htx⟩ := List.mem_flatMap.mp ht
  exact hb t (List.mem_flatMap.mpr ⟨x, h hx, htx⟩)

end

/-! ## Lighter trees -/

/-- The nodes of what a pass rewrites. -/
def Subject.nodes : Subject → List Checked
  | .term t | .parts t | .call t => t.nodes
  | .list xs => nodesList xs
  | .tele t => t.nodes
  | .body b | .stmts b => nodesBody b
  | .stmt s => s.nodes

/-- The weight of what a pass rewrites. -/
def Subject.weight : Subject → Nat
  | .term t | .parts t | .call t => t.weight
  | .list xs => weightList xs
  | .tele t => t.weight
  | .body b | .stmts b => weightBody b
  | .stmt s => s.weight

/-- A pass over `a` gives `b`, which has no abstractions and is not heavier. If a change is
reported, it is lighter. -/
def Subject.Lightens (a b : Subject) (changed : Bool) : Prop :=
  NoAbs b.nodes ∧ b.weight + changed.toNat ≤ a.weight

theorem toNat_or_le (b c : Bool) : (b || c).toNat ≤ b.toNat + c.toNat := by
  cases b <;> cases c <;> decide

theorem Subject.Lightens.refl {a : Subject} (h : NoAbs a.nodes) : a.Lightens a false :=
  ⟨h, Nat.le_refl _⟩

theorem Subject.Lightens.trans {a b c : Subject} {d e : Bool} (hab : a.Lightens b d)
    (hbc : b.Lightens c e) : a.Lightens c (d || e) := by
  refine ⟨hbc.1, ?_⟩
  have hflags := toNat_or_le d e
  have h₁ := hab.2
  have h₂ := hbc.2
  omega

theorem Subject.Lightens.lt {a b : Subject} {changed : Bool} (h : a.Lightens b changed)
    (hchanged : changed) : b.weight < a.weight := by
  have hweight := h.2
  rw [hchanged] at hweight
  exact hweight

/-! ## Steps at the root -/

/-- Part of a list has no other abstractions and is not heavier. -/
theorem lightens_of_sublist {xs ys : List Checked} (h : xs.Sublist ys)
    (hys : NoAbs (nodesList ys)) : (Subject.list ys).Lightens (.list xs) false := by
  induction h with
  | slnil => exact .refl hys
  | cons y _ ih =>
    have hsub := ih (noAbs_append.mp hys).2
    exact ⟨hsub.1, Nat.le_add_left_of_le hsub.2⟩
  | cons_cons y _ ih =>
    have hsub := ih (noAbs_append.mp hys).2
    exact ⟨noAbs_append.mpr ⟨(noAbs_append.mp hys).1, hsub.1⟩, Nat.add_le_add_left hsub.2 _⟩

/-- An element of an initializer list is lighter than the list. -/
theorem lightens_of_element {x u : Checked} {xs : List Checked} {i : Nat}
    (hform : x.form = .list xs) (hget : xs[i]? = some u) (hx : NoAbs x.nodes) :
    NoAbs u.nodes ∧ u.weight < x.weight := by
  obtain ⟨note, form⟩ := x
  cases hform
  have hsub := lightens_of_sublist (List.singleton_sublist.mpr (List.mem_of_getElem? hget))
    (noAbs_cons.mp hx).2
  exact ⟨(noAbs_append.mp hsub.1).1, Nat.lt_succ_of_le hsub.2⟩

/-- A step at the root of a term without abstractions makes it lighter. -/
theorem Term.Steps.lightens {env : Env} {t u : Checked} (h : Term.Steps env t u)
    (ht : NoAbs t.nodes) : NoAbs u.nodes ∧ u.weight < t.weight := by
  cases h with
  | because =>
    refine ⟨(noAbs_append.mp (noAbs_cons.mp ht).2).1, ?_⟩
    simp only [Term.weight, Form.weight]
    omega
  | supply | ret =>
    -- what is applied would be an abstraction
    cases (noAbs_cons.mp (noAbs_append.mp (noAbs_cons.mp ht).2).1).1
  | not | logic =>
    refine ⟨noAbs_cons.mpr ⟨rfl, List.forall_mem_nil _⟩, ?_⟩
    simp only [Term.weight, Form.weight]
    omega
  | @compare _ _ x _ _ _ | @arith _ _ x _ _ _ =>
    have hpos := x.weight_pos
    refine ⟨noAbs_cons.mpr ⟨rfl, List.forall_mem_nil _⟩, ?_⟩
    simp only [Term.weight, Form.weight]
    omega
  | member hu =>
    obtain ⟨xs, _, _, _, hform, -, -, -, hget⟩ := selectMember?_eq_some hu
    obtain ⟨hnodes, hweight⟩ := lightens_of_element hform hget (noAbs_cons.mp ht).2
    exact ⟨hnodes, Nat.lt_succ_of_lt hweight⟩
  | element hu =>
    obtain ⟨xs, _, _, hform, -, -, hget⟩ := selectElement?_eq_some hu
    obtain ⟨hnodes, hweight⟩ :=
      lightens_of_element hform hget (noAbs_append.mp (noAbs_cons.mp ht).2).1
    refine ⟨hnodes, ?_⟩
    simp only [Term.weight, Form.weight]
    omega
  | @slice _ _ _ args xs _ hxs =>
    obtain ⟨note, ys, hys, hsub⟩ := dropElements?_eq_some hxs
    -- the list is one of the arguments, and part of it is left
    have hlist := lightens_of_sublist (List.singleton_sublist.mpr hys)
      (noAbs_append.mp (noAbs_cons.mp ht).2).2
    have hpart := lightens_of_sublist hsub (noAbs_cons.mp (noAbs_append.mp hlist.1).1).2
    refine ⟨noAbs_cons.mpr ⟨rfl, hpart.1⟩, ?_⟩
    have h₁ : weightList xs ≤ weightList ys := hpart.2
    have h₂ : weightList ys + 1 ≤ weightList args := hlist.2
    simp only [Term.weight, Form.weight]
    omega

/-- Beta reduction and folding make a term without abstractions lighter. -/
theorem Term.lightens_reduce (env : Env) {t : Checked} (ht : NoAbs t.nodes) :
    (Subject.call t).Lightens (.call (t.reduce env).result) (t.reduce env).changed := by
  have hstep {u : Checked} {step : Option Checked} (hu : NoAbs u.nodes)
      (h : ∀ v, step = some v → Term.Steps env u v) :
      (Subject.call u).Lightens (.call (Rewritten.ofStep u step).result)
        (Rewritten.ofStep u step).changed := by
    cases step with
    | none => exact .refl hu
    | some v => exact (h v rfl).lightens hu
  have hbeta := hstep ht fun u hu => Term.steps_of_beta? hu
  exact hbeta.trans (hstep hbeta.1 fun u hu => Term.steps_of_fold? hu)

/-! ## Removal of statements -/

section
variable {p : Phase}

mutual

theorem Stmt.weight_dropUnreachable : ∀ s : Stmt p,
    s.dropUnreachable.result.weight + s.dropUnreachable.changed.toNat ≤ s.weight
  | .ifThen m cond yes => by
    have hyes := weight_dropUnreachable yes
    have hempty := isEmpty_toNat_le_weightBody yes
    rw [Stmt.dropUnreachable]
    split <;> simp only [Stmt.weight, weightBody] <;> omega
  | .ifElse m cond yes no => by
    have hyes := weight_dropUnreachable yes
    have hno := weight_dropUnreachable no
    have hempty := isEmpty_toNat_le_weightBody yes
    rw [Stmt.dropUnreachable]
    split
    · -- the change is paid for by the branch, also if it is empty
      simp only [Stmt.weight, Bool.toNat_true]
      omega
    · split
      · have hflags := toNat_or_le (!yes.isEmpty) (dropUnreachable no).changed
        simp only [Stmt.weight, weightBody]
        omega
      · have hflags := toNat_or_le (dropUnreachable yes).changed (dropUnreachable no).changed
        simp only [Stmt.weight]
        omega
  | .call _ _ | .ret _ _ | .retUnit _ | .impossible _ | .impossibleBy _ _ => Nat.le_refl _

theorem weight_dropUnreachable : ∀ b : Body p,
    weightBody (dropUnreachable b).result + (dropUnreachable b).changed.toNat ≤ weightBody b
  | [] => Nat.le_refl _
  | s :: rest => by
    have hs := s.weight_dropUnreachable
    rw [dropUnreachable]
    split
    · have hempty := isEmpty_toNat_le_weightBody rest
      have hflags := toNat_or_le s.dropUnreachable.changed (!rest.isEmpty)
      simp only [weightBody]
      omega
    · have hrest := weight_dropUnreachable rest
      have hflags := toNat_or_le s.dropUnreachable.changed (dropUnreachable rest).changed
      simp only [weightBody]
      omega

end

end

theorem lightens_dropUnreachable {b : Body .checked} (hb : NoAbs (nodesBody b)) :
    (Subject.stmts b).Lightens (.stmts (dropUnreachable b).result) (dropUnreachable b).changed :=
  ⟨hb.body_of_subset (bodyTerms_dropUnreachable_subset b), weight_dropUnreachable b⟩

theorem PrunesIf.weight_le {cond : Checked} {yes : Body .checked} {no : Option (Body .checked)}
    {rest spliced : Body .checked} {dropRest : Bool}
    (h : PrunesIf cond yes rest no spliced dropRest) :
    weightBody spliced ≤ weightBody yes + weightBody (no.getD []) := by
  cases h with
  | literalTrue | first | take => exact Nat.le_add_right _ _
  | literalFalse | second => exact Nat.le_add_left _ _

/-- The statements that take the place of one are lighter. -/
theorem Stmt.weight_of_prune? {s : Stmt .checked} {rest spliced : Body .checked} {dropRest : Bool}
    (h : s.prune? rest = some (spliced, dropRest)) : weightBody spliced < s.weight := by
  cases s with
  | call m x =>
    simp only [Stmt.prune?] at h
    split at h
    · cases h
    · cases h
      exact Nat.succ_pos _
  | ifThen m cond yes =>
    have hif : PrunesIf cond yes rest none spliced dropRest := prunesIf_of_outcomeOfIf? h
    have hle : weightBody spliced ≤ weightBody yes := hif.weight_le
    rw [Stmt.weight]
    omega
  | ifElse m cond yes no =>
    have hif : PrunesIf cond yes rest (some no) spliced dropRest := prunesIf_of_outcomeOfIf? h
    have hle : weightBody spliced ≤ weightBody yes + weightBody no := hif.weight_le
    rw [Stmt.weight]
    omega
  | _ => cases h

theorem weight_pruneStmts : ∀ b : Body .checked,
    weightBody (pruneStmts b).result + (pruneStmts b).changed.toNat ≤ weightBody b
  | [] => Nat.le_refl _
  | s :: rest => by
    have hrest := weight_pruneStmts rest
    rw [pruneStmts]
    split
    · next hprune =>
      have hlt := Stmt.weight_of_prune? hprune
      simp only [weightBody, Bool.toNat_true]
      omega
    · next hprune =>
      have hlt := Stmt.weight_of_prune? hprune
      simp only [weightBody, weightBody_append, Bool.toNat_true]
      omega
    · simp only [weightBody]
      omega

theorem lightens_pruneStmts {b : Body .checked} (hb : NoAbs (nodesBody b)) :
    (Subject.stmts b).Lightens (.stmts (pruneStmts b).result) (pruneStmts b).changed :=
  ⟨hb.body_of_subset (bodyTerms_pruneStmts_subset b), weight_pruneStmts b⟩

/-! ## Passes -/

section
variable {env : Env} {stack : List GlobalName}

/-- Two parts that are rewritten one after the other. -/
theorem Subject.Lightens.both {a a' b b' : Subject} {c d : Bool} (ha : a.Lightens a' c)
    (hb : b.Lightens b' d) : NoAbs (a'.nodes ++ b'.nodes) ∧
      a'.weight + b'.weight + (c || d).toNat ≤ a.weight + b.weight := by
  refine ⟨noAbs_append.mpr ⟨ha.1, hb.1⟩, ?_⟩
  have hflags := toNat_or_le c d
  have h₁ := ha.2
  have h₂ := hb.2
  omega

/-- The node above the parts that are rewritten. -/
theorem lightens_parts {note : Note .checked Checked} {f f' : Form .checked} {c : Bool}
    (hroot : f'.isAbs = false) (h : NoAbs f'.nodes ∧ f'.weight + c.toNat ≤ f.weight) :
    (Subject.parts (.mk note f)).Lightens (.parts (.mk note f')) c := by
  refine ⟨noAbs_cons.mpr ⟨hroot, h.1⟩, ?_⟩
  have hweight := h.2
  simp only [Subject.weight, Term.weight]
  omega

/-- The parts of a term are followed by a reduction at its root and an unfolding. -/
theorem lightens_termRound {t t₁ t₂ : Checked} {c₁ c₂ : Bool}
    (hparts : (Subject.parts t).Lightens (.parts t₁) c₁)
    (hcall : NoAbs (t₁.reduce env).result.nodes →
      (Subject.call (t₁.reduce env).result).Lightens (.call t₂) c₂) :
    (Subject.term t).Lightens (.term t₂) (c₁ || (t₁.reduce env).changed || c₂) := by
  have hreduce := hparts.trans (Term.lightens_reduce env hparts.1)
  exact hreduce.trans (hcall hreduce.1)

/-- The statements of a body are rewritten between the removal of those that are not reached and of
those with a known outcome. -/
theorem lightens_bodyRound {b b₁ : Body .checked} {c : Bool} (hb : NoAbs (nodesBody b))
    (hstmts : NoAbs (nodesBody (dropUnreachable b).result) →
      (Subject.stmts (dropUnreachable b).result).Lightens (.stmts b₁) c) :
    (Subject.body b).Lightens (.body (pruneStmts b₁).result)
      ((dropUnreachable b).changed || c || (pruneStmts b₁).changed) := by
  have hlive := lightens_dropUnreachable hb
  have hrewritten := hlive.trans (hstmts hlive.1)
  exact hrewritten.trans (lightens_pruneStmts hrewritten.1)

theorem Env.withoutInlining_eq_self (henv : env.inlineGlobals = false) :
    env.withoutInlining = env := by
  rw [Env.withoutInlining, ← henv]

/-- Where definitions are not unfolded, every pass over a tree without abstractions makes it
lighter, or reports no change. -/
theorem Rewrites.lightens (henv : env.inlineGlobals = false) {a b : Subject} {c : Bool}
    (h : Rewrites env stack a b c) : NoAbs a.nodes → a.Lightens b c := by
  induction h with
  | again _ _ hflags _ ihparts ihcall ihterm =>
    intro ha
    have hround := lightens_termRound (ihparts ha) ihcall
    rw [hflags] at hround
    exact hround.trans (ihterm hround.1)
  | done _ _ hflags ihparts ihcall =>
    intro ha
    exact hflags ▸ lightens_termRound (ihparts ha) ihcall
  | bodyAgain _ hflags _ ihstmts ihbody =>
    intro ha
    have hround := lightens_bodyRound ha ihstmts
    rw [hflags] at hround
    exact hround.trans (ihbody hround.1)
  | bodyDone _ hflags ihstmts =>
    intro ha
    exact hflags ▸ lightens_bodyRound ha ihstmts
  | unfold hunfold =>
    rw [← Env.withoutInlining_eq_self henv, Term.unfolding?_withoutInlining] at hunfold
    cases hunfold
  | atom | var | nil | fields | keep | stmtsNil | retUnit | impossible => exact .refl
  | unary _ ih | list _ ih => exact fun ha => lightens_parts rfl (ih (noAbs_cons.mp ha).2)
  | binary _ _ ihx ihy | app _ _ ihx ihy =>
    intro ha
    obtain ⟨hx, hy⟩ := noAbs_append.mp (noAbs_cons.mp ha).2
    exact lightens_parts rfl ((ihx hx).both (ihy hy))
  | @bind _ _ k _ _ _ _ ih =>
    intro ha
    obtain ⟨hroot, ht⟩ := noAbs_cons.mp ha
    refine lightens_parts ?_ (ih ht)
    cases k with
    | abs => cases hroot
    | sigma | pi => rfl
  | returns _ ih => exact ih
  | cons _ _ ih₁ ih₂ | runs _ _ ih₁ ih₂ | arg _ _ ih₁ ih₂ | stmtsNext _ _ _ ih₁ ih₂ =>
    intro ha
    obtain ⟨h₁, h₂⟩ := noAbs_append.mp ha
    exact (ih₁ h₁).both (ih₂ h₂)
  | stmtsStop _ _ ih =>
    intro ha
    obtain ⟨hs, hrest⟩ := noAbs_append.mp ha
    have hboth := (ih hs).both (.refl (a := .stmts _) hrest)
    rwa [Bool.or_false] at hboth
  | stmtCall _ ih | ret _ ih | impossibleBy _ ih =>
    intro ha
    have hx := ih ha
    refine ⟨hx.1, ?_⟩
    have hweight := hx.2
    simp only [Subject.weight, Stmt.weight] at hweight ⊢
    omega
  | ifThen _ _ ihcond ihyes =>
    intro ha
    obtain ⟨hcond, hyes⟩ := noAbs_append.mp ha
    have hboth := (ihcond hcond).both (ihyes hyes)
    refine ⟨hboth.1, ?_⟩
    have hweight := hboth.2
    simp only [Subject.weight, Stmt.weight] at hweight ⊢
    omega
  | @ifElse _ _ _ _ _ _ _ _ c d e _ _ _ ihcond ihyes ihno =>
    intro ha
    obtain ⟨hfirst, hno⟩ := noAbs_append.mp ha
    obtain ⟨hcond, hyes⟩ := noAbs_append.mp hfirst
    have hboth := (ihcond hcond).both (ihyes hyes)
    have helse := ihno hno
    refine ⟨noAbs_append.mpr ⟨hboth.1, helse.1⟩, ?_⟩
    have hflags := toNat_or_le (c || d) e
    have h₁ := hboth.2
    have h₂ := helse.2
    simp only [Subject.weight, Stmt.weight] at h₁ h₂ ⊢
    omega

/-! ## Rounds -/

open Rewriting (Yields)

/-- One round of rewriting a term: its parts, then its root. -/
def termRound (env : Env) (fuel : Nat) (stack : List GlobalName) (t : Checked) :
    Rewriting (Rewritten Checked) := do
  let parts ← normalizeParts env fuel stack t
  let root := parts.result.reduce env
  let unfold ← unfoldCall env fuel stack root.result
  return ⟨unfold.result, parts.changed || root.changed || unfold.changed⟩

/-- One round of rewriting a body: what is not reached, the statements, and what is pruned. -/
def bodyRound (env : Env) (fuel : Nat) (stack : List GlobalName) (b : Body .checked) :
    Rewriting (Rewritten (Body .checked)) := do
  let live := dropUnreachable b
  let stmts ← normalizeStmts env fuel stack live.result
  let pruned := pruneStmts stmts.result
  return ⟨pruned.result, live.changed || stmts.changed || pruned.changed⟩

/-- Go on with what a round has left if it has reported a change. -/
def Rewritten.andAgain {α : Type} (loop : α → Rewriting (Rewritten α)) (r : Rewritten α) :
    Rewriting (Rewritten α) :=
  if r.changed then do
    let again ← loop r.result
    return ⟨again.result, true⟩
  else
    return r

/-- Terms are rewritten in rounds. -/
theorem normalizeTerm_succ (env : Env) (n : Nat) (stack : List GlobalName) (t : Checked) :
    normalizeTerm env (n + 1) stack t =
      termRound env n stack t >>= Rewritten.andAgain (normalizeTerm env n stack) := by
  rw [normalizeTerm, termRound]
  simp only [bind_assoc, pure_bind]
  refine bind_congr fun parts => bind_congr fun unfold => ?_
  simp only [Rewritten.andAgain, Term.reduce, Bool.or_assoc]
  split
  · rfl
  · next h => rw [Bool.eq_false_iff.mpr h]

/-- Bodies are rewritten in rounds. -/
theorem normalizeBody_succ (env : Env) (n : Nat) (stack : List GlobalName) (b : Body .checked) :
    normalizeBody env (n + 1) stack b =
      bodyRound env n stack b >>= Rewritten.andAgain (normalizeBody env n stack) := by
  rw [normalizeBody, bodyRound]
  simp only [bind_assoc, pure_bind]
  refine bind_congr fun stmts => ?_
  simp only [Rewritten.andAgain]
  split
  · rfl
  · next h => rw [Bool.eq_false_iff.mpr h]

/-- A round makes a term lighter, or it reports no change and makes none. -/
theorem termRound_yields (henv : env.inlineGlobals = false) {t : Checked} (ht : NoAbs t.nodes)
    (fuel : Nat) : Yields (termRound env fuel stack t) fun r => NoAbs r.result.nodes ∧
      if r.changed then r.result.weight < t.weight else r.result = t := by
  obtain ⟨-, hparts, -, -, hcall, -⟩ := rewrites_of_run env fuel
  refine (hparts stack t).bind fun parts hparts => (hcall stack _).bind fun unfold hcall => .pure ?_
  have hround := lightens_termRound (hparts.lightens henv ht) (hcall.lightens henv)
  refine ⟨hround.1, ?_⟩
  split
  · next hflags => exact hround.lt hflags
  · next hflags =>
    have hdone := Rewrites.done hparts hcall (Bool.eq_false_iff.mpr hflags)
    injection hdone.eq_of_unchanged rfl with hsame
    exact hsame.symm

/-- A round makes a body lighter, or it reports no change and makes none. -/
theorem bodyRound_yields (henv : env.inlineGlobals = false) {b : Body .checked}
    (hb : NoAbs (nodesBody b)) (fuel : Nat) :
    Yields (bodyRound env fuel stack b) fun r => NoAbs (nodesBody r.result) ∧
      if r.changed then weightBody r.result < weightBody b else r.result = b := by
  obtain ⟨-, -, -, -, -, -, hstmts, -⟩ := rewrites_of_run env fuel
  refine (hstmts stack _).bind fun stmts hstmts => .pure ?_
  have hround := lightens_bodyRound hb (hstmts.lightens henv)
  refine ⟨hround.1, ?_⟩
  split
  · next hflags => exact hround.lt hflags
  · next hflags =>
    have hdone := Rewrites.bodyDone hstmts (Bool.eq_false_iff.mpr hflags)
    injection hdone.eq_of_unchanged rfl with hsame
    exact hsame.symm

/-! ## Enough fuel -/

/-- A rewriting has a result, and makes no attempt to unfold. -/
def Rewriting.Ends {α : Type} (m : Rewriting α) : Prop :=
  ∀ attempts, ∃ r, m.run attempts = some (r, attempts)

namespace Rewriting.Ends

variable {α β : Type}

theorem pure (a : α) : Ends (Pure.pure a) :=
  fun _ => ⟨a, rfl⟩

theorem bind_of_yields {m : Rewriting α} {f : α → Rewriting β} {P : α → Prop} (hm : Ends m)
    (hP : Yields m P) (hf : ∀ x, P x → Ends (f x)) : Ends (m >>= f) := by
  intro attempts
  obtain ⟨x, hx⟩ := hm attempts
  obtain ⟨y, hy⟩ := hf x (hP attempts x attempts hx) attempts
  exact ⟨y, by rw [StateT.run_bind, hx]; exact hy⟩

theorem bind {m : Rewriting α} {f : α → Rewriting β} (hm : Ends m) (hf : ∀ x, Ends (f x)) :
    Ends (m >>= f) :=
  hm.bind_of_yields (.any m) fun x _ => hf x

/-- A loop ends if its first round does, and if a round that reports a change has made something
smaller with which the loop ends. -/
theorem andAgain {round loop : Rewriting (Rewritten α)} {again : α → Rewriting (Rewritten α)}
    {P : Rewritten α → Prop} (hloop : loop = round >>= Rewritten.andAgain again)
    (hround : Ends round) (hP : Yields round P)
    (hagain : ∀ r, P r → r.changed → Ends (again r.result)) : Ends loop := by
  rw [hloop]
  refine hround.bind_of_yields hP fun r hr => ?_
  rw [Rewritten.andAgain]
  split
  · next hchanged => exact (hagain r hr hchanged).bind fun _ => .pure _
  · exact .pure r

end Rewriting.Ends

open Rewriting (Ends)

theorem unfoldCall_ends (henv : env.inlineGlobals = false) {fuel : Nat} (hfuel : 1 ≤ fuel)
    (t : Checked) : Ends (unfoldCall env fuel stack t) := by
  rw [← Env.withoutInlining_eq_self henv]
  exact fun attempts => ⟨_, unfoldCall_leaves hfuel stack t attempts⟩

/-- All passes over trees without abstractions end if there is fuel for three calls per unit of
weight: a node is reached through the passes over a list and over the parts of the node above. -/
theorem ends_of_noAbs (henv : env.inlineGlobals = false) (stack : List GlobalName) : ∀ n : Nat,
    (∀ t : Checked, NoAbs t.nodes → 3 * t.weight ≤ n → Ends (normalizeTerm env n stack t)) ∧
    (∀ t : Checked, NoAbs t.nodes → 3 * t.weight ≤ n + 1 →
      Ends (normalizeParts env n stack t)) ∧
    (∀ xs : List Checked, NoAbs (nodesList xs) → 3 * weightList xs + 1 ≤ n →
      Ends (normalizeList env n stack xs)) ∧
    (∀ (k : Binder) (t : Tele .checked k), NoAbs t.nodes → 3 * t.weight + 1 ≤ n →
      Ends (normalizeTele env n stack t)) ∧
    (∀ b : Body .checked, NoAbs (nodesBody b) → 3 * weightBody b + 2 ≤ n →
      Ends (normalizeBody env n stack b)) ∧
    (∀ b : Body .checked, NoAbs (nodesBody b) → 3 * weightBody b + 1 ≤ n →
      Ends (normalizeStmts env n stack b)) ∧
    (∀ s : Stmt .checked, NoAbs s.nodes → 3 * s.weight ≤ n →
      Ends (normalizeStmt env n stack s)) := by
  intro n
  induction n with
  | zero =>
    refine ⟨fun t _ h => ?_, fun t _ h => ?_, fun _ _ h => ?_, fun _ _ _ h => ?_, fun _ _ h => ?_,
      fun _ _ h => ?_, fun s _ h => ?_⟩
    · exact absurd t.weight_pos (by omega)
    · exact absurd t.weight_pos (by omega)
    · cases h
    · cases h
    · cases h
    · cases h
    · exact absurd s.weight_pos (by omega)
  | succ n ih =>
    obtain ⟨term, parts, list, tele, body, stmts, stmt⟩ := ih
    refine ⟨fun t ht hn => ?_, fun t ht hn => ?_, fun xs hxs hn => ?_, fun k t ht hn => ?_,
      fun b hb hn => ?_, fun b hb hn => ?_, fun s hs hn => ?_⟩
    · have hpos := t.weight_pos
      have hround : Ends (termRound env n stack t) :=
        (parts t ht hn).bind fun _ => (unfoldCall_ends henv (by omega) _).bind fun _ => .pure _
      refine .andAgain (normalizeTerm_succ ..) hround (termRound_yields henv ht n) fun r hr h => ?_
      obtain ⟨hnodes, hweight⟩ := hr
      rw [if_pos h] at hweight
      exact term _ hnodes (by omega)
    · obtain ⟨note, form⟩ := t
      have hparts := (noAbs_cons.mp ht).2
      cases form with
      | atom | var => exact .pure _
      | unary op x =>
        simp only [Term.weight, Form.weight] at hn
        exact (term x hparts (by omega)).bind fun _ => .pure _
      | binary op x y =>
        obtain ⟨hx, hy⟩ := noAbs_append.mp hparts
        simp only [Term.weight, Form.weight] at hn
        exact (term x hx (by omega)).bind fun _ => (term y hy (by omega)).bind fun _ => .pure _
      | app f args =>
        obtain ⟨hf, hargs⟩ := noAbs_append.mp hparts
        simp only [Term.weight, Form.weight] at hn
        exact (term f hf (by omega)).bind fun _ =>
          (list args hargs (by omega)).bind fun _ => .pure _
      | list xs =>
        simp only [Term.weight, Form.weight] at hn
        exact (list xs hparts (by omega)).bind fun _ => .pure _
      | bind k t =>
        simp only [Term.weight, Form.weight] at hn
        exact (tele k t hparts (by omega)).bind fun _ => .pure _
    · cases xs with
      | nil => exact .pure _
      | cons x xs =>
        obtain ⟨hx, hrest⟩ := noAbs_append.mp hxs
        have hpos := x.weight_pos
        simp only [weightList] at hn
        exact (term x hx (by omega)).bind fun _ => (list xs hrest (by omega)).bind fun _ => .pure _
    · cases t with
      | fields => exact .pure _
      | returns m ret =>
        simp only [Tele.weight] at hn
        exact (term ret ht (by omega)).bind fun _ => .pure _
      | runs m ret b =>
        obtain ⟨hret, hb⟩ := noAbs_append.mp ht
        have hpos := ret.weight_pos
        simp only [Tele.weight] at hn
        exact (term ret hret (by omega)).bind fun _ => (body b hb (by omega)).bind fun _ => .pure _
      | arg mark qty ty v rest =>
        obtain ⟨hty, hrest⟩ := noAbs_append.mp ht
        have hpos := ty.weight_pos
        simp only [Tele.weight] at hn
        exact (term ty hty (by omega)).bind fun _ =>
          (tele k rest hrest (by omega)).bind fun _ => .pure _
    · have hlive := lightens_dropUnreachable hb
      have hle : weightBody (dropUnreachable b).result ≤ weightBody b :=
        Nat.le_of_add_right_le hlive.2
      have hround : Ends (bodyRound env n stack b) :=
        (stmts _ hlive.1 (by omega)).bind fun _ => .pure _
      refine .andAgain (normalizeBody_succ ..) hround (bodyRound_yields henv hb n) fun r hr h => ?_
      obtain ⟨hnodes, hweight⟩ := hr
      rw [if_pos h] at hweight
      exact body _ hnodes (by omega)
    · cases b with
      | nil => exact .pure _
      | cons s rest =>
        obtain ⟨hs, hrest⟩ := noAbs_append.mp hb
        have hpos := s.weight_pos
        simp only [weightBody] at hn
        rw [normalizeStmts]
        refine (stmt s hs (by omega)).bind fun s' => ?_
        split
        · exact .pure _
        · exact (stmts rest hrest (by omega)).bind fun _ => .pure _
    · cases s with
      | call m x | ret m x | impossibleBy m x =>
        simp only [Stmt.weight] at hn
        exact (term x hs (by omega)).bind fun _ => .pure _
      | ifThen m cond yes =>
        obtain ⟨hcond, hyes⟩ := noAbs_append.mp hs
        simp only [Stmt.weight] at hn
        exact (term cond hcond (by omega)).bind fun _ =>
          (body yes hyes (by omega)).bind fun _ => .pure _
      | ifElse m cond yes no =>
        obtain ⟨hfirst, hno⟩ := noAbs_append.mp hs
        obtain ⟨hcond, hyes⟩ := noAbs_append.mp hfirst
        simp only [Stmt.weight] at hn
        refine (term cond hcond (by omega)).bind fun _ => ?_
        refine (body yes hyes (by omega)).bind fun _ => ?_
        exact (body no hno (by omega)).bind fun _ => .pure _
      | retUnit | impossible => exact .pure _

end

/-- Without abstractions and unfolding, normalisation of a term or body ends: there is a fuel from
which on it has a result. It does so because all its rounds, those at the nodes inside included,
share a measure. A round that reports a change makes the tree lighter, and one that reports none
leaves it as it is. -/
theorem normalization_ends_without_abstractions {env : Env} (henv : env.inlineGlobals = false)
    (stack : List GlobalName) :
    (∀ t : Checked, NoAbs t.nodes →
      (∀ fuel attempts, 3 * t.weight ≤ fuel →
        ∃ u, (normalizeTerm env fuel stack t).run attempts = some (u, attempts)) ∧
      ∀ fuel attempts r left, (termRound env fuel stack t).run attempts = some (r, left) →
        NoAbs r.result.nodes ∧
          if r.changed then r.result.weight < t.weight else r.result = t) ∧
    (∀ b : Body .checked, NoAbs (nodesBody b) →
      (∀ fuel attempts, 3 * weightBody b + 2 ≤ fuel →
        ∃ u, (normalizeBody env fuel stack b).run attempts = some (u, attempts)) ∧
      ∀ fuel attempts r left, (bodyRound env fuel stack b).run attempts = some (r, left) →
        NoAbs (nodesBody r.result) ∧
          if r.changed then weightBody r.result < weightBody b else r.result = b) := by
  refine ⟨fun t ht => ⟨fun fuel attempts hfuel => ?_, fun fuel => ?_⟩,
    fun b hb => ⟨fun fuel attempts hfuel => ?_, fun fuel => ?_⟩⟩
  · obtain ⟨hterm, -⟩ := ends_of_noAbs henv stack fuel
    exact hterm t ht hfuel attempts
  · exact termRound_yields henv ht fuel
  · obtain ⟨-, -, -, -, hbody, -⟩ := ends_of_noAbs henv stack fuel
    exact hbody b hb hfuel attempts
  · exact bodyRound_yields henv hb fuel

/-- In the first round, `if (true) { h(); } else { } return {3, 4}[0];` becomes `h(); return 3;`.
The second round reports no change. -/
theorem normalization_ends_after_two_rounds :
    let env : Env := { inlineGlobals := false }
    let num (k : Int) : Checked := Checked.term Checked.u64 (.atom (.num k))
    let h : Checked := Checked.term (Checked.pi (.returns .yes Checked.u64)) (.var { name := "h" })
    let call : Stmt .checked := .call () (Checked.term Checked.u64 (.app h []))
    let pair : Checked := Checked.term Checked.u64 (.list [num 3, num 4])
    let body : Body .checked :=
      [.ifElse () (Checked.term Checked.bool (.atom (.lit true))) [call] [],
        .ret () (Checked.term Checked.u64 (.binary .subscript pair (num 0)))]
    let normal : Body .checked := [call, .ret () (num 3)]
    NoAbs (nodesBody body) ∧ weightBody body = 13 ∧
      (∃ u, (normalizeBody env 41 [] body).run 0 = some (u, 0)) ∧
      (bodyRound env 40 [] body).run 0 = some (⟨normal, true⟩, 0) ∧
      weightBody normal < weightBody body ∧
      (bodyRound env 39 [] normal).run 0 = some (⟨normal, false⟩, 0) := by
  intro env num h call pair body normal
  have henv : env.inlineGlobals = false := rfl
  have hbody : NoAbs (nodesBody body) := by decide
  have hround : (bodyRound env 40 [] body).run 0 = some (⟨normal, true⟩, 0) := by rfl
  obtain ⟨hends, hrounds⟩ := (normalization_ends_without_abstractions henv []).2 body hbody
  exact ⟨hbody, by decide, hends 41 0 (by decide), hround, (hrounds 40 0 _ 0 hround).2, by rfl⟩

end DependentCore
