import DependentCore.Proofs.Typing.Everywhere

/-!
# Trees that the checker returns

A term is checked in a context, and maybe against a type. The types in the context and the type that
is asked for come from the checker as well: `Env.Opens` are the contexts that can be set up in an
environment, and `Env.Returns` the terms that are returned in them. What the checker maintains holds
everywhere in all of them, without an assumption about the context.

* `Env.Opens`, `Env.Returns`: what can be set up, and what is returned,
* `Env.Returns.everywhere`: what the checker maintains holds of everything returned.
-/

namespace DependentCore

mutual

/-- The contexts that can be set up: scopes are opened, variables are declared as types or with
types that the checker has returned, and facts are assumed. -/
inductive Env.Opens (env : Env) : Context → Prop where
  | empty : env.Opens {}
  | newScope {ctx} (m : Mutability) : env.Opens ctx → env.Opens (ctx.newScopeOf m)
  | declareType {ctx ctx' v origin} : env.Opens ctx → ctx.declare v ⟨origin, .type⟩ = .ok ctx' →
    env.Opens ctx'
  | declareTerm {ctx ctx' v origin qty ty} : env.Opens ctx → env.Returns ty →
    ctx.declare v ⟨origin, .term qty ty⟩ = .ok ctx' → env.Opens ctx'
  | assume {ctx} (fact : Checked) : env.Opens ctx → env.Opens (ctx.assume fact)

/-- The terms that the checker returns in such contexts, and their sorts. A term is checked against
a type that was returned before. -/
inductive Env.Returns (env : Env) : Checked → Prop where
  | assign {fuel ctx e t} : env.Opens ctx → env.assign fuel ctx e = .ok t → env.Returns t
  | check {fuel ctx e ty t} : env.Opens ctx → env.Returns ty → env.check fuel ctx e ty = .ok t →
    env.Returns t
  | checkType {fuel ctx e t} : env.Opens ctx → env.checkType fuel ctx e = .ok t → env.Returns t
  | sort {t ty} : env.Returns t → t.sort? = some ty → env.Returns ty

end

section
variable {env : Env} {P : Checked → Prop}

theorem Context.Everywhere.declare {ctx ctx' : Context} (h : ctx.Everywhere P) {v : Var}
    {d : Declaration} (hctx' : ctx.declare v d = .ok ctx') (hd : d.meaning.Everywhere P) :
    ctx'.Everywhere P := by
  unfold Context.declare at hctx'
  split at hctx'
  · cases hctx'
  · cases hctx'
    exact h.withDecl v hd

mutual

theorem Env.Opens.everywhere (hP : NodeInvariant env P) : ∀ {ctx : Context}, env.Opens ctx →
    ctx.Everywhere P
  | _, .empty => .empty
  | _, .newScope m h => (h.everywhere hP).newScopeOf m
  | _, .declareType h hctx' => (h.everywhere hP).declare hctx' trivial
  | _, .declareTerm h hty hctx' => (h.everywhere hP).declare hctx' (hty.everywhere hP)
  | _, .assume fact h => (h.everywhere hP).assume fact

/-- What the checker maintains holds everywhere in what it returns. -/
theorem Env.Returns.everywhere (hP : NodeInvariant env P) : ∀ {t : Checked}, env.Returns t →
    t.Everywhere P
  | _, .assign h ht => (Term.accepts_of_elaborate _ ht).everywhere hP (h.everywhere hP) .assign
  | _, .check h hty ht =>
    (Term.accepts_of_elaborate _ ht).everywhere hP (h.everywhere hP) (.check (hty.everywhere hP))
  | _, .checkType h ht =>
    (Term.accepts_of_elaborate _ ht).everywhere hP (h.everywhere hP) hP.mode_type
  | _, .sort h hty => (h.everywhere hP).sort hty

end

/-- It also holds everywhere in bodies. -/
theorem Env.everywhere_checkBody (hP : NodeInvariant env P) {fuel : Nat} {ctx : Context}
    (hctx : ctx.Everywhere P) {ret : Checked} (hret : ret.Everywhere P) {b : Body .written}
    {b' : Body .checked} (h : env.checkBody fuel ctx b ret = .ok b') : EverywhereBody P b' :=
  (acceptsBody_of_elaborate b h).everywhere hP hctx.newScope hret

end

end DependentCore
