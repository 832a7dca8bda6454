import DependentCore.Proofs.Binding.Nameless
import DependentCore.Proofs.Globals.Stored
import DependentCore.Proofs.Typing.Runs
import DependentCore.Proofs.Typing.Vocabulary
import DependentCore.Syntax.Equality

/-!
# Checking does not depend on bound names

Let two written terms be equal up to bound names, and let the bound variables of the second be
those of the first relabeled. Then both are accepted or neither is, and what they are checked to is
equal up to bound names again.

The relabeling must leave alone what is not bound: the globals, the variables in scope, the facts
that are assumed, and the names of fields, since members are selected by name. It takes different
names to different ones: types in scope mention variables by name, so that a variable that is bound
again is taken for the outer one there (`assign_depends_on_bound_names`).

* `Term.relabels_of_alphaEq`: such terms correspond in the sense of `Term.Relabels`,
* `Context.Unchanged.contexts`: a context that is not changed corresponds to itself,
* `assign_alphaEq`: the two checks agree.
-/

namespace DependentCore

variable {p : Phase}

/-! ## Corresponding terms -/

section

variable {σ : Relabeling}

/-- A known variable is paired with what it is changed to only. -/
theorem Relabeling.eq_of_sameVar_paired {bound : List (Option Var)} {x y : Var}
    (hx : (σ.fixed bound).var x) (h : (σ.paired bound).sameVar x y) : y = x.relabel σ := by
  induction bound with
  | nil =>
    have hfixed : x.relabel σ = x := hx.resolve_left List.not_mem_nil
    have hxy : x = y := of_decide_eq_true h
    rw [hfixed, hxy]
  | cons v bound ih =>
    simp only [Relabeling.paired, List.map_cons, Paired.sameVar] at h
    split at h
    · obtain ⟨rfl, hy⟩ := of_decide_eq_true h
      exact (Option.some.inj hy).symm
    · next hne =>
      refine ih ?_ h
      refine hx.imp (fun hmem => ?_) id
      exact (List.mem_cons.mp hmem).resolve_left fun hv => hne (.inl hv.symm)

/-- The end of a telescope shows which binder it belongs to. -/
theorem Tele.binder_eq_of_alphaEqUnder {k l : Binder} : ∀ {st : Paired} {t : Tele p k}
    {u : Tele p l}, t.alphaEqUnder st u → k = l
  | _, .fields, u, h => by
    cases u with
    | fields => rfl
    | _ => cases h
  | _, .returns _ _, u, h => by
    cases u with
    | returns => rfl
    | _ => cases h
  | _, .runs _ _ _, u, h => by
    cases u with
    | runs => rfl
    | _ => cases h
  | _, .arg _ _ _ _ _, u, h => by
    cases u with
    | arg => exact Tele.binder_eq_of_alphaEqUnder (Bool.and_eq_true_iff.mp h).2
    | _ => cases h

/-- Where the function that is built in is mentioned, its signature is not changed. -/
def Relabeling.Respects (σ : Relabeling) (ts : List Written) : Prop :=
  ∀ t ∈ ts, t.form = .atom (.global sliceName) → Checked.slice.relabel σ = Checked.slice

/-- A set has all globals, except perhaps the function that is built in if its signature is
changed. -/
def Relabeling.Admits (σ : Relabeling) (G : GlobalName → Prop) : Prop :=
  ∀ g, (g = sliceName → Checked.slice.relabel σ = Checked.slice) → G g

section
variable {G : GlobalName → Prop}

mutual

/-- Terms that are equal up to bound names correspond, if their bound variables do. The bound
variables are compared from the left, so the lists `us` and `vs` of what follows agree. -/
theorem Term.relabels_of_alphaEq (hG : σ.Admits G) : ∀ (a : Written) {b : Written}
    {bound us vs : List (Option Var)} {V : Var → Prop}, (∀ v, V v) →
      a.alphaEqUnder (σ.paired bound) b → a.Known (σ.fixed bound) → σ.Respects a.nodes →
      a.boundVars.map (Option.map (Var.relabel σ)) ++ us = b.boundVars ++ vs →
      a.Relabels σ G V b ∧ us = vs
  | .mk (.place _ _) f, .mk (.place _ _) g, _, _, _, _, hV, h, hk, hslice, hvars => by
    obtain ⟨hf, hend⟩ := Form.relabels_of_alphaEq hG f hV h hk.2
      (fun ha => hslice _ (.head _) ha) (List.forall_mem_cons.mp hslice).2 hvars
    exact ⟨.mk hf, hend⟩
termination_by structural a => a

theorem Form.relabels_of_alphaEq (hG : σ.Admits G) : ∀ (f : Form .written) {g : Form .written}
    {bound us vs : List (Option Var)} {V : Var → Prop}, (∀ v, V v) →
      f.alphaEqUnder (σ.paired bound) g → f.Known (σ.fixed bound) →
      (f = .atom (.global sliceName) → Checked.slice.relabel σ = Checked.slice) →
      σ.Respects f.nodes →
      f.boundVars.map (Option.map (Var.relabel σ)) ++ us = g.boundVars ++ vs →
      f.Relabels σ G V g ∧ us = vs
  | .atom a, g, _, _, _, _, hV, h, _, hself, _, hvars => by
    cases g with
    | atom b =>
      obtain rfl : a = b := of_decide_eq_true h
      refine ⟨.atom fun g ha => hG g fun hg => hself ?_, hvars⟩
      rw [ha, hg]
    | _ => cases h
  | .var x, g, _, _, _, _, hV, h, hk, _, _, hvars => by
    cases g with
    | var y =>
      obtain rfl := Relabeling.eq_of_sameVar_paired hk h
      exact ⟨.var (hV x), hvars⟩
    | _ => cases h
  | .unary op x, g, _, _, _, _, hV, h, hk, _, hslice, hvars => by
    cases g with
    | unary op' y =>
      simp only [Form.alphaEqUnder, Bool.and_eq_true, decide_eq_true_eq] at h
      obtain ⟨rfl, h⟩ := h
      obtain ⟨hx, hend⟩ := Term.relabels_of_alphaEq hG x hV h hk.2 hslice hvars
      have hf := @Form.Relabels.unary σ G _ op _ _ hx
      rw [op.relabel_eq_of_known σ hk.1] at hf
      exact ⟨hf, hend⟩
    | _ => cases h
  | .binary op x₁ x₂, g, _, _, _, _, hV, h, hk, _, hslice, hvars => by
    cases g with
    | binary op' y₁ y₂ =>
      simp only [Form.alphaEqUnder, Bool.and_eq_true, decide_eq_true_eq] at h
      obtain ⟨⟨rfl, h₁⟩, h₂⟩ := h
      simp only [Form.boundVars, List.map_append, List.append_assoc] at hvars
      obtain ⟨hslice₁, hslice₂⟩ := List.forall_mem_append.mp hslice
      obtain ⟨hx₁, hvars⟩ := Term.relabels_of_alphaEq hG x₁ hV h₁ hk.1 hslice₁ hvars
      obtain ⟨hx₂, hend⟩ := Term.relabels_of_alphaEq hG x₂ hV h₂ hk.2 hslice₂ hvars
      exact ⟨.binary hx₁ hx₂, hend⟩
    | _ => cases h
  | .app f xs, g, _, _, _, _, hV, h, hk, _, hslice, hvars => by
    cases g with
    | app f' ys =>
      simp only [Form.alphaEqUnder, Bool.and_eq_true] at h
      simp only [Form.boundVars, List.map_append, List.append_assoc] at hvars
      obtain ⟨hslice₁, hslice₂⟩ := List.forall_mem_append.mp hslice
      obtain ⟨hf, hvars⟩ := Term.relabels_of_alphaEq hG f hV h.1 hk.1 hslice₁ hvars
      obtain ⟨hxs, hend⟩ := relabelsList_of_alphaEq hG xs hV h.2 hk.2 hslice₂ hvars
      exact ⟨.app hf hxs, hend⟩
    | _ => cases h
  | .list xs, g, _, _, _, _, hV, h, hk, _, hslice, hvars => by
    cases g with
    | list ys =>
      obtain ⟨hxs, hend⟩ := relabelsList_of_alphaEq hG xs hV h hk hslice hvars
      exact ⟨.list hxs, hend⟩
    | _ => cases h
  | .bind k t, g, _, _, _, _, hV, h, hk, _, hslice, hvars => by
    cases g with
    | bind l u =>
      obtain rfl := Tele.binder_eq_of_alphaEqUnder (t := t) (u := u) h
      obtain ⟨ht, hend⟩ := Tele.relabels_of_alphaEq hG t hV h hk hslice hvars
      exact ⟨.bind ht, hend⟩
    | _ => cases h
termination_by structural f => f

theorem relabelsList_of_alphaEq (hG : σ.Admits G) : ∀ (xs : List Written) {ys : List Written}
    {bound us vs : List (Option Var)} {V : Var → Prop}, (∀ v, V v) →
      alphaEqList (σ.paired bound) xs ys → KnownList (σ.fixed bound) xs →
      σ.Respects (nodesList xs) →
      (boundVarsList xs).map (Option.map (Var.relabel σ)) ++ us = boundVarsList ys ++ vs →
      RelabelsList σ G V xs ys ∧ us = vs
  | [], ys, _, _, _, _, hV, h, _, _, hvars => by
    cases ys with
    | nil => exact ⟨.nil, hvars⟩
    | cons => cases h
  | x :: xs, ys, _, _, _, _, hV, h, hk, hslice, hvars => by
    cases ys with
    | nil => cases h
    | cons y ys =>
      simp only [alphaEqList, Bool.and_eq_true] at h
      simp only [boundVarsList, List.map_append, List.append_assoc] at hvars
      obtain ⟨hslice₁, hslice₂⟩ := List.forall_mem_append.mp hslice
      obtain ⟨hx, hvars⟩ := Term.relabels_of_alphaEq hG x hV h.1 hk.1 hslice₁ hvars
      obtain ⟨hxs, hend⟩ := relabelsList_of_alphaEq hG xs hV h.2 hk.2 hslice₂ hvars
      exact ⟨.cons hx hxs, hend⟩
termination_by structural xs => xs

theorem Tele.relabels_of_alphaEq {k : Binder} (hG : σ.Admits G) :
    ∀ (t : Tele .written k) {u : Tele .written k}
    {bound us vs : List (Option Var)} {V : Var → Prop}, (∀ v, V v) →
      t.alphaEqUnder (σ.paired bound) u → t.Known (σ.fixed bound) → σ.Respects t.nodes →
      t.boundVars.map (Option.map (Var.relabel σ)) ++ us = u.boundVars ++ vs →
      t.Relabels σ G V u ∧ us = vs
  | .fields, u, _, _, _, _, hV, h, _, _, hvars => by
    cases u with
    | fields => exact ⟨.fields, hvars⟩
    | arg => cases h
  | .returns _ ret, u, _, _, _, _, hV, h, hk, hslice, hvars => by
    cases u with
    | returns _ ret' =>
      simp only [Tele.alphaEqUnder, Bool.and_eq_true, decide_eq_true_eq] at h
      obtain ⟨rfl, h⟩ := h
      obtain ⟨hret, hend⟩ := Term.relabels_of_alphaEq hG ret hV h hk hslice hvars
      exact ⟨.returns hret, hend⟩
    | arg => cases h
  | .runs _ ret body, u, _, _, _, _, hV, h, hk, hslice, hvars => by
    cases u with
    | runs _ ret' body' =>
      simp only [Tele.alphaEqUnder, Bool.and_eq_true, decide_eq_true_eq] at h
      obtain ⟨⟨rfl, h₁⟩, h₂⟩ := h
      simp only [Tele.boundVars, List.map_append, List.append_assoc] at hvars
      obtain ⟨hslice₁, hslice₂⟩ := List.forall_mem_append.mp hslice
      obtain ⟨hret, hvars⟩ := Term.relabels_of_alphaEq hG ret hV h₁ hk.1 hslice₁ hvars
      obtain ⟨hbody, hend⟩ := relabelsBody_of_alphaEq hG body hV h₂ hk.2 hslice₂ hvars
      exact ⟨.runs hret hbody, hend⟩
    | arg => cases h
  | .arg _ _ ty v rest, u, bound, _, _, V, hV, h, hk, hslice, hvars => by
    cases u with
    | arg _ _ ty' v' rest' =>
      simp only [Tele.alphaEqUnder, Bool.and_eq_true, decide_eq_true_eq] at h
      obtain ⟨⟨rfl, h₁⟩, h₂⟩ := h
      simp only [Tele.boundVars, List.map_append, List.append_assoc, List.map_cons,
        List.cons_append] at hvars
      obtain ⟨hslice₁, hslice₂⟩ := List.forall_mem_append.mp hslice
      obtain ⟨hty, hvars⟩ := Term.relabels_of_alphaEq hG ty hV h₁ hk.1 hslice₁ hvars
      -- the variables of the type are used up, so that the next two are those of the argument
      obtain ⟨rfl, hlater⟩ := List.cons.inj hvars
      have h₂ : rest.alphaEqUnder (σ.paired (v :: bound)) rest' := h₂
      have hknown : rest.Known (σ.fixed (v :: bound)) := hk.2.2.mono (σ.without_bind_fixed v bound)
      have hV' (w : Var) : v = some w ∨ V w := .inr (hV w)
      obtain ⟨hrest, hend⟩ := Tele.relabels_of_alphaEq hG rest hV' h₂ hknown hslice₂ hlater
      exact ⟨.arg hty hrest, hend⟩
    | _ => cases h
termination_by structural t => t

theorem Stmt.relabels_of_alphaEq (hG : σ.Admits G) : ∀ (s : Stmt .written) {s' : Stmt .written}
    {bound us vs : List (Option Var)} {V : Var → Prop}, (∀ v, V v) →
      s.alphaEqUnder (σ.paired bound) s' → s.Known (σ.fixed bound) → σ.Respects s.nodes →
      s.boundVars.map (Option.map (Var.relabel σ)) ++ us = s'.boundVars ++ vs →
      s.Relabels σ G V s' ∧ us = vs
  | .call _ x, s', _, _, _, _, hV, h, hk, hslice, hvars => by
    cases s' with
    | call _ y =>
      obtain ⟨hx, hend⟩ := Term.relabels_of_alphaEq hG x hV h hk hslice hvars
      exact ⟨.call hx, hend⟩
    | _ => cases h
  | .ifThen _ cond yes, s', _, _, _, _, hV, h, hk, hslice, hvars => by
    cases s' with
    | ifThen _ cond' yes' =>
      simp only [Stmt.alphaEqUnder, Bool.and_eq_true] at h
      simp only [Stmt.boundVars, List.map_append, List.append_assoc] at hvars
      obtain ⟨hslice₁, hslice₂⟩ := List.forall_mem_append.mp hslice
      obtain ⟨hcond, hvars⟩ := Term.relabels_of_alphaEq hG cond hV h.1 hk.1 hslice₁ hvars
      obtain ⟨hyes, hend⟩ := relabelsBody_of_alphaEq hG yes hV h.2 hk.2 hslice₂ hvars
      exact ⟨.ifThen hcond hyes, hend⟩
    | _ => cases h
  | .ifElse _ cond yes no, s', _, _, _, _, hV, h, hk, hslice, hvars => by
    cases s' with
    | ifElse _ cond' yes' no' =>
      simp only [Stmt.alphaEqUnder, Bool.and_eq_true] at h
      obtain ⟨⟨h₁, h₂⟩, h₃⟩ := h
      simp only [Stmt.boundVars, List.map_append, List.append_assoc] at hvars
      obtain ⟨hslice, hslice₃⟩ := List.forall_mem_append.mp hslice
      obtain ⟨hslice₁, hslice₂⟩ := List.forall_mem_append.mp hslice
      obtain ⟨hcond, hvars⟩ := Term.relabels_of_alphaEq hG cond hV h₁ hk.1 hslice₁ hvars
      obtain ⟨hyes, hvars⟩ := relabelsBody_of_alphaEq hG yes hV h₂ hk.2.1 hslice₂ hvars
      obtain ⟨hno, hend⟩ := relabelsBody_of_alphaEq hG no hV h₃ hk.2.2 hslice₃ hvars
      exact ⟨.ifElse hcond hyes hno, hend⟩
    | _ => cases h
  | .ret _ x, s', _, _, _, _, hV, h, hk, hslice, hvars => by
    cases s' with
    | ret _ y =>
      obtain ⟨hx, hend⟩ := Term.relabels_of_alphaEq hG x hV h hk hslice hvars
      exact ⟨.ret hx, hend⟩
    | _ => cases h
  | .retUnit _, s', _, _, _, _, hV, h, _, _, hvars => by
    cases s' with
    | retUnit => exact ⟨.retUnit, hvars⟩
    | _ => cases h
  | .impossible _, s', _, _, _, _, hV, h, _, _, hvars => by
    cases s' with
    | impossible => exact ⟨.impossible, hvars⟩
    | _ => cases h
  | .impossibleBy _ x, s', _, _, _, _, hV, h, hk, hslice, hvars => by
    cases s' with
    | impossibleBy _ y =>
      obtain ⟨hx, hend⟩ := Term.relabels_of_alphaEq hG x hV h hk hslice hvars
      exact ⟨.impossibleBy hx, hend⟩
    | _ => cases h
termination_by structural s => s

theorem relabelsBody_of_alphaEq (hG : σ.Admits G) :
    ∀ (b : List (Stmt .written)) {b' : List (Stmt .written)}
    {bound us vs : List (Option Var)} {V : Var → Prop}, (∀ v, V v) →
      alphaEqBody (σ.paired bound) b b' → KnownBody (σ.fixed bound) b → σ.Respects (nodesBody b) →
      (boundVarsBody b).map (Option.map (Var.relabel σ)) ++ us = boundVarsBody b' ++ vs →
      RelabelsBody σ G V b b' ∧ us = vs
  | [], b', _, _, _, _, hV, h, _, _, hvars => by
    cases b' with
    | nil => exact ⟨.nil, hvars⟩
    | cons => cases h
  | s :: b, b', _, _, _, _, hV, h, hk, hslice, hvars => by
    cases b' with
    | nil => cases h
    | cons s' b' =>
      simp only [alphaEqBody, Bool.and_eq_true] at h
      simp only [boundVarsBody, List.map_append, List.append_assoc] at hvars
      obtain ⟨hslice₁, hslice₂⟩ := List.forall_mem_append.mp hslice
      obtain ⟨hs, hvars⟩ := Stmt.relabels_of_alphaEq hG s hV h.1 hk.1 hslice₁ hvars
      obtain ⟨hb, hend⟩ := relabelsBody_of_alphaEq hG b hV h.2 hk.2 hslice₂ hvars
      exact ⟨.cons hs hb, hend⟩
termination_by structural b => b

end

end

/-! ## What is not changed is known -/

mutual

/-- The names of a term that a relabeling does not change are not changed. -/
theorem Term.known_of_relabel_eq : ∀ {t : Term p}, t.relabel σ = t → t.Known (σ.fixed [])
  | .mk _ _, h => by
    obtain ⟨hnote, hform⟩ := Term.mk.inj h
    exact ⟨Note.known_of_relabel_eq hnote, Form.known_of_relabel_eq hform⟩

theorem Note.known_of_relabel_eq : ∀ {n : Note p (Term p)}, n.relabel σ = n →
    n.Known (σ.fixed [])
  | .place _ _, _ | .kind _, _ => trivial
  | .sort ty _, h => Term.known_of_relabel_eq (t := ty) (Note.sort.inj h)

theorem Form.known_of_relabel_eq : ∀ {f : Form p}, f.relabel σ = f → f.Known (σ.fixed [])
  | .atom _, _ => trivial
  | .var _, h => .inr (Form.var.inj h)
  | .unary op _, h => by
    obtain ⟨hop, hx⟩ := Form.unary.inj h
    refine ⟨?_, Term.known_of_relabel_eq hx⟩
    cases op with
    | member field => exact Unary.member.inj hop
    | _ => trivial
  | .binary _ _ _, h => by
    obtain ⟨_, hx, hy⟩ := Form.binary.inj h
    exact ⟨Term.known_of_relabel_eq hx, Term.known_of_relabel_eq hy⟩
  | .app _ _, h => by
    obtain ⟨hf, hargs⟩ := Form.app.inj h
    exact ⟨Term.known_of_relabel_eq hf, knownList_of_relabel_eq hargs⟩
  | .list _, h => knownList_of_relabel_eq (Form.list.inj h)
  | .bind _ t, h => Tele.known_of_relabel_eq (t := t) (eq_of_heq (Form.bind.inj h).2)

theorem Tele.known_of_relabel_eq {k : Binder} : ∀ {t : Tele p k}, t.relabel σ = t →
    t.Known (σ.fixed [])
  | .fields, _ => trivial
  | .returns _ ret, h => Term.known_of_relabel_eq (t := ret) (Tele.returns.inj h).2
  | .runs _ _ _, h => by
    obtain ⟨_, hret, hbody⟩ := Tele.runs.inj h
    exact ⟨Term.known_of_relabel_eq hret, knownBody_of_relabel_eq hbody⟩
  | .arg _ _ _ v _, h => by
    obtain ⟨_, _, hty, hv, hrest⟩ := Tele.arg.inj h
    refine ⟨Term.known_of_relabel_eq hty, ?_, (Tele.known_of_relabel_eq hrest).mono (.weaken _ v)⟩
    rintro - w rfl
    exact congrArg Var.name (Option.some.inj hv)

theorem Stmt.known_of_relabel_eq : ∀ {s : Stmt p}, s.relabel σ = s → s.Known (σ.fixed [])
  | .call _ x, h => Term.known_of_relabel_eq (t := x) (Stmt.call.inj h).2
  | .ret _ x, h => Term.known_of_relabel_eq (t := x) (Stmt.ret.inj h).2
  | .impossibleBy _ x, h => Term.known_of_relabel_eq (t := x) (Stmt.impossibleBy.inj h).2
  | .ifThen _ _ _, h => by
    obtain ⟨_, hcond, hyes⟩ := Stmt.ifThen.inj h
    exact ⟨Term.known_of_relabel_eq hcond, knownBody_of_relabel_eq hyes⟩
  | .ifElse _ _ _ _, h => by
    obtain ⟨_, hcond, hyes, hno⟩ := Stmt.ifElse.inj h
    exact ⟨Term.known_of_relabel_eq hcond, knownBody_of_relabel_eq hyes,
      knownBody_of_relabel_eq hno⟩
  | .retUnit _, _ | .impossible _, _ => trivial

theorem knownList_of_relabel_eq : ∀ {ts : List (Term p)}, relabelList σ ts = ts →
    KnownList (σ.fixed []) ts
  | [], _ => trivial
  | _ :: _, h => by
    obtain ⟨ht, hts⟩ := List.cons.inj h
    exact ⟨Term.known_of_relabel_eq ht, knownList_of_relabel_eq hts⟩

theorem knownBody_of_relabel_eq : ∀ {b : List (Stmt p)}, relabelBody σ b = b →
    KnownBody (σ.fixed []) b
  | [], _ => trivial
  | _ :: _, h => by
    obtain ⟨hs, hb⟩ := List.cons.inj h
    exact ⟨Stmt.known_of_relabel_eq hs, knownBody_of_relabel_eq hb⟩

end

theorem Env.Unchanged.known {env : Env} (h : env.Unchanged σ) : env.Known (σ.fixed []) := by
  intro g e hget
  have hitem := h g e hget
  generalize e.item = item at hitem ⊢
  cases item with
  | integer => trivial
  | struct fs => exact Tele.known_of_relabel_eq (t := fs) (Item.struct.inj hitem)
  | declared s => exact Tele.known_of_relabel_eq (t := s) (Item.declared.inj hitem)
  | external s => exact Tele.known_of_relabel_eq (t := s) (Item.external.inj hitem)
  | defined f => exact Tele.known_of_relabel_eq (t := f) (Item.defined.inj hitem)

/-- A relabeling changes neither the variables in scope nor what they stand for, nor the facts that
are assumed. -/
structure Context.Unchanged (σ : Relabeling) (ctx : Context) : Prop where
  lookup : ∀ v d, ctx.lookup? v = some d → v.relabel σ = v ∧ d.meaning.relabel σ = d.meaning
  assumptions : relabelList σ ctx.assumptions = ctx.assumptions

namespace Context.Unchanged

variable {ctx : Context}

theorem known (h : ctx.Unchanged σ) : ctx.Within (σ.fixed []) := by
  refine ⟨fun v d hd => .inr (h.lookup v d hd).1, fun v d hd => ?_⟩
  have hmeaning := (h.lookup v d hd).2
  generalize d.meaning = m at hmeaning ⊢
  cases m with
  | type => trivial
  | term qty ty => exact Term.known_of_relabel_eq (t := ty) (Meaning.term.inj hmeaning).2

/-- A context that is not changed corresponds to itself. -/
theorem contexts {c : Coupling} (h : ctx.Unchanged c.σ) (hnames : ∀ g, c.names g) (V : Var → Prop) :
    c.Contexts V ctx ctx where
  mutability := .inl rfl
  lookup v _ := by
    cases hlookup : ctx.lookup? v with
    | some d =>
      obtain ⟨hv, hd⟩ := h.lookup v d hlookup
      rw [hv, hlookup]
      exact congrArg some hd.symm
    | none =>
      -- what is changed to a declared variable is that variable, as names are kept apart
      cases hlookup' : ctx.lookup? (v.relabel c.σ) with
      | none => rfl
      | some d =>
        have hv := (Var.relabel_inj c.σ).mp (h.lookup _ d hlookup').1
        rw [hv, hlookup] at hlookup'
        cases hlookup'
  assumptions := h.assumptions.symm
  everywhere := ctx.everywhere_of_forall (Term.refersInto_of_forall hnames)
  facts := everywhereList_of_forall (Term.refersInto_of_forall hnames) ctx.assumptions

end Context.Unchanged

/-! ## Invariance -/

/-- Two runs in an environment that a relabeling does not change, with the same fuel. -/
def Env.Unchanged.coupling {env : Env} (h : env.Unchanged σ) (fuel : Nat) : Coupling where
  env
  env' := env
  fuel
  fuel' := fuel
  σ
  names _ := True
  early := False
  strict := False
  coupled := h.coupled
  enough := enough_refl False fuel

/-- Checking does not depend on bound names. Let two terms be equal up to bound names, and let the
bound variables of the second be those of the first relabeled, where the relabeling changes neither
the free variables and the names of fields of the first, nor any name of the globals and of the
context. Then both are accepted or neither is. If there is no placeholder, what they are checked to
is equal up to bound names, and so are the types. -/
theorem assign_alphaEq {env : Env} (henv : env.Unchanged σ) {ctx : Context} (hctx : ctx.Unchanged σ)
    {a b : Written} (hknown : a.Known (σ.fixed [])) (hslice : σ.Respects a.nodes)
    (hab : a.alphaEq b) (hvars : b.boundVars = a.boundVars.map (Option.map (Var.relabel σ)))
    (fuel : Nat) :
    ((∃ t, env.assign fuel ctx a = .ok t) ↔ ∃ u, env.assign fuel ctx b = .ok u) ∧
      ∀ t u, env.assign fuel ctx a = .ok t → env.assign fuel ctx b = .ok u → Explicit a.nodes →
        t.alphaEq u ∧ Option.Rel (fun ty ty' => ty.alphaEq ty') t.sort? u.sort? := by
  have hpaired : a.alphaEqUnder (σ.paired []) b := hab
  have hall : a.boundVars.map (Option.map (Var.relabel σ)) ++ [] = b.boundVars ++ [] := by
    rw [hvars]
  let c := henv.coupling fuel
  have hmentions : σ.Admits c.Mentions := fun _ hslice => ⟨trivial, hslice, .inr id⟩
  have hrelabels : a.Relabels σ c.Mentions (fun _ => True) b :=
    (Term.relabels_of_alphaEq hmentions a (fun _ => trivial) hpaired hknown hslice hall).1
  have hcontexts : c.Contexts (fun _ => True) ctx ctx := hctx.contexts (fun _ => trivial) _
  have hmirrors : Check.Mirrors c.Terms (env.assign fuel ctx a) (env.assign fuel ctx b) :=
    ((Coupling.alike hrelabels).assign hcontexts False.elim).mirrors
  refine ⟨hmirrors.isOk_iff, fun t u ht hu hexplicit => ?_⟩
  obtain rfl : u = t.relabel σ := (hmirrors.related ht hu).1
  have htknown : t.Known (σ.fixed []) :=
    (Term.accepts_of_elaborate a ht).known hexplicit henv.known hctx.known .assign hknown
  refine ⟨Term.alphaEq_relabel_self htknown, ?_⟩
  rw [Term.sort?_relabel]
  cases hty : t.sort? with
  | none => exact .none
  | some ty => exact .some (Term.alphaEq_relabel_self (htknown.sort hty))

end

/-- The relabeling that exchanges two names. -/
def Relabeling.swap (a b : String) : Relabeling where
  name s := if s = a then b else if s = b then a else s
  injective := by
    intro s t h
    grind

/-- In a context that declares `m`, the functions `(u64 n, true_t(n == m)) -> u64 { return n; }` and
`(u64 k, true_t(k == m)) -> u64 { return k; }` are both accepted, and checked to equal terms. -/
theorem assign_alphaEq_of_renamed_argument :
    let at0 (form : Form .written) : Written := .mk (.place {} rfl) form
    let u64 := at0 (.atom (.int ⟨.unsigned, .w64⟩))
    let m : Var := { name := "m" }
    let ctx : Context := { inner := ⟨[(m, ⟨none, .term .many Checked.u64⟩)], []⟩ }
    let f (name : String) : Written :=
      let v := at0 (.var { name })
      let equal := at0 (.unary .trueT (at0 (.binary (.compare .eq) v (at0 (.var m)))))
      at0 (.bind .abs (.arg {} .many u64 (some { name }) (.arg {} .zero equal none
        (.runs .no u64 [.ret {} v]))))
    ∃ t u, ({} : Env).assign 20 ctx (f "n") = .ok t ∧ ({} : Env).assign 20 ctx (f "k") = .ok u ∧
      t.alphaEq u := by
  intro at0 u64 m ctx f
  let σ := Relabeling.swap "n" "k"
  have henv : Env.Unchanged σ {} := fun _ _ h => (Env.all_of_modules_eq_empty rfl).of_get? h
  have hctx : ctx.Unchanged σ := by
    refine ⟨fun v d hd => ?_, rfl⟩
    rw [show ctx = Context.withDecl {} m _ from rfl, Context.lookup?_withDecl] at hd
    split at hd
    · next hv =>
      cases hd
      subst hv
      exact ⟨rfl, rfl⟩
    · cases hd
  have hknown : (f "n").Known (σ.fixed []) := by
    simp [f, at0, u64, m, σ, Term.Known, Note.Known, Form.Known, Tele.Known, Stmt.Known, KnownBody,
      Unary.Known, Vocabulary.bind, Relabeling.fixed, Relabeling.swap, Var.relabel]
  have hslice : σ.Respects (f "n").nodes := by
    simp [Relabeling.Respects, f, at0, u64, Term.nodes, Form.nodes, Tele.nodes, Stmt.nodes,
      nodesBody, Term.form]
  have hexplicit : Explicit (f "n").nodes := by
    unfold Explicit
    decide
  obtain ⟨hiff, hequal⟩ := assign_alphaEq henv hctx hknown hslice
    (show (f "n").alphaEq (f "k") by decide +kernel +zetaReduce) rfl 20
  obtain ⟨t, ht⟩ : ∃ t, ({} : Env).assign 20 ctx (f "n") = .ok t := ⟨_, rfl⟩
  obtain ⟨u, hu⟩ := hiff.mp ⟨t, ht⟩
  exact ⟨t, u, ht, hu, (hequal t u ht hu hexplicit).1⟩

/-- Shadowing matters, since types in scope mention variables by name. The function
`(u64 x, 0 true_t(x == 0) p) -> (u64 x) -> true_t(x == 0)` that returns
`(u64 x) -> true_t(x == 0) { return p; }` is accepted. With `y` for the inner `x` it is equal up to
bound names, and it is rejected. The names of fields matter too:
`((u64 x) p) -> u64 { return p.x; }` is accepted, and `((u64 y) p) -> u64 { return p.x; }` is
rejected. -/
theorem assign_depends_on_bound_names :
    let at0 (form : Form .written) : Written := .mk (.place {} rfl) form
    let u64 := at0 (.atom (.int .u64))
    let p : Var := { name := "p" }
    let isZero (name : String) : Written :=
      at0 (.unary .trueT (at0 (.binary (.compare .eq) (at0 (.var { name })) (at0 (.atom (.num 0))))))
    let proof (name : String) : Written :=
      let prove := at0 (.bind .abs (.arg {} .many u64 (some { name })
        (.runs .no (isZero name) [.ret {} (at0 (.var p))])))
      let claim := at0 (.bind .pi (.arg {} .many u64 (some { name }) (.returns .no (isZero name))))
      at0 (.bind .abs (.arg {} .many u64 (some { name := "x" }) (.arg {} .zero (isZero "x") (some p)
        (.runs .no claim [.ret {} prove]))))
    let select (field : String) : Written :=
      let struct := at0 (.bind .sigma (.arg {} .many u64 (some { name := field }) .fields))
      at0 (.bind .abs (.arg {} .many struct (some p)
        (.runs .no u64 [.ret {} (at0 (.unary (.member "x") (at0 (.var p))))])))
    ((proof "x").alphaEq (proof "y") ∧ (∃ t, ({} : Env).assign 20 {} (proof "x") = .ok t) ∧
      ∃ e, ({} : Env).assign 20 {} (proof "y") = .error (.rejected e)) ∧
    (select "x").alphaEq (select "y") ∧ (∃ t, ({} : Env).assign 20 {} (select "x") = .ok t) ∧
      ∃ e, ({} : Env).assign 20 {} (select "y") = .error (.rejected e) := by
  intro at0 u64 p isZero proof select
  refine ⟨⟨by decide +kernel, ⟨_, rfl⟩, ⟨_, rfl⟩⟩, by decide +kernel, ⟨_, rfl⟩, ⟨_, rfl⟩⟩

end DependentCore
