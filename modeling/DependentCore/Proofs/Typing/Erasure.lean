import DependentCore.Proofs.Binding.Nameless
import DependentCore.Proofs.Typing.Vocabulary

/-!
# What checking leaves as it is

Checking adds sorts to a term and, where nothing is left out, changes nothing else. `Term.erase`
drops what terms carry, the sorts of checked ones and the places of written ones.

* `Term.nameless_erase`: what is dropped does not matter up to bound names,
* `Term.Accepts.erase_eq`: without placeholders, a term is checked to itself,
* `Term.Accepts.nodes`: each node of the result is what a node of the term is checked to, or part of
  what is found for a placeholder.
-/

namespace DependentCore

variable {p q : Phase}

mutual

/-- A term without what its nodes carry. -/
def Term.erase : Term p → Written
  | .mk _ form => .mk (.place {} rfl) form.erase

/-- A form without what its nodes carry. -/
def Form.erase : Form p → Form .written
  | .atom a => .atom a
  | .var v => .var v
  | .unary op x => .unary op x.erase
  | .binary op x y => .binary op x.erase y.erase
  | .app f args => .app f.erase (eraseList args)
  | .list xs => .list (eraseList xs)
  | .bind k t => .bind k t.erase

/-- A telescope without what its nodes carry. -/
def Tele.erase {k : Binder} : Tele p k → Tele .written k
  | .fields => .fields
  | .returns m ret => .returns m ret.erase
  | .runs m ret body => .runs m ret.erase (eraseBody body)
  | .arg _ qty ty v rest => .arg {} qty ty.erase v rest.erase

/-- A statement without what its nodes carry. -/
def Stmt.erase : Stmt p → Stmt .written
  | .call _ x => .call {} x.erase
  | .ifThen _ cond yes => .ifThen {} cond.erase (eraseBody yes)
  | .ifElse _ cond yes no => .ifElse {} cond.erase (eraseBody yes) (eraseBody no)
  | .ret _ x => .ret {} x.erase
  | .retUnit _ => .retUnit {}
  | .impossible _ => .impossible {}
  | .impossibleBy _ x => .impossibleBy {} x.erase

/-- Terms without what their nodes carry. -/
def eraseList : List (Term p) → List Written
  | [] => []
  | x :: xs => x.erase :: eraseList xs

/-- A body without what its nodes carry. -/
def eraseBody : List (Stmt p) → List (Stmt .written)
  | [] => []
  | s :: rest => s.erase :: eraseBody rest

end

/-! ## Equality up to bound names -/

mutual

/-- A nameless form has nothing of what nodes carry. -/
theorem Term.nameless_erase : ∀ {bound : List (Option Var)} (t : Term p),
    t.erase.nameless bound = t.nameless bound
  | _, .mk _ form => form.nameless_erase

theorem Form.nameless_erase : ∀ {bound : List (Option Var)} (form : Form p),
    form.erase.nameless bound = form.nameless bound
  | _, .atom _ | _, .var _ => rfl
  | _, .unary _ x => by simp only [Form.erase, Form.nameless, x.nameless_erase]
  | _, .binary _ x y => by
    simp only [Form.erase, Form.nameless, x.nameless_erase, y.nameless_erase]
  | _, .app f args => by
    simp only [Form.erase, Form.nameless, f.nameless_erase, namelessList_erase args]
  | _, .list xs => by simp only [Form.erase, Form.nameless, namelessList_erase xs]
  | _, .bind _ t => by simp only [Form.erase, Form.nameless, t.nameless_erase]

theorem Tele.nameless_erase {k : Binder} : ∀ {bound : List (Option Var)} (t : Tele p k),
    t.erase.nameless bound = t.nameless bound
  | _, .fields => rfl
  | _, .returns _ ret => by simp only [Tele.erase, Tele.nameless, ret.nameless_erase]
  | _, .runs _ ret body => by
    simp only [Tele.erase, Tele.nameless, ret.nameless_erase, namelessBody_erase body]
  | _, .arg _ _ ty _ rest => by
    simp only [Tele.erase, Tele.nameless, ty.nameless_erase, rest.nameless_erase]

theorem Stmt.nameless_erase : ∀ {bound : List (Option Var)} (s : Stmt p),
    s.erase.nameless bound = s.nameless bound
  | _, .call _ x | _, .ret _ x | _, .impossibleBy _ x => by
    simp only [Stmt.erase, Stmt.nameless, x.nameless_erase]
  | _, .ifThen _ cond yes => by
    simp only [Stmt.erase, Stmt.nameless, cond.nameless_erase, namelessBody_erase yes]
  | _, .ifElse _ cond yes no => by
    simp only [Stmt.erase, Stmt.nameless, cond.nameless_erase, namelessBody_erase yes,
      namelessBody_erase no]
  | _, .retUnit _ | _, .impossible _ => rfl

theorem namelessList_erase : ∀ {bound : List (Option Var)} (xs : List (Term p)),
    namelessList bound (eraseList xs) = namelessList bound xs
  | _, [] => rfl
  | _, x :: xs => by
    simp only [eraseList, namelessList, x.nameless_erase, namelessList_erase xs]

theorem namelessBody_erase : ∀ {bound : List (Option Var)} (b : List (Stmt p)),
    namelessBody bound (eraseBody b) = namelessBody bound b
  | _, [] => rfl
  | _, s :: b => by
    simp only [eraseBody, namelessBody, s.nameless_erase, namelessBody_erase b]

end

/-- What is equal up to bound names to a telescope is so to every telescope that differs from it in
what nodes carry. -/
theorem Tele.alphaEq_congr {k l : Binder} {t : Tele p k} {u u' : Tele p l}
    (h : u.erase = u'.erase) : t.alphaEq u = t.alphaEq u' := by
  have hnameless : u.nameless [] = u'.nameless [] := by
    rw [← u.nameless_erase, h, u'.nameless_erase]
  rw [Bool.eq_iff_iff, Tele.alphaEq_iff, Tele.alphaEq_iff, hnameless]

theorem Tele.alphaEq_refl {k : Binder} (t : Tele p k) : t.alphaEq t :=
  Tele.alphaEq_iff.mpr rfl

/-! ## Checking -/

variable {fuel : Nat} {env : Env}

theorem Term.erase_eq (t : Term p) : t.erase = .mk (.place {} rfl) t.form.erase := by
  cases t
  rfl

/-- The signature of a function is checked along with it. -/
theorem Tele.Accepts.bare {k : Binder} : ∀ {t : Tele .written k} {ctx : Context}
    {t' : Tele .checked k}, Tele.Accepts fuel env ctx t t' →
    Tele.Accepts fuel env ctx t.bare t'.bare
  | .fields, _, _, h | .returns _ _, _, _, h => by
    cases h
    constructor <;> assumption
  | .runs _ _ _, _, _, h => by
    cases h with
    | runs h _ => exact .returns h
  | .arg _ _ _ _ _, _, _, h => by
    cases h with
    | arg h₁ hdeclare h₂ => exact .arg h₁ hdeclare h₂.bare

mutual

/-- A term without placeholders is checked to itself, apart from the sorts. -/
theorem Term.Accepts.erase_eq : ∀ {e : Written} {ctx : Context} {mode : Mode} {t : Checked},
    Term.Accepts fuel env ctx mode e t → Explicit e.nodes → t.erase = e.erase
  | .mk _ (.atom _), _, _, _, h, _ => by
    cases h with
    | atom h => rw [Term.erase_eq, form_of_elaborateAtom h]; rfl
  | .mk _ (.var _), _, _, _, h, _ => by
    cases h with
    | var h => rw [Term.erase_eq, form_of_assignVar h]; rfl
  | .mk _ (.unary _ x), _, _, _, h, he => by
    have ih {ctx mode x'} (hx : Term.Accepts fuel env ctx mode x x') : x'.erase = x.erase :=
      hx.erase_eq he.inside
    cases h with
    | trueT hx | deref hx | scopeOf hx | not hx | member hx | addressOf _ hx =>
      exact congrArg (fun x => Term.mk (.place {} rfl) (.unary _ x)) (ih hx)
  | .mk _ (.binary op x y), _, _, t, h, he => by
    have ihx {ctx mode x'} (hx : Term.Accepts fuel env ctx mode x x') : x'.erase = x.erase :=
      hx.erase_eq he.inside.left
    have ihy {ctx mode y'} (hy : Term.Accepts fuel env ctx mode y y') : y'.erase = y.erase :=
      hy.erase_eq he.inside.right
    have ihpair {ctx x' y'} (h : AcceptsPair fuel env ctx x y x' y') :
        x'.erase = x.erase ∧ y'.erase = y.erase := by
      cases h with
      | leftFirst h₁ _ h₂ => exact ⟨ihx h₁, ihy h₂⟩
      | rightFirst h₁ _ h₂ => exact ⟨ihx h₂, ihy h₁⟩
    suffices ∃ note x' y', t = .mk note (.binary op x' y') ∧ x'.erase = x.erase ∧
        y'.erase = y.erase by
      obtain ⟨note, x', y', rfl, hx, hy⟩ := this
      simp only [Term.erase, Form.erase, hx, hy]
    cases h with
    | arrayT h₁ h₂ | refT h₁ h₂ | logic h₁ h₂ => exact ⟨_, _, _, rfl, ihx h₁, ihy h₂⟩
    | element h₁ _ h₂ | arithOf _ _ h₁ h₂ => exact ⟨_, _, _, rfl, ihx h₁, ihy h₂⟩
    | position h₁ _ _ _ h₂ => exact ⟨_, _, _, rfl, ihx h₁, ihy h₂⟩
    | because _ h₂ h₁ | becauseOf _ h₂ h₁ => exact ⟨_, _, _, rfl, ihx h₁, ihy h₂⟩
    | compare h | arith h => exact ⟨_, _, _, rfl, ihpair h⟩
  | .mk _ (.app _ _), _, _, _, h, he => by
    cases h with
    | app h₁ _ _ harity h₂ =>
      simp only [Checked.term, Term.erase, Form.erase, h₁.erase_eq he.inside.left,
        h₂.erase_eq he.inside.right harity]
  | .mk _ (.list xs), _, _, _, h, he => by
    have hxs : Explicit (nodesList xs) := he.inside
    cases h with
    | array _ _ _ h => simp only [Checked.term, Term.erase, Form.erase, h.erase_eq hxs]
    | unit | proof => rfl
    | struct _ _ hlength h =>
      simp only [Checked.term, Term.erase, Form.erase, h.erase_eq hxs hlength]
  | .mk _ (.bind .sigma _), _, _, _, h, he => by
    cases h with
    | sigma h =>
      simp only [Checked.type, Checked.term, Term.erase, Form.erase, h.erase_eq he.inside]
  | .mk _ (.bind .pi _), _, _, _, h, he => by
    cases h with
    | pi h =>
      simp only [Checked.pi, Checked.type, Checked.term, Term.erase, Form.erase,
        h.erase_eq he.inside]
  | .mk _ (.bind .abs _), _, _, _, h, he => by
    cases h with
    | abs h => simp only [Checked.term, Term.erase, Form.erase, h.erase_eq he.inside]
termination_by structural e => e

theorem AcceptsElements.erase_eq : ∀ {xs : List Written} {ctx : Context} {ty : Checked}
    {xs' : List Checked}, AcceptsElements fuel env ctx ty xs xs' → Explicit (nodesList xs) →
      eraseList xs' = eraseList xs
  | [], _, _, _, h, _ => by
    cases h
    rfl
  | _ :: _, _, _, _, h, he => by
    cases h with
    | cons h₁ h₂ => simp only [eraseList, h₁.erase_eq he.left, h₂.erase_eq he.right]
termination_by structural xs => xs

theorem AcceptsFields.erase_eq : ∀ {xs : List Written} {ctx : Context} {fs : Fields .checked}
    {xs' : List Checked}, AcceptsFields fuel env ctx xs fs xs' → Explicit (nodesList xs) →
      xs.length = fs.arity → eraseList xs' = eraseList xs
  | [], _, _, _, h, _, _ => by cases h <;> rfl
  | _ :: _, _, _, _, h, he, hlength => by
    cases h with
    | fields => cases hlength
    | cons h₁ h₂ =>
      have hrest := h₂.erase_eq he.right (by
        rw [Tele.arity_instantiate]
        exact Nat.succ.inj hlength)
      simp only [eraseList, h₁.erase_eq he.left, hrest]
termination_by structural xs => xs

theorem AcceptsArgs.erase_eq : ∀ {xs : List Written} {ctx : Context} {s rest : Signature .checked}
    {xs' : List Checked}, AcceptsArgs fuel env ctx xs s xs' rest → Explicit (nodesList xs) →
      s.arity = xs.length → eraseList xs' = eraseList xs
  | [], _, _, _, _, h, _, _ => by cases h <;> rfl
  | x :: _, _, _, _, _, h, he, hlength => by
    cases h with
    | returns => cases hlength
    | cons _ h₁ h₂ =>
      have hrest := h₂.erase_eq he.right (by
        rw [Tele.arity_instantiate]
        exact Nat.succ.inj hlength)
      simp only [eraseList, h₁.erase_eq he.left, hrest]
    | auto hauto =>
      rw [he.not_isAuto] at hauto
      cases hauto
termination_by structural xs => xs

theorem Tele.Accepts.erase_eq {k : Binder} : ∀ {t : Tele .written k} {ctx : Context}
    {t' : Tele .checked k}, Tele.Accepts fuel env ctx t t' → Explicit t.nodes →
      t'.erase = t.erase
  | .fields, _, _, h, _ => by
    cases h
    rfl
  | .returns _ _, _, _, h, he => by
    cases h with
    | returns h => simp only [Tele.erase, h.erase_eq he]
  | .runs _ _ _, _, _, h, he => by
    cases h with
    | runs h₁ h₂ => simp only [Tele.erase, h₁.erase_eq he.left, h₂.erase_eq he.right]
  | .arg _ _ _ _ _, _, _, h, he => by
    cases h with
    | arg h₁ _ h₂ => simp only [Tele.erase, h₁.erase_eq he.left, h₂.erase_eq he.right]
termination_by structural t => t

theorem Stmt.Accepts.erase_eq : ∀ {s : Stmt .written} {ctx : Context} {ret : Checked}
    {s' : Stmt .checked}, Stmt.Accepts fuel env ctx ret s s' → Explicit s.nodes →
      s'.erase = s.erase
  | .call _ _, _, _, _, h, he => by
    cases h with
    | call _ h => simp only [Stmt.erase, h.erase_eq he]
  | .ifThen _ _ _, _, _, _, h, he => by
    cases h with
    | ifThen h₁ h₂ => simp only [Stmt.erase, h₁.erase_eq he.left, h₂.erase_eq he.right]
  | .ifElse _ _ _ _, _, _, _, h, he => by
    cases h with
    | ifElse h₁ h₂ h₃ =>
      simp only [Stmt.erase, h₁.erase_eq he.left.left, h₂.erase_eq he.left.right,
        h₃.erase_eq he.right]
  | .ret _ _, _, _, _, h, he => by
    cases h with
    | ret h => simp only [Stmt.erase, h.erase_eq he]
  | .retUnit _, _, _, _, h, _ | .impossible _, _, _, _, h, _ => by
    cases h
    rfl
  | .impossibleBy _ _, _, _, _, h, he => by
    cases h with
    | impossibleBy h => simp only [Stmt.erase, h.erase_eq he]
termination_by structural s => s

theorem AcceptsBody.erase_eq : ∀ {b : List (Stmt .written)} {ctx : Context} {ret : Checked}
    {b' : List (Stmt .checked)}, AcceptsBody fuel env ctx ret b b' → Explicit (nodesBody b) →
      eraseBody b' = eraseBody b
  | [], _, _, _, h, _ => by
    cases h
    rfl
  | _ :: _, _, _, _, h, he => by
    cases h with
    | cons h₁ h₂ => simp only [eraseBody, h₁.erase_eq he.left, h₂.erase_eq he.right]
termination_by structural b => b

end

/-! ## Nodes -/

/-- A term is a node of a value that is found for a placeholder. -/
def Term.IsInferred (fuel : Nat) (env : Env) (t : Checked) : Prop :=
  ∃ ctx ty v xs rest value, AcceptsAuto fuel env ctx ty v xs rest value ∧ t ∈ value.nodes

/-- A checked term comes from a written one: it is what the written term is checked to, or the
written term is a placeholder that it is inferred for. -/
def Term.ComesFrom (fuel : Nat) (env : Env) (t : Checked) (e : Written) : Prop :=
  (∃ ctx mode, Term.Accepts fuel env ctx mode e t) ∨ e.isAuto ∧ t.IsInferred fuel env

/-- Each of some checked terms comes from one of some written terms. -/
def AllComeFrom (fuel : Nat) (env : Env) (es : List Written) (ts : List Checked) : Prop :=
  ∀ t ∈ ts, ∃ e ∈ es, t.ComesFrom fuel env e

theorem AllComeFrom.nil {es : List Written} : AllComeFrom fuel env es [] :=
  nofun

theorem AllComeFrom.append {es es' : List Written} {ts ts' : List Checked}
    (h : AllComeFrom fuel env es ts) (h' : AllComeFrom fuel env es' ts') :
    AllComeFrom fuel env (es ++ es') (ts ++ ts') := by
  intro t ht
  rcases List.mem_append.mp ht with ht | ht
  · obtain ⟨e, he, hfrom⟩ := h t ht
    exact ⟨e, List.mem_append_left _ he, hfrom⟩
  · obtain ⟨e, he, hfrom⟩ := h' t ht
    exact ⟨e, List.mem_append_right _ he, hfrom⟩

theorem AllComeFrom.node {note : Note .written Written} {form : Form .written} {t : Checked}
    {ctx : Context} {mode : Mode} (h : Term.Accepts fuel env ctx mode (.mk note form) t)
    (hform : AllComeFrom fuel env form.nodes t.form.nodes) :
    AllComeFrom fuel env (Term.mk note form).nodes t.nodes := by
  obtain ⟨note', form'⟩ := t
  intro u hu
  rcases List.mem_cons.mp hu with rfl | hu
  · exact ⟨_, .head _, .inl ⟨ctx, mode, h⟩⟩
  · obtain ⟨e, he, hfrom⟩ := hform u hu
    exact ⟨e, .tail _ he, hfrom⟩

theorem AllComeFrom.inferred {x : Written} {value : Checked} {ctx : Context} {ty : Checked}
    {v : Option Var} {xs : List Written} {rest : Signature .checked} (hx : x.isAuto)
    (h : AcceptsAuto fuel env ctx ty v xs rest value) :
    AllComeFrom fuel env x.nodes value.nodes := by
  obtain ⟨note, form⟩ := x
  intro t ht
  exact ⟨_, .head _, .inr ⟨hx, ctx, ty, v, xs, rest, value, h, ht⟩⟩

mutual

/-- The nodes of what a term is checked to come from its nodes. -/
theorem Term.Accepts.nodes : ∀ {e : Written} {ctx : Context} {mode : Mode} {t : Checked},
    Term.Accepts fuel env ctx mode e t → AllComeFrom fuel env e.nodes t.nodes
  | .mk _ (.atom _), _, _, _, h => by
    refine .node h ?_
    cases h with
    | atom h =>
      rw [form_of_elaborateAtom h]
      exact .nil
  | .mk _ (.var _), _, _, _, h => by
    refine .node h ?_
    cases h with
    | var h =>
      rw [form_of_assignVar h]
      exact .nil
  | .mk _ (.unary _ _), _, _, _, h => by
    refine .node h ?_
    cases h with
    | trueT hx | deref hx | scopeOf hx | not hx | member hx | addressOf _ hx => exact hx.nodes
  | .mk _ (.binary _ x y), _, _, _, h => by
    refine .node h ?_
    have ih {ctx ctx' mode mode' x' y'} (hx : Term.Accepts fuel env ctx mode x x')
        (hy : Term.Accepts fuel env ctx' mode' y y') :
        AllComeFrom fuel env (x.nodes ++ y.nodes) (x'.nodes ++ y'.nodes) :=
      hx.nodes.append hy.nodes
    have ihpair {ctx x' y'} (h : AcceptsPair fuel env ctx x y x' y') :
        AllComeFrom fuel env (x.nodes ++ y.nodes) (x'.nodes ++ y'.nodes) := by
      cases h with
      | leftFirst h₁ _ h₂ => exact ih h₁ h₂
      | rightFirst h₁ _ h₂ => exact ih h₂ h₁
    cases h with
    | arrayT h₁ h₂ | refT h₁ h₂ | logic h₁ h₂ => exact ih h₁ h₂
    | element h₁ _ h₂ | arithOf _ _ h₁ h₂ | position h₁ _ _ _ h₂ => exact ih h₁ h₂
    | because _ h₂ h₁ | becauseOf _ h₂ h₁ => exact ih h₁ h₂
    | compare h | arith h => exact ihpair h
  | .mk _ (.app _ _), _, _, _, h => by
    refine .node h ?_
    cases h with
    | app h₁ _ _ _ h₂ => exact h₁.nodes.append h₂.nodes
  | .mk _ (.list _), _, _, _, h => by
    refine .node h ?_
    cases h with
    | array _ _ _ h | struct _ _ _ h => exact h.nodes
    | unit | proof => exact .nil
  | .mk _ (.bind .sigma _), _, _, _, h => by
    refine .node h ?_
    cases h with
    | sigma h => exact h.nodes
  | .mk _ (.bind .pi _), _, _, _, h => by
    refine .node h ?_
    cases h with
    | pi h => exact h.nodes
  | .mk _ (.bind .abs _), _, _, _, h => by
    refine .node h ?_
    cases h with
    | abs h => exact h.nodes
termination_by structural e => e

theorem AcceptsElements.nodes : ∀ {xs : List Written} {ctx : Context} {ty : Checked}
    {xs' : List Checked}, AcceptsElements fuel env ctx ty xs xs' →
      AllComeFrom fuel env (nodesList xs) (nodesList xs')
  | [], _, _, _, h => by
    cases h
    exact .nil
  | _ :: _, _, _, _, h => by
    cases h with
    | cons h₁ h₂ => exact h₁.nodes.append h₂.nodes
termination_by structural xs => xs

theorem AcceptsFields.nodes : ∀ {xs : List Written} {ctx : Context} {fs : Fields .checked}
    {xs' : List Checked}, AcceptsFields fuel env ctx xs fs xs' →
      AllComeFrom fuel env (nodesList xs) (nodesList xs')
  | [], _, _, _, h => by cases h <;> exact .nil
  | _ :: _, _, _, _, h => by
    cases h with
    | fields => exact .nil
    | cons h₁ h₂ => exact h₁.nodes.append h₂.nodes
termination_by structural xs => xs

theorem AcceptsArgs.nodes : ∀ {xs : List Written} {ctx : Context} {s rest : Signature .checked}
    {xs' : List Checked}, AcceptsArgs fuel env ctx xs s xs' rest →
      AllComeFrom fuel env (nodesList xs) (nodesList xs')
  | [], _, _, _, _, h => by cases h <;> exact .nil
  | _ :: _, _, _, _, _, h => by
    cases h with
    | returns => exact .nil
    | cons _ h₁ h₂ => exact h₁.nodes.append h₂.nodes
    | auto hauto h₁ h₂ => exact (AllComeFrom.inferred hauto h₁).append h₂.nodes
termination_by structural xs => xs

theorem Tele.Accepts.nodes {k : Binder} : ∀ {t : Tele .written k} {ctx : Context}
    {t' : Tele .checked k}, Tele.Accepts fuel env ctx t t' →
      AllComeFrom fuel env t.nodes t'.nodes
  | .fields, _, _, h => by
    cases h
    exact .nil
  | .returns _ _, _, _, h => by
    cases h with
    | returns h => exact h.nodes
  | .runs _ _ _, _, _, h => by
    cases h with
    | runs h₁ h₂ => exact h₁.nodes.append h₂.nodes
  | .arg _ _ _ _ _, _, _, h => by
    cases h with
    | arg h₁ _ h₂ => exact h₁.nodes.append h₂.nodes
termination_by structural t => t

theorem Stmt.Accepts.nodes : ∀ {s : Stmt .written} {ctx : Context} {ret : Checked}
    {s' : Stmt .checked}, Stmt.Accepts fuel env ctx ret s s' →
      AllComeFrom fuel env s.nodes s'.nodes
  | .call _ _, _, _, _, h => by
    cases h with
    | call _ h => exact h.nodes
  | .ifThen _ _ _, _, _, _, h => by
    cases h with
    | ifThen h₁ h₂ => exact h₁.nodes.append h₂.nodes
  | .ifElse _ _ _ _, _, _, _, h => by
    cases h with
    | ifElse h₁ h₂ h₃ => exact (h₁.nodes.append h₂.nodes).append h₃.nodes
  | .ret _ _, _, _, _, h => by
    cases h with
    | ret h => exact h.nodes
  | .retUnit _, _, _, _, h | .impossible _, _, _, _, h => by
    cases h
    exact .nil
  | .impossibleBy _ _, _, _, _, h => by
    cases h with
    | impossibleBy h => exact h.nodes
termination_by structural s => s

theorem AcceptsBody.nodes : ∀ {b : List (Stmt .written)} {ctx : Context} {ret : Checked}
    {b' : List (Stmt .checked)}, AcceptsBody fuel env ctx ret b b' →
      AllComeFrom fuel env (nodesBody b) (nodesBody b')
  | [], _, _, _, h => by
    cases h
    exact .nil
  | _ :: _, _, _, _, h => by
    cases h with
    | cons h₁ h₂ => exact h₁.nodes.append h₂.nodes
termination_by structural b => b

end

end DependentCore
