import DependentCore.Binding.Alpha
import DependentCore.Proofs.Binding.Known
import DependentCore.Syntax.Entry

/-!
# Relabelings

A `Relabeling` takes names to names, different ones to different ones. It acts on all names of a
tree: of variables, whether free or bound, of fields and of the members that are selected. Indices
and names of globals stay as they are.

Nothing in the language looks at the spelling of a name, so every operation on trees commutes with
relabelings.

* `Term.relabel`: the action on terms,
* `Term.maxIndex_relabel`, `Term.occursFree_relabel`, `Term.rename_relabel`, `Term.subst_relabel`,
  `Term.alphaEq_relabel`: the operations of `Binding` commute with it,
* `Term.alphaEq_relabel_self`: a relabeling that fixes the free variables of a term gives a term
  that is equal up to bound names.
-/

namespace DependentCore

variable {p : Phase}

/-- A map of names that takes different names to different names. -/
structure Relabeling where
  name : String → String
  injective : ∀ {s t : String}, name s = name t → s = t

/-! ## The action -/

/-- A variable keeps its index. -/
def Var.relabel (σ : Relabeling) (v : Var) : Var :=
  ⟨σ.name v.name, v.index⟩

/-- Members have the names of the fields. -/
def Unary.relabel (σ : Relabeling) : Unary → Unary
  | .member field => .member (σ.name field)
  | op => op

mutual

/-- Change all names of a term and its sorts. -/
def Term.relabel (σ : Relabeling) : Term p → Term p
  | .mk note form => .mk (note.relabel σ) (form.relabel σ)

/-- Change all names of a sort. -/
def Note.relabel (σ : Relabeling) : Note p (Term p) → Note p (Term p)
  | .place loc h => .place loc h
  | .kind h => .kind h
  | .sort ty h => .sort (ty.relabel σ) h

/-- Change all names of a form. -/
def Form.relabel (σ : Relabeling) : Form p → Form p
  | .atom a => .atom a
  | .var v => .var (v.relabel σ)
  | .unary op x => .unary (op.relabel σ) (x.relabel σ)
  | .binary op x y => .binary op (x.relabel σ) (y.relabel σ)
  | .app f args => .app (f.relabel σ) (relabelList σ args)
  | .list xs => .list (relabelList σ xs)
  | .bind k t => .bind k (t.relabel σ)

/-- Change all names of a telescope. -/
def Tele.relabel {k : Binder} (σ : Relabeling) : Tele p k → Tele p k
  | .fields => .fields
  | .returns m ret => .returns m (ret.relabel σ)
  | .runs m ret body => .runs m (ret.relabel σ) (relabelBody σ body)
  | .arg mark qty ty v rest => .arg mark qty (ty.relabel σ) (v.map (·.relabel σ)) (rest.relabel σ)

/-- Change all names of a statement. -/
def Stmt.relabel (σ : Relabeling) : Stmt p → Stmt p
  | .call mark x => .call mark (x.relabel σ)
  | .ifThen mark cond yes => .ifThen mark (cond.relabel σ) (relabelBody σ yes)
  | .ifElse mark cond yes no =>
    .ifElse mark (cond.relabel σ) (relabelBody σ yes) (relabelBody σ no)
  | .ret mark x => .ret mark (x.relabel σ)
  | .retUnit mark => .retUnit mark
  | .impossible mark => .impossible mark
  | .impossibleBy mark x => .impossibleBy mark (x.relabel σ)

/-- Change all names of the terms of a list. -/
def relabelList (σ : Relabeling) : List (Term p) → List (Term p)
  | [] => []
  | x :: xs => x.relabel σ :: relabelList σ xs

/-- Change all names of the statements of a body. -/
def relabelBody (σ : Relabeling) : List (Stmt p) → List (Stmt p)
  | [] => []
  | s :: rest => s.relabel σ :: relabelBody σ rest

end

/-- Change all names of an item. -/
def Item.relabel (σ : Relabeling) : Item p → Item p
  | .integer t => .integer t
  | .struct fs => .struct (fs.relabel σ)
  | .declared s => .declared (s.relabel σ)
  | .external s => .external (s.relabel σ)
  | .defined f => .defined (f.relabel σ)

variable (σ : Relabeling)

theorem relabelList_eq_map (ts : List (Term p)) : relabelList σ ts = ts.map (·.relabel σ) := by
  induction ts with
  | nil => rfl
  | cons t ts ih => rw [relabelList, ih, List.map_cons]

theorem relabelBody_eq_map (b : List (Stmt p)) : relabelBody σ b = b.map (·.relabel σ) := by
  induction b with
  | nil => rfl
  | cons s b ih => rw [relabelBody, ih, List.map_cons]

/-! ## The identity -/

/-- The relabeling that changes nothing. -/
def Relabeling.identity : Relabeling where
  name s := s
  injective h := h

@[simp]
theorem Var.relabel_identity (v : Var) : v.relabel .identity = v :=
  rfl

theorem Var.map_relabel_identity (v : Option Var) : v.map (·.relabel .identity) = v :=
  Option.map_id'

@[simp]
theorem Unary.relabel_identity (op : Unary) : op.relabel .identity = op := by
  cases op <;> rfl

mutual

/-- The identity changes nothing. -/
@[simp]
theorem Term.relabel_identity : ∀ t : Term p, t.relabel .identity = t
  | .mk note form => by rw [Term.relabel, note.relabel_identity, form.relabel_identity]

@[simp]
theorem Note.relabel_identity : ∀ n : Note p (Term p), n.relabel .identity = n
  | .place _ _ | .kind _ => rfl
  | .sort ty _ => by simp only [Note.relabel, ty.relabel_identity]

@[simp]
theorem Form.relabel_identity : ∀ f : Form p, f.relabel .identity = f
  | .atom _ | .var _ => rfl
  | .unary op x => by rw [Form.relabel, op.relabel_identity, x.relabel_identity]
  | .binary _ x y => by rw [Form.relabel, x.relabel_identity, y.relabel_identity]
  | .app f args => by rw [Form.relabel, f.relabel_identity, relabelList_identity args]
  | .list xs => by rw [Form.relabel, relabelList_identity xs]
  | .bind _ t => by rw [Form.relabel, t.relabel_identity]

@[simp]
theorem Tele.relabel_identity {k : Binder} : ∀ t : Tele p k, t.relabel .identity = t
  | .fields => rfl
  | .returns _ ret => by rw [Tele.relabel, ret.relabel_identity]
  | .runs _ ret body => by rw [Tele.relabel, ret.relabel_identity, relabelBody_identity body]
  | .arg _ _ ty v rest => by
    rw [Tele.relabel, ty.relabel_identity, Var.map_relabel_identity, rest.relabel_identity]

@[simp]
theorem Stmt.relabel_identity : ∀ s : Stmt p, s.relabel .identity = s
  | .call _ x | .ret _ x | .impossibleBy _ x => by rw [Stmt.relabel, x.relabel_identity]
  | .ifThen _ cond yes => by rw [Stmt.relabel, cond.relabel_identity, relabelBody_identity yes]
  | .ifElse _ cond yes no => by
    rw [Stmt.relabel, cond.relabel_identity, relabelBody_identity yes, relabelBody_identity no]
  | .retUnit _ | .impossible _ => rfl

@[simp]
theorem relabelList_identity : ∀ ts : List (Term p), relabelList .identity ts = ts
  | [] => rfl
  | t :: ts => by rw [relabelList, t.relabel_identity, relabelList_identity ts]

@[simp]
theorem relabelBody_identity : ∀ b : List (Stmt p), relabelBody .identity b = b
  | [] => rfl
  | s :: b => by rw [relabelBody, s.relabel_identity, relabelBody_identity b]

end

@[simp]
theorem Item.relabel_identity (item : Item p) : item.relabel .identity = item := by
  cases item with
  | integer => rfl
  | struct fs => rw [Item.relabel, fs.relabel_identity]
  | declared s => rw [Item.relabel, s.relabel_identity]
  | external s => rw [Item.relabel, s.relabel_identity]
  | defined f => rw [Item.relabel, f.relabel_identity]

/-! ## Variables -/

/-- Different variables stay different, as a relabeling is injective on names and keeps indices. -/
theorem Var.relabel_inj {v w : Var} : v.relabel σ = w.relabel σ ↔ v = w := by
  constructor
  · intro h
    obtain ⟨hname, hindex⟩ := Var.mk.inj h
    cases v
    cases w
    cases σ.injective hname
    cases hindex
    rfl
  · rintro rfl
    rfl

theorem Var.map_relabel_eq_some {v : Option Var} {x : Var} :
    v.map (·.relabel σ) = some (x.relabel σ) ↔ v = some x := by
  cases v with
  | none => simp
  | some v => simp [Var.relabel_inj]

/-! ## Indices -/

mutual

/-- A relabeling keeps indices. -/
@[simp]
theorem Term.maxIndex_relabel : ∀ t : Term p, (t.relabel σ).maxIndex = t.maxIndex
  | .mk note form => by
    rw [Term.relabel, Term.maxIndex, Term.maxIndex, note.maxIndex_relabel, form.maxIndex_relabel]

/-- The largest index in the sort counts too. -/
@[simp]
theorem Note.maxIndex_relabel : ∀ n : Note p (Term p), (n.relabel σ).maxIndex = n.maxIndex
  | .place _ _ | .kind _ => rfl
  | .sort ty _ => ty.maxIndex_relabel

@[simp]
theorem Form.maxIndex_relabel : ∀ f : Form p, (f.relabel σ).maxIndex = f.maxIndex
  | .atom _ | .var _ => rfl
  | .unary _ x => x.maxIndex_relabel
  | .binary _ x y => by
    rw [Form.relabel, Form.maxIndex, Form.maxIndex, x.maxIndex_relabel, y.maxIndex_relabel]
  | .app f args => by
    rw [Form.relabel, Form.maxIndex, Form.maxIndex, f.maxIndex_relabel, maxIndexList_relabel args]
  | .list xs => maxIndexList_relabel xs
  | .bind _ t => t.maxIndex_relabel

@[simp]
theorem Tele.maxIndex_relabel {k : Binder} :
    ∀ t : Tele p k, (t.relabel σ).maxIndex = t.maxIndex
  | .fields => rfl
  | .returns _ ret => ret.maxIndex_relabel
  | .runs _ ret body => by
    rw [Tele.relabel, Tele.maxIndex, Tele.maxIndex, ret.maxIndex_relabel,
      maxIndexBody_relabel body]
  | .arg _ _ ty none rest => by
    rw [Tele.relabel, Option.map_none, Tele.maxIndex, Tele.maxIndex, ty.maxIndex_relabel,
      rest.maxIndex_relabel]
  | .arg _ _ ty (some v) rest => by
    rw [Tele.relabel, Option.map_some, Tele.maxIndex, Tele.maxIndex, ty.maxIndex_relabel,
      rest.maxIndex_relabel]
    rfl

@[simp]
theorem Stmt.maxIndex_relabel : ∀ s : Stmt p, (s.relabel σ).maxIndex = s.maxIndex
  | .call _ x | .ret _ x | .impossibleBy _ x => x.maxIndex_relabel
  | .ifThen _ cond yes => by
    rw [Stmt.relabel, Stmt.maxIndex, Stmt.maxIndex, cond.maxIndex_relabel,
      maxIndexBody_relabel yes]
  | .ifElse _ cond yes no => by
    rw [Stmt.relabel, Stmt.maxIndex, Stmt.maxIndex, cond.maxIndex_relabel,
      maxIndexBody_relabel yes, maxIndexBody_relabel no]
  | .retUnit _ | .impossible _ => rfl

@[simp]
theorem maxIndexList_relabel :
    ∀ ts : List (Term p), maxIndexList (relabelList σ ts) = maxIndexList ts
  | [] => rfl
  | t :: ts => by
    rw [relabelList, maxIndexList, maxIndexList, t.maxIndex_relabel, maxIndexList_relabel ts]

@[simp]
theorem maxIndexBody_relabel :
    ∀ b : List (Stmt p), maxIndexBody (relabelBody σ b) = maxIndexBody b
  | [] => rfl
  | s :: b => by
    rw [relabelBody, maxIndexBody, maxIndexBody, s.maxIndex_relabel, maxIndexBody_relabel b]

end

/-- A new variable has the name of the old one, so it is relabeled with it. -/
@[simp]
theorem Tele.fresh_relabel {k : Binder} (v : Var) (floor : Nat) (t : Tele p k) :
    (t.relabel σ).fresh (v.relabel σ) floor = (t.fresh v floor).relabel σ := by
  simp only [Tele.fresh, Tele.maxIndex_relabel]
  rfl

/-! ## Free occurrences -/

mutual

/-- A relabeling moves free variables along. -/
@[simp]
theorem Term.occursFree_relabel (x : Var) :
    ∀ t : Term p, (t.relabel σ).occursFree (x.relabel σ) = t.occursFree x
  | .mk note form => by
    rw [Term.relabel, Term.occursFree, Term.occursFree, note.occursFree_relabel,
      form.occursFree_relabel]

@[simp]
theorem Note.occursFree_relabel (x : Var) :
    ∀ n : Note p (Term p), (n.relabel σ).occursFree (x.relabel σ) = n.occursFree x
  | .place _ _ | .kind _ => rfl
  | .sort ty _ => ty.occursFree_relabel x

@[simp]
theorem Form.occursFree_relabel (x : Var) :
    ∀ f : Form p, (f.relabel σ).occursFree (x.relabel σ) = f.occursFree x
  | .atom _ => rfl
  | .var v => by simp only [Form.relabel, Form.occursFree, Var.relabel_inj]
  | .unary _ a => a.occursFree_relabel x
  | .binary _ a b => by
    rw [Form.relabel, Form.occursFree, Form.occursFree, a.occursFree_relabel,
      b.occursFree_relabel]
  | .app f args => by
    rw [Form.relabel, Form.occursFree, Form.occursFree, f.occursFree_relabel,
      occursFreeList_relabel x args]
  | .list xs => occursFreeList_relabel x xs
  | .bind _ t => t.occursFree_relabel x

@[simp]
theorem Tele.occursFree_relabel (x : Var) {k : Binder} :
    ∀ t : Tele p k, (t.relabel σ).occursFree (x.relabel σ) = t.occursFree x
  | .fields => rfl
  | .returns _ ret => ret.occursFree_relabel x
  | .runs _ ret body => by
    rw [Tele.relabel, Tele.occursFree, Tele.occursFree, ret.occursFree_relabel,
      occursFreeBody_relabel x body]
  | .arg _ _ ty v rest => by
    simp only [Tele.relabel, Tele.occursFree, ty.occursFree_relabel x, rest.occursFree_relabel x,
      ne_eq, Var.map_relabel_eq_some]

@[simp]
theorem Stmt.occursFree_relabel (x : Var) :
    ∀ s : Stmt p, (s.relabel σ).occursFree (x.relabel σ) = s.occursFree x
  | .call _ a | .ret _ a | .impossibleBy _ a => a.occursFree_relabel x
  | .ifThen _ cond yes => by
    rw [Stmt.relabel, Stmt.occursFree, Stmt.occursFree, cond.occursFree_relabel,
      occursFreeBody_relabel x yes]
  | .ifElse _ cond yes no => by
    rw [Stmt.relabel, Stmt.occursFree, Stmt.occursFree, cond.occursFree_relabel,
      occursFreeBody_relabel x yes, occursFreeBody_relabel x no]
  | .retUnit _ | .impossible _ => rfl

@[simp]
theorem occursFreeList_relabel (x : Var) : ∀ ts : List (Term p),
    occursFreeList (x.relabel σ) (relabelList σ ts) = occursFreeList x ts
  | [] => rfl
  | t :: ts => by
    rw [relabelList, occursFreeList, occursFreeList, t.occursFree_relabel,
      occursFreeList_relabel x ts]

@[simp]
theorem occursFreeBody_relabel (x : Var) : ∀ b : List (Stmt p),
    occursFreeBody (x.relabel σ) (relabelBody σ b) = occursFreeBody x b
  | [] => rfl
  | s :: b => by
    rw [relabelBody, occursFreeBody, occursFreeBody, s.occursFree_relabel,
      occursFreeBody_relabel x b]

end

/-! ## Renaming -/

mutual

/-- Renaming of a variable commutes with relabelings. -/
theorem Term.rename_relabel (x y : Var) : ∀ t : Term p,
    (t.relabel σ).rename (x.relabel σ) (y.relabel σ) = (t.rename x y).relabel σ
  | .mk note form => by
    rw [Term.relabel, Term.rename, Term.rename, Term.relabel, note.rename_relabel,
      form.rename_relabel]

theorem Note.rename_relabel (x y : Var) : ∀ n : Note p (Term p),
    (n.relabel σ).rename (x.relabel σ) (y.relabel σ) = (n.rename x y).relabel σ
  | .place _ _ | .kind _ => rfl
  | .sort ty _ => by
    rw [Note.relabel, Note.rename, Note.rename, Note.relabel, ty.rename_relabel]

theorem Form.rename_relabel (x y : Var) : ∀ f : Form p,
    (f.relabel σ).rename (x.relabel σ) (y.relabel σ) = (f.rename x y).relabel σ
  | .atom _ => rfl
  | .var v => by
    simp only [Form.relabel, Form.rename, Var.relabel_inj]
    split <;> rfl
  | .unary _ a => by
    rw [Form.relabel, Form.rename, Form.rename, Form.relabel, a.rename_relabel]
  | .binary _ a b => by
    rw [Form.relabel, Form.rename, Form.rename, Form.relabel, a.rename_relabel, b.rename_relabel]
  | .app f args => by
    rw [Form.relabel, Form.rename, Form.rename, Form.relabel, f.rename_relabel,
      renameList_relabel x y args]
  | .list xs => by
    rw [Form.relabel, Form.rename, Form.rename, Form.relabel, renameList_relabel x y xs]
  | .bind _ t => by
    rw [Form.relabel, Form.rename, Form.rename, Form.relabel, t.rename_relabel]

theorem Tele.rename_relabel (x y : Var) {k : Binder} : ∀ t : Tele p k,
    (t.relabel σ).rename (x.relabel σ) (y.relabel σ) = (t.rename x y).relabel σ
  | .fields => rfl
  | .returns _ ret => by
    rw [Tele.relabel, Tele.rename, Tele.rename, Tele.relabel, ret.rename_relabel]
  | .runs _ ret body => by
    rw [Tele.relabel, Tele.rename, Tele.rename, Tele.relabel, ret.rename_relabel,
      renameBody_relabel x y body]
  | .arg _ _ ty v rest => by
    simp only [Tele.relabel, Tele.rename, ty.rename_relabel x y, Var.map_relabel_eq_some]
    split
    · rfl
    · rw [rest.rename_relabel x y]

theorem Stmt.rename_relabel (x y : Var) : ∀ s : Stmt p,
    (s.relabel σ).rename (x.relabel σ) (y.relabel σ) = (s.rename x y).relabel σ
  | .call _ a | .ret _ a | .impossibleBy _ a => by
    simp only [Stmt.relabel, Stmt.rename, a.rename_relabel x y]
  | .ifThen _ cond yes => by
    simp only [Stmt.relabel, Stmt.rename, cond.rename_relabel x y, renameBody_relabel x y yes]
  | .ifElse _ cond yes no => by
    simp only [Stmt.relabel, Stmt.rename, cond.rename_relabel x y, renameBody_relabel x y yes,
      renameBody_relabel x y no]
  | .retUnit _ | .impossible _ => rfl

theorem renameList_relabel (x y : Var) : ∀ ts : List (Term p),
    renameList (x.relabel σ) (y.relabel σ) (relabelList σ ts) = relabelList σ (renameList x y ts)
  | [] => rfl
  | t :: ts => by
    rw [relabelList, renameList, renameList, relabelList, t.rename_relabel,
      renameList_relabel x y ts]

theorem renameBody_relabel (x y : Var) : ∀ b : List (Stmt p),
    renameBody (x.relabel σ) (y.relabel σ) (relabelBody σ b) = relabelBody σ (renameBody x y b)
  | [] => rfl
  | s :: b => by
    rw [relabelBody, renameBody, renameBody, relabelBody, s.rename_relabel,
      renameBody_relabel x y b]

end

/-- Renaming the variable of a binder apart commutes with relabeling. -/
theorem Tele.refresh_relabel {k : Binder} (v : Var) (floor : Nat) (t : Tele p k) :
    (t.relabel σ).refresh (v.relabel σ) floor
      = ((t.refresh v floor).1.relabel σ, (t.refresh v floor).2.relabel σ) := by
  simp only [Tele.refresh_eq, Tele.fresh_relabel, Tele.rename_relabel]

/-! ## Substitution -/

mutual

/-- Substitution commutes with relabelings: the same binders are renamed, and to variables of the
same index. -/
theorem Term.subst_relabel (x : Var) (r : Term p) : ∀ t : Term p,
    (t.relabel σ).subst (x.relabel σ) (r.relabel σ) = (t.subst x r).relabel σ
  | .mk note form => by
    have hnote := note.subst_relabel x r
    cases form with
    | atom a => simp only [Term.relabel, Form.relabel, Term.subst_atom, hnote]
    | var v =>
      simp only [Term.relabel, Form.relabel, Term.subst_var, hnote, Var.relabel_inj]
      split <;> rfl
    | unary op a =>
      simp only [Term.relabel, Form.relabel, Term.subst_unary, hnote, Term.subst_relabel x r a]
    | binary op a b =>
      simp only [Term.relabel, Form.relabel, Term.subst_binary, hnote, Term.subst_relabel x r a,
        Term.subst_relabel x r b]
    | app f args =>
      simp only [Term.relabel, Form.relabel, Term.subst_app, hnote, Term.subst_relabel x r f,
        map_subst_relabelList x r args]
    | list xs =>
      simp only [Term.relabel, Form.relabel, Term.subst_list, hnote,
        map_subst_relabelList x r xs]
    | bind k t =>
      simp only [Term.relabel, Form.relabel, Term.subst_bind, hnote, t.subst_relabel x r]
termination_by t => 2 * t.size
decreasing_by all_goals simp only [Term.size, Form.size]; omega

/-- Sorts are substituted into as well. -/
theorem Note.subst_relabel (x : Var) (r : Term p) : ∀ n : Note p (Term p),
    (n.relabel σ).map (·.subst (x.relabel σ) (r.relabel σ)) = (n.map (·.subst x r)).relabel σ
  | .place _ _ | .kind _ => rfl
  | .sort ty _ => by
    rw [Note.relabel, Note.map, Note.map, Note.relabel, Term.subst_relabel x r ty]
termination_by n => 2 * n.size + 1
decreasing_by simp only [Note.size]; omega

/-- Lists are substituted into by `List.map`, relabeled by `relabelList`. -/
theorem map_subst_relabelList (x : Var) (r : Term p) : ∀ ts : List (Term p),
    (relabelList σ ts).map (·.subst (x.relabel σ) (r.relabel σ))
      = relabelList σ (ts.map (·.subst x r))
  | [] => rfl
  | t :: ts => by
    rw [relabelList, List.map_cons, List.map_cons, relabelList, Term.subst_relabel x r t,
      map_subst_relabelList x r ts]
termination_by ts => 2 * sizeList ts + 1
decreasing_by all_goals have := t.one_le_size; simp only [sizeList]; omega

theorem Tele.subst_relabel (x : Var) (r : Term p) {k : Binder} : ∀ t : Tele p k,
    (t.relabel σ).subst (x.relabel σ) (r.relabel σ) = (t.subst x r).relabel σ
  | .fields => rfl
  | .returns _ ret => by
    simp only [Tele.relabel, Tele.subst_returns, Term.subst_relabel x r ret]
  | .runs _ ret body => by
    simp only [Tele.relabel, Tele.subst_runs, Term.subst_relabel x r ret,
      map_subst_relabelBody x r body]
  | .arg _ _ ty none rest => by
    simp only [Tele.relabel, Option.map_none, Tele.subst_arg_none, Term.subst_relabel x r ty,
      rest.subst_relabel x r]
  | .arg _ _ ty (some v) rest => by
    -- a fresh index depends on indices only, so that both sides choose the same one
    have hrenamed := (rest.refresh v r.maxIndex).2.subst_relabel x r
    have hrest := rest.subst_relabel x r
    simp only [Tele.relabel, Option.map_some, Tele.subst_arg_some, Term.subst_relabel x r ty,
      Var.relabel_inj, Term.occursFree_relabel, Term.maxIndex_relabel, Tele.refresh_relabel,
      hrenamed, hrest]
    split
    · rfl
    · split <;> rfl
termination_by t => 2 * t.size
decreasing_by all_goals simp only [Tele.size, Tele.size_refresh]; omega

theorem Stmt.subst_relabel (x : Var) (r : Term p) : ∀ s : Stmt p,
    (s.relabel σ).subst (x.relabel σ) (r.relabel σ) = (s.subst x r).relabel σ
  | .call _ a => by simp only [Stmt.relabel, Stmt.subst_call, Term.subst_relabel x r a]
  | .ifThen _ cond yes => by
    simp only [Stmt.relabel, Stmt.subst_ifThen, Term.subst_relabel x r cond,
      map_subst_relabelBody x r yes]
  | .ifElse _ cond yes no => by
    simp only [Stmt.relabel, Stmt.subst_ifElse, Term.subst_relabel x r cond,
      map_subst_relabelBody x r yes, map_subst_relabelBody x r no]
  | .ret _ a => by simp only [Stmt.relabel, Stmt.subst_ret, Term.subst_relabel x r a]
  | .retUnit _ | .impossible _ => rfl
  | .impossibleBy _ a => by
    simp only [Stmt.relabel, Stmt.subst_impossibleBy, Term.subst_relabel x r a]
termination_by s => 2 * s.size
decreasing_by all_goals simp only [Stmt.size]; omega

theorem map_subst_relabelBody (x : Var) (r : Term p) : ∀ b : List (Stmt p),
    (relabelBody σ b).map (·.subst (x.relabel σ) (r.relabel σ))
      = relabelBody σ (b.map (·.subst x r))
  | [] => rfl
  | s :: b => by
    rw [relabelBody, List.map_cons, List.map_cons, relabelBody, s.subst_relabel x r,
      map_subst_relabelBody x r b]
termination_by b => 2 * sizeBody b + 1
decreasing_by all_goals have := s.one_le_size; simp only [sizeBody]; omega

end

/-- An argument may be put in before or after relabeling. -/
theorem Tele.instantiate_relabel {k : Binder} (t : Tele p k) (v : Option Var) (r : Term p) :
    (t.relabel σ).instantiate (v.map (·.relabel σ)) (r.relabel σ)
      = (t.instantiate v r).relabel σ := by
  cases v with
  | none => rfl
  | some x => exact t.subst_relabel σ x r

/-! ## Equality up to bound names -/

theorem Unary.relabel_inj {op op' : Unary} : op.relabel σ = op'.relabel σ ↔ op = op' := by
  constructor
  · intro h
    cases op <;> cases op' <;> simp only [Unary.relabel, reduceCtorEq] at h ⊢
    exact congrArg Unary.member (σ.injective (Unary.member.inj h))
  · rintro rfl
    rfl

/-- Paired binders with their names changed. -/
def Paired.relabel (σ : Relabeling) (st : Paired) : Paired :=
  st.map fun pair => (pair.1.map (·.relabel σ), pair.2.map (·.relabel σ))

/-- Which variables are paired does not change if both sides are relabeled. -/
theorem Paired.sameVar_relabel (st : Paired) (x y : Var) :
    (st.relabel σ).sameVar (x.relabel σ) (y.relabel σ) = st.sameVar x y := by
  induction st with
  | nil => simp only [Paired.relabel, List.map_nil, Paired.sameVar, Var.relabel_inj]
  | cons pair outer ih =>
    simp only [Paired.relabel, List.map_cons, Paired.sameVar, Var.map_relabel_eq_some] at ih ⊢
    rw [ih]

mutual

/-- Terms are equal up to bound names if and only if their relabelings are. -/
theorem Term.alphaEqUnder_relabel (st : Paired) : ∀ a b : Term p,
    (a.relabel σ).alphaEqUnder (st.relabel σ) (b.relabel σ) = a.alphaEqUnder st b
  | .mk _ f, .mk _ g => Form.alphaEqUnder_relabel st f g
termination_by structural x _ => x

theorem Form.alphaEqUnder_relabel (st : Paired) : ∀ f g : Form p,
    (f.relabel σ).alphaEqUnder (st.relabel σ) (g.relabel σ) = f.alphaEqUnder st g
  | .atom _, g => by cases g <;> rfl
  | .var x, g => by
    cases g with
    | var y => exact Paired.sameVar_relabel σ st x y
    | _ => rfl
  | .unary _ x, g => by
    cases g with
    | unary _ y =>
      simp only [Form.relabel, Form.alphaEqUnder, Unary.relabel_inj,
        Term.alphaEqUnder_relabel st x y]
    | _ => rfl
  | .binary _ x₁ x₂, g => by
    cases g with
    | binary _ y₁ y₂ =>
      simp only [Form.relabel, Form.alphaEqUnder, Term.alphaEqUnder_relabel st x₁ y₁,
        Term.alphaEqUnder_relabel st x₂ y₂]
    | _ => rfl
  | .app f xs, g => by
    cases g with
    | app g ys =>
      simp only [Form.relabel, Form.alphaEqUnder, Term.alphaEqUnder_relabel st f g,
        alphaEqList_relabel st xs ys]
    | _ => rfl
  | .list xs, g => by
    cases g with
    | list ys => exact alphaEqList_relabel st xs ys
    | _ => rfl
  | .bind _ t, g => by
    cases g with
    | bind _ u => exact Tele.alphaEqUnder_relabel st t u
    | _ => rfl
termination_by structural x _ => x

theorem Tele.alphaEqUnder_relabel (st : Paired) {k l : Binder} :
    ∀ (t : Tele p k) (u : Tele p l),
      (t.relabel σ).alphaEqUnder (st.relabel σ) (u.relabel σ) = t.alphaEqUnder st u
  | .fields, u => by cases u <;> rfl
  | .returns _ ret, u => by
    cases u with
    | returns _ ret' =>
      simp only [Tele.relabel, Tele.alphaEqUnder, Term.alphaEqUnder_relabel st ret ret']
    | _ => rfl
  | .runs _ ret body, u => by
    cases u with
    | runs _ ret' body' =>
      simp only [Tele.relabel, Tele.alphaEqUnder, Term.alphaEqUnder_relabel st ret ret',
        alphaEqBody_relabel st body body']
    | _ => rfl
  | .arg _ _ ty v rest, u => by
    cases u with
    | arg _ _ ty' v' rest' =>
      have hrest : (rest.relabel σ).alphaEqUnder
          ((v.map (·.relabel σ), v'.map (·.relabel σ)) :: st.relabel σ) (rest'.relabel σ)
            = rest.alphaEqUnder ((v, v') :: st) rest' :=
        Tele.alphaEqUnder_relabel ((v, v') :: st) rest rest'
      simp only [Tele.relabel, Tele.alphaEqUnder, Term.alphaEqUnder_relabel st ty ty', hrest]
    | _ => rfl
termination_by structural x _ => x

theorem Stmt.alphaEqUnder_relabel (st : Paired) : ∀ s s' : Stmt p,
    (s.relabel σ).alphaEqUnder (st.relabel σ) (s'.relabel σ) = s.alphaEqUnder st s'
  | .call _ x, s' => by
    cases s' with
    | call _ y => exact Term.alphaEqUnder_relabel st x y
    | _ => rfl
  | .ifThen _ cond yes, s' => by
    cases s' with
    | ifThen _ cond' yes' =>
      simp only [Stmt.relabel, Stmt.alphaEqUnder, Term.alphaEqUnder_relabel st cond cond',
        alphaEqBody_relabel st yes yes']
    | _ => rfl
  | .ifElse _ cond yes no, s' => by
    cases s' with
    | ifElse _ cond' yes' no' =>
      simp only [Stmt.relabel, Stmt.alphaEqUnder, Term.alphaEqUnder_relabel st cond cond',
        alphaEqBody_relabel st yes yes', alphaEqBody_relabel st no no']
    | _ => rfl
  | .ret _ x, s' => by
    cases s' with
    | ret _ y => exact Term.alphaEqUnder_relabel st x y
    | _ => rfl
  | .retUnit _, s' | .impossible _, s' => by cases s' <;> rfl
  | .impossibleBy _ x, s' => by
    cases s' with
    | impossibleBy _ y => exact Term.alphaEqUnder_relabel st x y
    | _ => rfl
termination_by structural x _ => x

theorem alphaEqList_relabel (st : Paired) : ∀ xs ys : List (Term p),
    alphaEqList (st.relabel σ) (relabelList σ xs) (relabelList σ ys) = alphaEqList st xs ys
  | [], ys => by cases ys <;> rfl
  | x :: xs, ys => by
    cases ys with
    | nil => rfl
    | cons y ys =>
      simp only [relabelList, alphaEqList, Term.alphaEqUnder_relabel st x y,
        alphaEqList_relabel st xs ys]
termination_by structural x _ => x

theorem alphaEqBody_relabel (st : Paired) : ∀ b b' : List (Stmt p),
    alphaEqBody (st.relabel σ) (relabelBody σ b) (relabelBody σ b') = alphaEqBody st b b'
  | [], b' => by cases b' <;> rfl
  | s :: b, b' => by
    cases b' with
    | nil => rfl
    | cons s' b' =>
      simp only [relabelBody, alphaEqBody, Stmt.alphaEqUnder_relabel st s s',
        alphaEqBody_relabel st b b']
termination_by structural x _ => x

end

/-- Equality up to bound names is not changed by a relabeling of both sides, free variables
included. -/
@[simp]
theorem Term.alphaEq_relabel (a b : Term p) :
    (a.relabel σ).alphaEq (b.relabel σ) = a.alphaEq b :=
  Term.alphaEqUnder_relabel σ [] a b

/-- The pairing of variables with what they are changed to. -/
def Relabeling.paired (σ : Relabeling) (bound : List (Option Var)) : Paired :=
  bound.map fun v => (v, v.map (·.relabel σ))

/-- A variable and what it is changed to are bound at the same position; or neither is bound, and
then they are the same if the name is not changed. -/
theorem Relabeling.sameVar_paired (bound : List (Option Var)) (x : Var) :
    (σ.paired bound).sameVar x (x.relabel σ) ↔ some x ∈ bound ∨ x.relabel σ = x := by
  induction bound with
  | nil => simp [Relabeling.paired, Paired.sameVar, eq_comm]
  | cons v bound ih =>
    simp only [Relabeling.paired, List.map_cons, Paired.sameVar, Var.map_relabel_eq_some, or_self,
      and_self, List.mem_cons] at ih ⊢
    by_cases hv : v = some x
    · simp [hv]
    · rw [if_neg hv, ih]
      simp [Ne.symm hv]

/-- The vocabulary that a relabeling does not change, where some variables are bound. -/
def Relabeling.fixed (σ : Relabeling) (bound : List (Option Var)) : Vocabulary where
  var x := some x ∈ bound ∨ x.relabel σ = x
  field s := σ.name s = s

/-- In the scope of a binder its variable is one more that is bound. -/
theorem Relabeling.without_bind_fixed (v : Option Var) (bound : List (Option Var)) :
    ((σ.fixed bound).bind v).Without none (σ.fixed (v :: bound)) where
  var y hy := by
    obtain rfl | hy | hy := hy
    · exact .inr (.inl (by simp))
    · exact .inr (.inl (by simp [hy]))
    · exact .inr (.inr hy)
  field _ h := h

/-- A member whose name is not changed is selected as before. -/
theorem Unary.relabel_eq_of_known {bound : List (Option Var)} {op : Unary}
    (h : op.Known (σ.fixed bound)) : op.relabel σ = op := by
  cases op with
  | member field => exact congrArg Unary.member h
  | _ => rfl

section

variable {σ : Relabeling}

mutual

/-- A term whose free variables and fields are not changed is equal to its relabeling, if its bound
variables are paired with what they are changed to. -/
theorem Term.alphaEqUnder_relabel_self {bound : List (Option Var)} : ∀ {t : Term p},
    t.Known (σ.fixed bound) → t.alphaEqUnder (σ.paired bound) (t.relabel σ)
  | .mk _ _, h => Form.alphaEqUnder_relabel_self h.2

theorem Form.alphaEqUnder_relabel_self {bound : List (Option Var)} : ∀ {f : Form p},
    f.Known (σ.fixed bound) → f.alphaEqUnder (σ.paired bound) (f.relabel σ)
  | .atom a, _ => by simp [Form.relabel, Form.alphaEqUnder]
  | .var x, h => (σ.sameVar_paired bound x).mpr h
  | .unary op x, h => by
    simp only [Form.relabel, Form.alphaEqUnder, op.relabel_eq_of_known σ h.1,
      Term.alphaEqUnder_relabel_self h.2, decide_true, Bool.and_self]
  | .binary _ x y, h => by
    simp only [Form.relabel, Form.alphaEqUnder, Term.alphaEqUnder_relabel_self h.1,
      Term.alphaEqUnder_relabel_self h.2, decide_true, Bool.and_self]
  | .app f args, h => by
    simp only [Form.relabel, Form.alphaEqUnder, Term.alphaEqUnder_relabel_self h.1,
      alphaEqList_relabel_self h.2, Bool.and_self]
  | .list xs, h => alphaEqList_relabel_self h
  | .bind _ t, h => Tele.alphaEqUnder_relabel_self (t := t) h

theorem Tele.alphaEqUnder_relabel_self {bound : List (Option Var)} {k : Binder} :
    ∀ {t : Tele p k}, t.Known (σ.fixed bound) → t.alphaEqUnder (σ.paired bound) (t.relabel σ)
  | .fields, _ => rfl
  | .returns _ ret, h => by
    simp only [Tele.relabel, Tele.alphaEqUnder, Term.alphaEqUnder_relabel_self (t := ret) h,
      decide_true, Bool.and_self]
  | .runs _ ret body, h => by
    simp only [Tele.relabel, Tele.alphaEqUnder, Term.alphaEqUnder_relabel_self h.1,
      alphaEqBody_relabel_self h.2, decide_true, Bool.and_self]
  | .arg _ _ ty v rest, h => by
    have hrest : rest.alphaEqUnder ((v, v.map (·.relabel σ)) :: σ.paired bound) (rest.relabel σ) :=
      Tele.alphaEqUnder_relabel_self (h.2.2.mono (σ.without_bind_fixed v bound))
    simp only [Tele.relabel, Tele.alphaEqUnder, Term.alphaEqUnder_relabel_self h.1, hrest,
      decide_true, Bool.and_self]

theorem Stmt.alphaEqUnder_relabel_self {bound : List (Option Var)} : ∀ {s : Stmt p},
    s.Known (σ.fixed bound) → s.alphaEqUnder (σ.paired bound) (s.relabel σ)
  | .call _ x, h | .ret _ x, h | .impossibleBy _ x, h => Term.alphaEqUnder_relabel_self (t := x) h
  | .ifThen _ cond yes, h => by
    simp only [Stmt.relabel, Stmt.alphaEqUnder, Term.alphaEqUnder_relabel_self h.1,
      alphaEqBody_relabel_self h.2, Bool.and_self]
  | .ifElse _ cond yes no, h => by
    simp only [Stmt.relabel, Stmt.alphaEqUnder, Term.alphaEqUnder_relabel_self h.1,
      alphaEqBody_relabel_self h.2.1, alphaEqBody_relabel_self h.2.2, Bool.and_self]
  | .retUnit _, _ | .impossible _, _ => rfl

theorem alphaEqList_relabel_self {bound : List (Option Var)} : ∀ {ts : List (Term p)},
    KnownList (σ.fixed bound) ts → alphaEqList (σ.paired bound) ts (relabelList σ ts)
  | [], _ => rfl
  | t :: ts, h => by
    simp only [relabelList, alphaEqList, Term.alphaEqUnder_relabel_self h.1,
      alphaEqList_relabel_self h.2, Bool.and_self]

theorem alphaEqBody_relabel_self {bound : List (Option Var)} : ∀ {b : List (Stmt p)},
    KnownBody (σ.fixed bound) b → alphaEqBody (σ.paired bound) b (relabelBody σ b)
  | [], _ => rfl
  | s :: b, h => by
    simp only [relabelBody, alphaEqBody, Stmt.alphaEqUnder_relabel_self h.1,
      alphaEqBody_relabel_self h.2, Bool.and_self]

end

/-- A relabeling that changes neither the free variables of a term nor the names of fields gives a
term that is equal up to bound names. -/
theorem Term.alphaEq_relabel_self {t : Term p} (h : t.Known (σ.fixed [])) :
    t.alphaEq (t.relabel σ) :=
  Term.alphaEqUnder_relabel_self h

end

end DependentCore
