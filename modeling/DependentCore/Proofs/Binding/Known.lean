import DependentCore.Proofs.Binding.Renaming

/-!
# The names that a tree uses

A `Vocabulary` says which variables may occur free and which names fields may have. A tree is
`Known` to a vocabulary if it keeps to it, in its sorts as well: free variables are those of the
vocabulary, and so are the names of the fields of sigma types and of the members that are selected.

* `Term.Known.mono`: a larger vocabulary knows more trees,
* `Term.Known.rename`, `Term.Known.subst`: what is known stays known when one variable is replaced
  by something that is known. It does not matter here whether a variable is captured.
-/

namespace DependentCore

variable {p : Phase}

/-- The variables that may occur free, and the names of fields. -/
structure Vocabulary where
  var : Var → Prop
  field : String → Prop

/-- The vocabulary with the variable of an argument added, if the argument has one. -/
def Vocabulary.bind (S : Vocabulary) (v : Option Var) : Vocabulary :=
  { S with var := fun y => v = some y ∨ S.var y }

/-- A member that is selected has a known name. -/
def Unary.Known (S : Vocabulary) : Unary → Prop
  | .member field => S.field field
  | _ => True

mutual

/-- The names of a term and its sorts are known. -/
def Term.Known (S : Vocabulary) : Term p → Prop
  | .mk note form => note.Known S ∧ form.Known S

/-- The names of a sort are known. -/
def Note.Known (S : Vocabulary) : Note p (Term p) → Prop
  | .place _ _ | .kind _ => True
  | .sort ty _ => ty.Known S

/-- The names of a form are known. -/
def Form.Known (S : Vocabulary) : Form p → Prop
  | .atom _ => True
  | .var v => S.var v
  | .unary op x => op.Known S ∧ x.Known S
  | .binary _ x y => x.Known S ∧ y.Known S
  | .app f args => f.Known S ∧ KnownList S args
  | .list xs => KnownList S xs
  | .bind _ t => t.Known S

/-- The names of a telescope are known. An argument adds its variable for what follows it; that of
a sigma type is the name of a field. -/
def Tele.Known (S : Vocabulary) {k : Binder} : Tele p k → Prop
  | .fields => True
  | .returns _ ret => ret.Known S
  | .runs _ ret body => ret.Known S ∧ KnownBody S body
  | .arg _ _ ty v rest =>
    ty.Known S ∧ (k = .sigma → ∀ w, v = some w → S.field w.name) ∧ rest.Known (S.bind v)

/-- The names of a statement are known. -/
def Stmt.Known (S : Vocabulary) : Stmt p → Prop
  | .call _ x | .ret _ x | .impossibleBy _ x => x.Known S
  | .ifThen _ cond yes => cond.Known S ∧ KnownBody S yes
  | .ifElse _ cond yes no => cond.Known S ∧ KnownBody S yes ∧ KnownBody S no
  | .retUnit _ | .impossible _ => True

/-- The names of the terms of a list are known. -/
def KnownList (S : Vocabulary) : List (Term p) → Prop
  | [] => True
  | x :: xs => x.Known S ∧ KnownList S xs

/-- The names of the statements of a body are known. -/
def KnownBody (S : Vocabulary) : List (Stmt p) → Prop
  | [] => True
  | s :: rest => s.Known S ∧ KnownBody S rest

end

/-! ## Replacing a variable -/

/-- What `S` allows `S'` allows, apart from the variable `x`. -/
structure Vocabulary.Without (x : Option Var) (S S' : Vocabulary) : Prop where
  var : ∀ v, S.var v → x = some v ∨ S'.var v
  field : ∀ s, S.field s → S'.field s

namespace Vocabulary.Without

variable {x : Option Var} {S S' : Vocabulary}

theorem bind (h : Without x S S') (v : Option Var) : Without x (S.bind v) (S'.bind v) where
  var y hy := by
    obtain hy | hy := hy
    · exact .inr (.inl hy)
    · exact (h.var y hy).imp id .inr
  field := h.field

/-- Where `x` is bound again, it is allowed on both sides. -/
theorem bind_self (h : Without x S S') : Without none (S.bind x) (S'.bind x) where
  var y hy := by
    obtain hy | hy := hy
    · exact .inr (.inl hy)
    · exact .inr (h.var y hy)
  field := h.field

theorem weaken (S : Vocabulary) (v : Option Var) : Without none S (S.bind v) :=
  ⟨fun _ hy => .inr (.inr hy), fun _ h => h⟩

/-- Outside the scope of an argument everything is allowed but its variable. -/
theorem unbind (S : Vocabulary) (v : Option Var) : Without v (S.bind v) S :=
  ⟨fun _ hy => hy, fun _ h => h⟩

end Vocabulary.Without

theorem Unary.Known.mono {S S' : Vocabulary} {x : Option Var} (h : S.Without x S') {op : Unary}
    (hop : op.Known S) : op.Known S' := by
  cases op with
  | member field => exact h.field field hop
  | _ => trivial

mutual

theorem Term.Known.mono {S S' : Vocabulary} (h : S.Without none S') :
    ∀ {t : Term p}, t.Known S → t.Known S'
  | .mk _ _, ht => ⟨ht.1.mono h, ht.2.mono h⟩

theorem Note.Known.mono {S S' : Vocabulary} (h : S.Without none S') :
    ∀ {n : Note p (Term p)}, n.Known S → n.Known S'
  | .place _ _, _ | .kind _, _ => trivial
  | .sort ty _, hn => Term.Known.mono h (t := ty) hn

theorem Form.Known.mono {S S' : Vocabulary} (h : S.Without none S') :
    ∀ {f : Form p}, f.Known S → f.Known S'
  | .atom _, _ => trivial
  | .var v, hf => (h.var v hf).resolve_left nofun
  | .unary _ _, hf => ⟨hf.1.mono h, hf.2.mono h⟩
  | .binary _ _ _, hf => ⟨hf.1.mono h, hf.2.mono h⟩
  | .app _ _, hf => ⟨hf.1.mono h, KnownList.mono h hf.2⟩
  | .list _, hf => KnownList.mono h hf
  | .bind _ t, hf => Tele.Known.mono h (t := t) hf

theorem Tele.Known.mono {S S' : Vocabulary} (h : S.Without none S') {k : Binder} :
    ∀ {t : Tele p k}, t.Known S → t.Known S'
  | .fields, _ => trivial
  | .returns _ ret, ht => Term.Known.mono h (t := ret) ht
  | .runs _ _ _, ht => ⟨ht.1.mono h, KnownBody.mono h ht.2⟩
  | .arg _ _ _ v _, ht =>
    ⟨ht.1.mono h, fun hk w hw => h.field _ (ht.2.1 hk w hw), ht.2.2.mono (h.bind v)⟩

theorem Stmt.Known.mono {S S' : Vocabulary} (h : S.Without none S') :
    ∀ {s : Stmt p}, s.Known S → s.Known S'
  | .call _ x, hs | .ret _ x, hs | .impossibleBy _ x, hs => Term.Known.mono h (t := x) hs
  | .ifThen _ _ _, hs => ⟨hs.1.mono h, KnownBody.mono h hs.2⟩
  | .ifElse _ _ _ _, hs => ⟨hs.1.mono h, KnownBody.mono h hs.2.1, KnownBody.mono h hs.2.2⟩
  | .retUnit _, _ | .impossible _, _ => trivial

theorem KnownList.mono {S S' : Vocabulary} (h : S.Without none S') :
    ∀ {ts : List (Term p)}, KnownList S ts → KnownList S' ts
  | [], _ => trivial
  | _ :: _, hts => ⟨hts.1.mono h, KnownList.mono h hts.2⟩

theorem KnownBody.mono {S S' : Vocabulary} (h : S.Without none S') :
    ∀ {b : List (Stmt p)}, KnownBody S b → KnownBody S' b
  | [], _ => trivial
  | _ :: _, hb => ⟨hb.1.mono h, KnownBody.mono h hb.2⟩

end

mutual

/-- A variable may be renamed to one that is known. -/
theorem Term.Known.rename {x y : Var} {S S' : Vocabulary} (h : S.Without (some x) S')
    (hy : S'.var y) : ∀ {t : Term p}, t.Known S → (t.rename x y).Known S'
  | .mk _ _, ht => ⟨ht.1.rename h hy, ht.2.rename h hy⟩

theorem Note.Known.rename {x y : Var} {S S' : Vocabulary} (h : S.Without (some x) S')
    (hy : S'.var y) : ∀ {n : Note p (Term p)}, n.Known S → (n.rename x y).Known S'
  | .place _ _, _ | .kind _, _ => trivial
  | .sort ty _, hn => Term.Known.rename h hy (t := ty) hn

theorem Form.Known.rename {x y : Var} {S S' : Vocabulary} (h : S.Without (some x) S')
    (hy : S'.var y) : ∀ {f : Form p}, f.Known S → (f.rename x y).Known S'
  | .atom _, _ => trivial
  | .var v, hf => by
    rw [Form.rename]
    split
    · exact hy
    · next hne => exact (h.var v hf).resolve_left fun e => hne (Option.some.inj e).symm
  | .unary _ _, hf => ⟨hf.1.mono h, hf.2.rename h hy⟩
  | .binary _ _ _, hf => ⟨hf.1.rename h hy, hf.2.rename h hy⟩
  | .app _ _, hf => ⟨hf.1.rename h hy, KnownList.rename h hy hf.2⟩
  | .list _, hf => KnownList.rename h hy hf
  | .bind _ t, hf => Tele.Known.rename h hy (t := t) hf

theorem Tele.Known.rename {x y : Var} {S S' : Vocabulary} (h : S.Without (some x) S')
    (hy : S'.var y) {k : Binder} : ∀ {t : Tele p k}, t.Known S → (t.rename x y).Known S'
  | .fields, _ => trivial
  | .returns _ ret, ht => Term.Known.rename h hy (t := ret) ht
  | .runs _ _ _, ht => ⟨ht.1.rename h hy, KnownBody.rename h hy ht.2⟩
  | .arg _ _ _ v rest, ht => by
    refine ⟨ht.1.rename h hy, fun hk w hw => h.field _ (ht.2.1 hk w hw), ?_⟩
    split
    · -- the argument binds `x` again, so that the scope is not renamed
      next hv =>
      subst hv
      exact ht.2.2.mono h.bind_self
    · exact ht.2.2.rename (h.bind v) (.inr hy)

theorem Stmt.Known.rename {x y : Var} {S S' : Vocabulary} (h : S.Without (some x) S')
    (hy : S'.var y) : ∀ {s : Stmt p}, s.Known S → (s.rename x y).Known S'
  | .call _ a, hs | .ret _ a, hs | .impossibleBy _ a, hs => Term.Known.rename h hy (t := a) hs
  | .ifThen _ _ _, hs => ⟨hs.1.rename h hy, KnownBody.rename h hy hs.2⟩
  | .ifElse _ _ _ _, hs =>
    ⟨hs.1.rename h hy, KnownBody.rename h hy hs.2.1, KnownBody.rename h hy hs.2.2⟩
  | .retUnit _, _ | .impossible _, _ => trivial

theorem KnownList.rename {x y : Var} {S S' : Vocabulary} (h : S.Without (some x) S')
    (hy : S'.var y) : ∀ {ts : List (Term p)}, KnownList S ts → KnownList S' (renameList x y ts)
  | [], _ => trivial
  | _ :: _, hts => ⟨hts.1.rename h hy, KnownList.rename h hy hts.2⟩

theorem KnownBody.rename {x y : Var} {S S' : Vocabulary} (h : S.Without (some x) S')
    (hy : S'.var y) : ∀ {b : List (Stmt p)}, KnownBody S b → KnownBody S' (renameBody x y b)
  | [], _ => trivial
  | _ :: _, hb => ⟨hb.1.rename h hy, KnownBody.rename h hy hb.2⟩

end

mutual

/-- A variable may be replaced by a term that is known. -/
theorem Term.Known.subst {x : Var} {S S' : Vocabulary} (h : S.Without (some x) S') {r : Term p}
    (hr : r.Known S') : ∀ {t : Term p}, t.Known S → (t.subst x r).Known S'
  | .mk note (.atom a), ht => by
    rw [Term.subst_atom]
    exact ⟨Note.Known.subst h hr ht.1, trivial⟩
  | .mk note (.var v), ht => by
    rw [Term.subst_var]
    split
    · exact hr
    · next hne =>
      refine ⟨Note.Known.subst h hr ht.1, ?_⟩
      exact (h.var v ht.2).resolve_left fun e => hne (Option.some.inj e).symm
  | .mk note (.unary op a), ht => by
    rw [Term.subst_unary]
    exact ⟨Note.Known.subst h hr ht.1, ht.2.1.mono h, Term.Known.subst h hr ht.2.2⟩
  | .mk note (.binary op a b), ht => by
    rw [Term.subst_binary]
    exact ⟨Note.Known.subst h hr ht.1, Term.Known.subst h hr ht.2.1, Term.Known.subst h hr ht.2.2⟩
  | .mk note (.app f args), ht => by
    rw [Term.subst_app]
    exact ⟨Note.Known.subst h hr ht.1, Term.Known.subst h hr ht.2.1, KnownList.subst h hr ht.2.2⟩
  | .mk note (.list xs), ht => by
    rw [Term.subst_list]
    exact ⟨Note.Known.subst h hr ht.1, KnownList.subst h hr ht.2⟩
  | .mk note (.bind k t), ht => by
    rw [Term.subst_bind]
    exact ⟨Note.Known.subst h hr ht.1, Tele.Known.subst h hr (t := t) ht.2⟩
termination_by t => 2 * t.size
decreasing_by all_goals simp only [Term.size, Form.size]; omega

theorem Note.Known.subst {x : Var} {S S' : Vocabulary} (h : S.Without (some x) S') {r : Term p}
    (hr : r.Known S') : ∀ {n : Note p (Term p)}, n.Known S → (n.map (·.subst x r)).Known S'
  | .place _ _, _ | .kind _, _ => trivial
  | .sort ty _, hn => Term.Known.subst h hr (t := ty) hn
termination_by n => 2 * n.size + 1
decreasing_by simp only [Note.size]; omega

theorem Tele.Known.subst {x : Var} {S S' : Vocabulary} (h : S.Without (some x) S') {r : Term p}
    (hr : r.Known S') {k : Binder} : ∀ {t : Tele p k}, t.Known S → (t.subst x r).Known S'
  | .fields, _ => trivial
  | .returns _ ret, ht => Term.Known.subst h hr (t := ret) ht
  | .runs _ ret body, ht => by
    rw [Tele.subst_runs]
    exact ⟨Term.Known.subst h hr ht.1, KnownBody.subst h hr ht.2⟩
  | .arg _ _ ty none rest, ht => by
    rw [Tele.subst_arg_none]
    exact ⟨Term.Known.subst h hr ht.1, nofun,
      ht.2.2.subst (h.bind none) (hr.mono (.weaken S' none))⟩
  | .arg _ _ ty (some v) rest, ht => by
    have hfield := fun hk w hw => h.field _ (ht.2.1 hk w hw)
    rw [Tele.subst_arg_some]
    split
    · next hv =>
      subst hv
      exact ⟨Term.Known.subst h hr ht.1, hfield, ht.2.2.mono h.bind_self⟩
    · split
      · -- the scope is renamed first; the new variable has the name of the old one
        let new := (rest.refresh v r.maxIndex).1
        have hnew : (S.bind (some v)).Without (some v) (S.bind (some new)) :=
          ⟨fun _ hy => hy.imp id .inr, fun _ hs => hs⟩
        have hrest : (rest.refresh v r.maxIndex).2.Known (S.bind (some new)) := by
          rw [Tele.refresh_eq]
          exact ht.2.2.rename hnew (.inl rfl)
        refine ⟨Term.Known.subst h hr ht.1, fun hk w hw => ?_, ?_⟩
        · cases hw
          exact hfield hk v rfl
        · exact hrest.subst (h.bind (some new)) (hr.mono (.weaken S' (some new)))
      · exact ⟨Term.Known.subst h hr ht.1, hfield,
          ht.2.2.subst (h.bind (some v)) (hr.mono (.weaken S' (some v)))⟩
termination_by t => 2 * t.size
decreasing_by all_goals simp only [Tele.size, Tele.size_refresh]; omega

theorem Stmt.Known.subst {x : Var} {S S' : Vocabulary} (h : S.Without (some x) S') {r : Term p}
    (hr : r.Known S') : ∀ {s : Stmt p}, s.Known S → (s.subst x r).Known S'
  | .call _ a, hs | .ret _ a, hs | .impossibleBy _ a, hs => Term.Known.subst h hr (t := a) hs
  | .ifThen _ cond yes, hs => by
    rw [Stmt.subst_ifThen]
    exact ⟨Term.Known.subst h hr hs.1, KnownBody.subst h hr hs.2⟩
  | .ifElse _ cond yes no, hs => by
    rw [Stmt.subst_ifElse]
    exact ⟨Term.Known.subst h hr hs.1, KnownBody.subst h hr hs.2.1, KnownBody.subst h hr hs.2.2⟩
  | .retUnit _, _ | .impossible _, _ => trivial
termination_by s => 2 * s.size
decreasing_by all_goals simp only [Stmt.size]; omega

theorem KnownList.subst {x : Var} {S S' : Vocabulary} (h : S.Without (some x) S') {r : Term p}
    (hr : r.Known S') : ∀ {ts : List (Term p)}, KnownList S ts → KnownList S' (ts.map (·.subst x r))
  | [], _ => trivial
  | t :: ts, hts => ⟨Term.Known.subst h hr hts.1, KnownList.subst h hr hts.2⟩
termination_by ts => 2 * sizeList ts + 1
decreasing_by all_goals have := t.one_le_size; simp only [sizeList]; omega

theorem KnownBody.subst {x : Var} {S S' : Vocabulary} (h : S.Without (some x) S') {r : Term p}
    (hr : r.Known S') : ∀ {b : List (Stmt p)}, KnownBody S b → KnownBody S' (b.map (·.subst x r))
  | [], _ => trivial
  | s :: b, hb => ⟨hb.1.subst h hr, KnownBody.subst h hr hb.2⟩
termination_by b => 2 * sizeBody b + 1
decreasing_by all_goals have := s.one_le_size; simp only [sizeBody]; omega

end

/-- The rest of a telescope stays known when an argument is supplied. -/
theorem Tele.Known.instantiate {S : Vocabulary} {k : Binder} {t : Tele p k} {v : Option Var}
    (ht : t.Known (S.bind v)) {r : Term p} (hr : r.Known S) : (t.instantiate v r).Known S := by
  cases v with
  | none => exact ht.mono (.unbind S none)
  | some x => exact ht.subst (.unbind S (some x)) hr

end DependentCore
