import DependentCore.Proofs.Reduction.Coupling
import DependentCore.Proofs.Typing.Derivations

/-!
# Relabelings in the checker

What the checker computes from types commutes with relabelings: the types of members, and the values
that matching finds for placeholders. Written terms correspond if one is the other relabeled, places
apart.

* `Meaning.relabel`, `Mode.relabel`: what a variable stands for and what is asked of a term,
* `memberType?_relabel`, `positionType?_relabel`, `Term.match?_relabel`: types of members, matching,
* `Term.Relabels`: a written term is another one relabeled; its free variables and the globals that
  it mentions are of two given sets,
* `Term.relabels_self`: every term with such names corresponds to itself.
-/

namespace DependentCore

/-- Change all names of a meaning. -/
def Meaning.relabel (σ : Relabeling) : Meaning → Meaning
  | .type => .type
  | .term qty ty => .term qty (ty.relabel σ)

/-- Change all names of the type that is asked for. -/
def Mode.relabel (σ : Relabeling) : Mode → Mode
  | .assign => .assign
  | .check ty => .check (ty.relabel σ)
  | .type => .type

section

variable {σ : Relabeling}

theorem Mode.expected?_relabel (mode : Mode) :
    (mode.relabel σ).expected? = mode.expected?.map (·.relabel σ) := by
  cases mode <;> rfl

@[simp]
theorem Meaning.relabel_identity (m : Meaning) : m.relabel .identity = m := by
  cases m with
  | type => rfl
  | term qty ty => rw [Meaning.relabel, ty.relabel_identity]

@[simp]
theorem Mode.relabel_identity (mode : Mode) : mode.relabel .identity = mode := by
  cases mode with
  | assign | type => rfl
  | check ty => rw [Mode.relabel, ty.relabel_identity]

/-! ## Facts and types -/

/-- A test that does not see names gives the same on a relabeled list. -/
theorem any_relabelList {q q' : Checked → Bool} (hq : ∀ t, q' (t.relabel σ) = q t)
    (ts : List Checked) : (relabelList σ ts).any q' = ts.any q := by
  induction ts with
  | nil => rfl
  | cons t ts ih => rw [relabelList, List.any_cons, List.any_cons, hq, ih]

/-- Facts contradict each other if one is `false` or the negation of another, up to bound names. -/
theorem contradictory_relabel (facts : List Checked) :
    contradictory (relabelList σ facts) = contradictory facts := by
  refine any_relabelList (fun t => ?_) facts
  obtain ⟨note, form⟩ := t
  cases form with
  | atom a => cases a <;> rfl
  | unary op x =>
    cases op with
    | not => exact any_relabelList (fun t => Term.alphaEq_relabel σ t x) facts
    | _ => rfl
  | _ => rfl

theorem Term.isUnit_relabel (t : Checked) : (t.relabel σ).isUnit = t.isUnit := by
  obtain ⟨note, form⟩ := t
  cases form with
  | atom a => cases a <;> rfl
  | _ => rfl

theorem Tele.ret_relabel (s : Signature .checked) : (s.relabel σ).ret = s.ret.relabel σ := by
  simp only [Tele.ret, Tele.ret?_relabel, Option.get_map]

/-- The signature of a global is relabeled with it. -/
theorem Item.signature?_relabel (item : Item .checked) :
    (item.relabel σ).signature? = item.signature?.map (·.relabel σ) := by
  cases item with
  | defined f => exact congrArg some (Tele.bare_relabel σ f)
  | _ => rfl

/-- The field that is looked for is found in relabeled fields, if targets and the terms that stand
for earlier fields correspond. -/
theorem typeOfField?_relabel {target target' : Nat → Option Var → Bool}
    {access access' : Nat → Option Var → Form .checked}
    (htarget : ∀ i v, target' i (v.map (·.relabel σ)) = target i v)
    (haccess : ∀ i w, access' i (some (w.relabel σ)) = (access i (some w)).relabel σ) :
    ∀ (n i : Nat) (fs : Fields .checked), typeOfField? target' access' n i (fs.relabel σ)
      = (typeOfField? target access n i fs).map (·.relabel σ)
  | 0, _, fs => by cases fs <;> rfl
  | _ + 1, _, .fields => rfl
  | n + 1, i, .arg mark qty ty v rest => by
    have ih := typeOfField?_relabel htarget haccess n (i + 1)
      (rest.instantiate v (Checked.term ty (access i v)))
    simp only [Tele.relabel, typeOfField?, htarget]
    split
    · rfl
    · rw [← ih, ← Tele.instantiate_relabel]
      cases v with
      | none => rfl
      | some w =>
        rw [Option.map_some, haccess]
        rfl

/-- A member of a relabeled struct has the relabeled type. -/
theorem memberType?_relabel (x : Checked) (field : String) (fs : Fields .checked) :
    memberType? (x.relabel σ) (σ.name field) (fs.relabel σ)
      = (memberType? x field fs).map (·.relabel σ) := by
  rw [memberType?, memberType?, Tele.arity_relabel]
  refine typeOfField?_relabel (fun i v => ?_) (fun i w => rfl) fs.arity 0 fs
  simp only [Var.map_name_relabel_eq_some]

/-- Positions are not touched by relabeling. -/
theorem positionType?_relabel (x : Checked) (pos : Nat) (fs : Fields .checked) :
    positionType? (x.relabel σ) pos (fs.relabel σ)
      = (positionType? x pos fs).map (·.relabel σ) := by
  rw [positionType?, positionType?, Tele.arity_relabel]
  exact typeOfField?_relabel (fun i v => rfl) (fun i w => rfl) fs.arity 0 fs

end

/-! ## Matching -/

section

variable {p : Phase} (σ : Relabeling)

theorem Unary.sameKind_relabel (a b : Unary) :
    (a.relabel σ).sameKind (b.relabel σ) = a.sameKind b := by
  cases a <;> cases b <;> rfl

/-- Kinds of forms do not depend on names. -/
theorem Form.sameKind_relabel (f g : Form p) :
    (f.relabel σ).sameKind (g.relabel σ) = f.sameKind g := by
  cases f with
  | unary op x =>
    cases g with
    | unary op' y => exact Unary.sameKind_relabel σ op op'
    | _ => rfl
  | binary op x y =>
    cases g <;> rfl
  | _ => cases g <;> rfl

/-- The direct subterms of a relabeled form are those of the form relabeled. -/
theorem Form.children_relabel (f : Form p) : (f.relabel σ).children = relabelList σ f.children := by
  cases f with
  | bind k t =>
    simp only [Form.relabel, Form.children, Tele.args_relabel, Tele.ret?_relabel, List.map_map,
      relabelList_eq_map, List.map_append]
    congr 1
    cases t.ret? <;> rfl
  | _ => rfl

/-- A pattern that is not a variable is matched part by part. -/
theorem Term.match?_mk (v : Var) (note : Note p (Term p)) {form : Form p}
    (h : ∀ w, form ≠ .var w) (target : Term p) : (Term.mk note form).match? v target
      = if form.sameKind target.form && form.children.length = target.form.children.length then
          form.matchParts? v target.form.children
        else none := by
  cases form with
  | var w => exact absurd rfl (h w)
  | _ => simp only [Term.match?]

/-- Relabeling commutes with taking the first match. -/
theorem map_orElse (o₁ o₂ : Option (Term p)) : (o₁ <|> o₂).map (·.relabel σ)
    = (o₁.map (·.relabel σ) <|> o₂.map (·.relabel σ)) := by
  cases o₁ <;> rfl

mutual

/-- A relabeled pattern matches a relabeled target at the same place. -/
theorem Term.match?_relabel (v : Var) : ∀ t u : Term p,
    (t.relabel σ).match? (v.relabel σ) (u.relabel σ) = (t.match? v u).map (·.relabel σ)
  | .mk note form, u => by
    have ih := Form.matchParts?_relabel v form u.form.children
    by_cases hvar : ∃ w, form = .var w
    · obtain ⟨w, rfl⟩ := hvar
      simp only [Term.relabel, Form.relabel, Term.match?, Var.relabel_inj]
      split <;> rfl
    · have hform : ∀ w, form ≠ .var w := fun w h => hvar ⟨w, h⟩
      have hform' : ∀ w, form.relabel σ ≠ .var w := by
        cases form with
        | var w => exact absurd rfl (hform w)
        | _ => exact fun _ => nofun
      rw [Term.relabel, Term.match?_mk _ _ hform', Term.match?_mk _ _ hform, Term.form_relabel,
        Form.sameKind_relabel, Form.children_relabel, Form.children_relabel, length_relabelList,
        length_relabelList, ih]
      split <;> rfl
termination_by structural t _ => t

theorem Form.matchParts?_relabel (v : Var) : ∀ (f : Form p) (ts : List (Term p)),
    (f.relabel σ).matchParts? (v.relabel σ) (relabelList σ ts)
      = (f.matchParts? v ts).map (·.relabel σ)
  | .atom _, _ | .var _, _ => by simp only [Form.relabel, Form.matchParts?, Option.map_none]
  | .unary _ x, ts => by
    rcases ts with _ | ⟨t, _ | ⟨_, _⟩⟩ <;>
      simp only [Form.relabel, relabelList, Form.matchParts?, Option.map_none]
    exact Term.match?_relabel v x t
  | .binary _ x y, ts => by
    rcases ts with _ | ⟨t, _ | ⟨u, _ | ⟨_, _⟩⟩⟩ <;>
      simp only [Form.relabel, relabelList, Form.matchParts?, Option.map_none]
    rw [map_orElse, Term.match?_relabel v x t, Term.match?_relabel v y u]
  | .app f args, ts => by
    cases ts with
    | nil => simp only [Form.relabel, relabelList, Form.matchParts?, Option.map_none]
    | cons t ts =>
      simp only [Form.relabel, relabelList, Form.matchParts?, map_orElse,
        Term.match?_relabel v f t, matchList?_relabel v args ts]
  | .list xs, ts => by
    simp only [Form.relabel, Form.matchParts?, matchList?_relabel v xs ts]
  | .bind _ t, ts => by
    simp only [Form.relabel, Form.matchParts?, Tele.matchParts?_relabel v t ts]
termination_by structural f _ => f

theorem Tele.matchParts?_relabel (v : Var) {k : Binder} : ∀ (t : Tele p k) (ts : List (Term p)),
    (t.relabel σ).matchParts? (v.relabel σ) (relabelList σ ts)
      = (t.matchParts? v ts).map (·.relabel σ)
  | .fields, ts => by
    cases ts <;> simp only [Tele.relabel, relabelList, Tele.matchParts?, Option.map_none]
  | .returns _ ret, ts | .runs _ ret _, ts => by
    rcases ts with _ | ⟨t, _ | ⟨_, _⟩⟩ <;>
      simp only [Tele.relabel, relabelList, Tele.matchParts?, Option.map_none]
    exact Term.match?_relabel v ret t
  | .arg _ _ ty _ rest, ts => by
    cases ts with
    | nil => simp only [Tele.relabel, relabelList, Tele.matchParts?, Option.map_none]
    | cons t ts =>
      simp only [Tele.relabel, relabelList, Tele.matchParts?, map_orElse,
        Term.match?_relabel v ty t, Tele.matchParts?_relabel v rest ts]
termination_by structural t _ => t

theorem matchList?_relabel (v : Var) : ∀ xs ts : List (Term p),
    matchList? (v.relabel σ) (relabelList σ xs) (relabelList σ ts)
      = (matchList? v xs ts).map (·.relabel σ)
  | [], _ => by simp only [relabelList, matchList?, Option.map_none]
  | x :: xs, ts => by
    cases ts with
    | nil => simp only [relabelList, matchList?, Option.map_none]
    | cons t ts =>
      simp only [relabelList, matchList?, map_orElse, Term.match?_relabel v x t,
        matchList?_relabel v xs ts]
termination_by structural xs _ => xs

end

end

/-! ## Corresponding written terms -/

mutual

/-- A written term is another one relabeled, at whatever places. The globals that it mentions are of
the set `G`, and its free variables are of the set `V`. -/
inductive Term.Relabels (σ : Relabeling) (G : GlobalName → Prop) :
    (Var → Prop) → Written → Written → Prop where
  | mk {V loc loc' h h' f g} : Form.Relabels σ G V f g →
    Term.Relabels σ G V (.mk (.place loc h) f) (.mk (.place loc' h') g)

/-- A written form is another one relabeled. -/
inductive Form.Relabels (σ : Relabeling) (G : GlobalName → Prop) :
    (Var → Prop) → Form .written → Form .written → Prop where
  | atom {V a} : (∀ g, a = .global g → G g) → Form.Relabels σ G V (.atom a) (.atom a)
  | var {V : Var → Prop} {v} : V v → Form.Relabels σ G V (.var v) (.var (v.relabel σ))
  | unary {V op x x'} : Term.Relabels σ G V x x' →
    Form.Relabels σ G V (.unary op x) (.unary (op.relabel σ) x')
  | binary {V op x x' y y'} : Term.Relabels σ G V x x' → Term.Relabels σ G V y y' →
    Form.Relabels σ G V (.binary op x y) (.binary op x' y')
  | app {V f f' xs xs'} : Term.Relabels σ G V f f' → RelabelsList σ G V xs xs' →
    Form.Relabels σ G V (.app f xs) (.app f' xs')
  | list {V xs xs'} : RelabelsList σ G V xs xs' → Form.Relabels σ G V (.list xs) (.list xs')
  | bind {V k t t'} : Tele.Relabels σ G V t t' → Form.Relabels σ G V (.bind k t) (.bind k t')

/-- The terms of a list are those of another one relabeled. -/
inductive RelabelsList (σ : Relabeling) (G : GlobalName → Prop) :
    (Var → Prop) → List Written → List Written → Prop where
  | nil {V} : RelabelsList σ G V [] []
  | cons {V x x' xs xs'} : Term.Relabels σ G V x x' → RelabelsList σ G V xs xs' →
    RelabelsList σ G V (x :: xs) (x' :: xs')

/-- A written telescope is another one relabeled. What stands under an argument may mention its
variable. -/
inductive Tele.Relabels (σ : Relabeling) (G : GlobalName → Prop) :
    (Var → Prop) → {k : Binder} → Tele .written k → Tele .written k → Prop where
  | fields {V} : Tele.Relabels σ G V .fields .fields
  | returns {V m ret ret'} : Term.Relabels σ G V ret ret' →
    Tele.Relabels σ G V (.returns m ret) (.returns m ret')
  | runs {V m ret ret' b b'} : Term.Relabels σ G V ret ret' → RelabelsBody σ G V b b' →
    Tele.Relabels σ G V (.runs m ret b) (.runs m ret' b')
  | arg {V k mark mark' qty ty ty' v} {rest rest' : Tele .written k} :
    Term.Relabels σ G V ty ty' → Tele.Relabels σ G (fun w => v = some w ∨ V w) rest rest' →
    Tele.Relabels σ G V (.arg mark qty ty v rest) (.arg mark' qty ty' (v.map (·.relabel σ)) rest')

/-- A written statement is another one relabeled. -/
inductive Stmt.Relabels (σ : Relabeling) (G : GlobalName → Prop) :
    (Var → Prop) → Stmt .written → Stmt .written → Prop where
  | call {V loc loc' x x'} : Term.Relabels σ G V x x' →
    Stmt.Relabels σ G V (.call loc x) (.call loc' x')
  | ifThen {V loc loc' cond cond' yes yes'} : Term.Relabels σ G V cond cond' →
    RelabelsBody σ G V yes yes' →
    Stmt.Relabels σ G V (.ifThen loc cond yes) (.ifThen loc' cond' yes')
  | ifElse {V loc loc' cond cond' yes yes' no no'} : Term.Relabels σ G V cond cond' →
    RelabelsBody σ G V yes yes' → RelabelsBody σ G V no no' →
    Stmt.Relabels σ G V (.ifElse loc cond yes no) (.ifElse loc' cond' yes' no')
  | ret {V loc loc' x x'} : Term.Relabels σ G V x x' →
    Stmt.Relabels σ G V (.ret loc x) (.ret loc' x')
  | retUnit {V loc loc'} : Stmt.Relabels σ G V (.retUnit loc) (.retUnit loc')
  | impossible {V loc loc'} : Stmt.Relabels σ G V (.impossible loc) (.impossible loc')
  | impossibleBy {V loc loc' x x'} : Term.Relabels σ G V x x' →
    Stmt.Relabels σ G V (.impossibleBy loc x) (.impossibleBy loc' x')

/-- The statements of a body are those of another one relabeled. -/
inductive RelabelsBody (σ : Relabeling) (G : GlobalName → Prop) :
    (Var → Prop) → List (Stmt .written) → List (Stmt .written) → Prop where
  | nil {V} : RelabelsBody σ G V [] []
  | cons {V s s' b b'} : Stmt.Relabels σ G V s s' → RelabelsBody σ G V b b' →
    RelabelsBody σ G V (s :: b) (s' :: b')

end

section
variable {σ : Relabeling} {G : GlobalName → Prop}

/-- Corresponding functions declare the same effects. -/
theorem Tele.Relabels.mutability_eq {k : Binder} : ∀ {V : Var → Prop} {t t' : Tele .written k},
    t.Relabels σ G V t' → t'.mutability = t.mutability
  | _, .fields, _, h | _, .returns _ _, _, h | _, .runs _ _ _, _, h => by
    cases h
    rfl
  | _, .arg _ _ _ _ rest, _, h => by
    cases h with
    | arg _ h =>
      have ih := Tele.Relabels.mutability_eq (t := rest) h
      exact ih

/-- Relabeling does not touch the kind of a term. -/
theorem Term.Relabels.kind_eq {V : Var → Prop} {x x' : Written} (h : x.Relabels σ G V x') :
    x'.isVar = x.isVar ∧ x'.isAuto = x.isAuto ∧ x'.isCall = x.isCall ∧
      x'.needsType = x.needsType := by
  cases h with
  | mk h =>
    cases h with
    | @atom _ a => cases a <;> exact ⟨rfl, rfl, rfl, rfl⟩
    | _ => exact ⟨rfl, rfl, rfl, rfl⟩

end

section
variable {G : GlobalName → Prop}

theorem Unary.relabels_self {V : Var → Prop} (op : Unary) {x x' : Written}
    (h : x.Relabels .identity G V x') :
    Form.Relabels .identity G V (.unary op x) (.unary op x') := by
  have hop : Form.Relabels .identity G V (.unary op x) (.unary (op.relabel .identity) x') :=
    .unary h
  rw [op.relabel_identity] at hop
  exact hop

theorem Tele.relabels_arg_self {V : Var → Prop} {k : Binder} {mark mark' : Location}
    {qty : Quantity} {ty ty' : Written} {v : Option Var} {rest rest' : Tele .written k}
    (hty : ty.Relabels .identity G V ty')
    (hrest : rest.Relabels .identity G (fun w => v = some w ∨ V w) rest') :
    Tele.Relabels .identity G V (.arg mark qty ty v rest) (.arg mark' qty ty' v rest') := by
  have harg : Tele.Relabels .identity G V (.arg mark qty ty v rest)
      (.arg mark' qty ty' (v.map (·.relabel .identity)) rest') := .arg hty hrest
  rw [Var.map_relabel_identity] at harg
  exact harg

mutual

/-- A term whose names are known corresponds to itself. -/
theorem Term.relabels_self : ∀ {x : Written} {S : Vocabulary}, x.Known S →
    x.Everywhere (Term.RefersInto G) → x.Relabels .identity G S.var x
  | .mk (.place _ _) _, _, hx, hG =>
    .mk (Form.relabels_self (fun _ hg => by subst hg; exact hG.1) hx.2 hG.2.2)
termination_by structural x => x

/-- `Form.Everywhere` is about the parts of a form, so the global that the form itself may refer to
is given apart. -/
theorem Form.relabels_self : ∀ {f : Form .written} {S : Vocabulary},
    (∀ g, f = .atom (.global g) → G g) → f.Known S → f.Everywhere (Term.RefersInto G) →
      f.Relabels .identity G S.var f
  | .atom _, _, hglobal, _, _ => .atom fun g ha => hglobal g (congrArg Form.atom ha)
  | .var _, _, _, hf, _ => .var hf
  | .unary op _, _, _, hf, hG => op.relabels_self (Term.relabels_self hf.2 hG)
  | .binary _ _ _, _, _, hf, hG =>
    .binary (Term.relabels_self hf.1 hG.1) (Term.relabels_self hf.2 hG.2)
  | .app _ _, _, _, hf, hG =>
    .app (Term.relabels_self hf.1 hG.1) (relabelsList_self hf.2 hG.2)
  | .list _, _, _, hf, hG => .list (relabelsList_self hf hG)
  | .bind _ _, _, _, hf, hG => .bind (Tele.relabels_self hf hG)
termination_by structural f => f

theorem relabelsList_self : ∀ {xs : List Written} {S : Vocabulary}, KnownList S xs →
    EverywhereList (Term.RefersInto G) xs → RelabelsList .identity G S.var xs xs
  | [], _, _, _ => .nil
  | _ :: _, _, hxs, hG => .cons (Term.relabels_self hxs.1 hG.1) (relabelsList_self hxs.2 hG.2)
termination_by structural xs => xs

theorem Tele.relabels_self {k : Binder} : ∀ {t : Tele .written k} {S : Vocabulary}, t.Known S →
    t.Everywhere (Term.RefersInto G) → t.Relabels .identity G S.var t
  | .fields, _, _, _ => .fields
  | .returns _ _, _, ht, hG => .returns (Term.relabels_self ht hG)
  | .runs _ _ _, _, ht, hG => .runs (Term.relabels_self ht.1 hG.1) (relabelsBody_self ht.2 hG.2)
  | .arg _ _ _ _ _, _, ht, hG =>
    Tele.relabels_arg_self (Term.relabels_self ht.1 hG.1) (Tele.relabels_self ht.2.2 hG.2)
termination_by structural t => t

theorem Stmt.relabels_self : ∀ {s : Stmt .written} {S : Vocabulary}, s.Known S →
    s.Everywhere (Term.RefersInto G) → s.Relabels .identity G S.var s
  | .call _ _, _, hs, hG => .call (Term.relabels_self hs hG)
  | .ifThen _ _ _, _, hs, hG => .ifThen (Term.relabels_self hs.1 hG.1) (relabelsBody_self hs.2 hG.2)
  | .ifElse _ _ _ _, _, hs, hG =>
    .ifElse (Term.relabels_self hs.1 hG.1) (relabelsBody_self hs.2.1 hG.2.1)
      (relabelsBody_self hs.2.2 hG.2.2)
  | .ret _ _, _, hs, hG => .ret (Term.relabels_self hs hG)
  | .retUnit _, _, _, _ => .retUnit
  | .impossible _, _, _, _ => .impossible
  | .impossibleBy _ _, _, hs, hG => .impossibleBy (Term.relabels_self hs hG)
termination_by structural s => s

theorem relabelsBody_self : ∀ {b : List (Stmt .written)} {S : Vocabulary}, KnownBody S b →
    EverywhereBody (Term.RefersInto G) b → RelabelsBody .identity G S.var b b
  | [], _, _, _ => .nil
  | _ :: _, _, hb, hG => .cons (Stmt.relabels_self hb.1 hG.1) (relabelsBody_self hb.2 hG.2)
termination_by structural b => b

end

end

end DependentCore
