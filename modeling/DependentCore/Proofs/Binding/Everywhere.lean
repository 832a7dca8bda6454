import DependentCore.Proofs.Binding.Renaming
import DependentCore.Syntax.Entry

/-!
# Properties of all nodes

`t.Everywhere P` says that `P` holds of every node of the tree `t`: of `t`, of the terms inside it,
and of the terms that its sorts consist of, at any depth. Substitution moves nodes from one tree
into another and changes their notes, so it keeps what holds everywhere if it keeps `P` at each
node.

* `Substitutive P`: renaming and substitution keep `P` at the root of a term,
* `Term.Everywhere.rename`, `Term.Everywhere.subst`: then they keep it everywhere,
* `Term.References Q`: the property `Q` of the references to globals, with the notes they carry.
-/

namespace DependentCore

variable {p : Phase}

mutual

/-- Every node of a term and its sorts has a property. -/
def Term.Everywhere (P : Term p → Prop) : Term p → Prop
  | .mk note form => P (.mk note form) ∧ note.Everywhere P ∧ form.Everywhere P

/-- Every node of a sort has a property. -/
def Note.Everywhere (P : Term p → Prop) : Note p (Term p) → Prop
  | .place _ _ | .kind _ => True
  | .sort ty _ => ty.Everywhere P

/-- Every node inside a form has a property. -/
def Form.Everywhere (P : Term p → Prop) : Form p → Prop
  | .atom _ | .var _ => True
  | .unary _ x => x.Everywhere P
  | .binary _ x y => x.Everywhere P ∧ y.Everywhere P
  | .app f args => f.Everywhere P ∧ EverywhereList P args
  | .list xs => EverywhereList P xs
  | .bind _ t => t.Everywhere P

/-- Every node inside a telescope has a property. -/
def Tele.Everywhere (P : Term p → Prop) {k : Binder} : Tele p k → Prop
  | .fields => True
  | .returns _ ret => ret.Everywhere P
  | .runs _ ret body => ret.Everywhere P ∧ EverywhereBody P body
  | .arg _ _ ty _ rest => ty.Everywhere P ∧ rest.Everywhere P

/-- Every node inside a statement has a property. -/
def Stmt.Everywhere (P : Term p → Prop) : Stmt p → Prop
  | .call _ x | .ret _ x | .impossibleBy _ x => x.Everywhere P
  | .ifThen _ cond yes => cond.Everywhere P ∧ EverywhereBody P yes
  | .ifElse _ cond yes no => cond.Everywhere P ∧ EverywhereBody P yes ∧ EverywhereBody P no
  | .retUnit _ | .impossible _ => True

/-- Every node of the terms of a list has a property. -/
def EverywhereList (P : Term p → Prop) : List (Term p) → Prop
  | [] => True
  | x :: xs => x.Everywhere P ∧ EverywhereList P xs

/-- Every node inside the statements of a body has a property. -/
def EverywhereBody (P : Term p → Prop) : List (Stmt p) → Prop
  | [] => True
  | s :: rest => s.Everywhere P ∧ EverywhereBody P rest

end

/-- Every node inside an item has a property. -/
def Item.Everywhere (P : Term p → Prop) : Item p → Prop
  | .integer _ => True
  | .struct fs => fs.Everywhere P
  | .declared s | .external s => s.Everywhere P
  | .defined f => f.Everywhere P

/-- A property holds everywhere in a list if it does in each of its terms. -/
theorem everywhereList_iff {P : Term p → Prop} {ts : List (Term p)} :
    EverywhereList P ts ↔ ∀ t ∈ ts, t.Everywhere P := by
  induction ts with
  | nil => simp [EverywhereList]
  | cons t ts ih => simp [EverywhereList, ih]

/-! ## Parts of trees -/

section
variable {P : Term p → Prop}

theorem Term.Everywhere.note {t : Term p} (h : t.Everywhere P) : t.note.Everywhere P := by
  cases t
  exact h.2.1

theorem Term.Everywhere.form {t : Term p} (h : t.Everywhere P) : t.form.Everywhere P := by
  cases t
  exact h.2.2

/-- Sorts are part of what `Everywhere` looks at. -/
theorem Term.Everywhere.sort {t ty : Term p} (h : t.Everywhere P) (hty : t.sort? = some ty) :
    ty.Everywhere P := by
  obtain ⟨note, form⟩ := t
  cases note with
  | place | kind => cases hty
  | sort ty' _ =>
    cases hty
    exact h.2.1

theorem Term.Everywhere.piSort {t : Term p} (h : t.Everywhere P) {s : Signature p}
    (hs : t.piSort? = some s) : s.Everywhere P := by
  unfold Term.piSort? at hs
  split at hs
  · next hsort =>
    cases hs
    exact (h.sort hsort).2.2
  · cases hs

/-- A function without its body has fewer nodes. -/
theorem Tele.Everywhere.bare : ∀ {k : Binder} {t : Tele p k}, t.Everywhere P → t.bare.Everywhere P
  | _, .fields, _ => trivial
  | _, .returns _ _, h => h
  | _, .runs _ _ _, h => h.1
  | _, .arg _ _ _ _ _, h => ⟨h.1, h.2.bare⟩

/-- The return type is a part of a telescope. -/
theorem Tele.Everywhere.ret? : ∀ {k : Binder} {t : Tele p k} {ret : Term p}, t.Everywhere P →
    t.ret? = some ret → ret.Everywhere P
  | _, .returns _ _, _, h, hret => Option.some.inj hret ▸ h
  | _, .runs _ _ _, _, h, hret => Option.some.inj hret ▸ h.1
  | _, .arg _ _ _ _ rest, _, h, hret => Tele.Everywhere.ret? (t := rest) h.2 hret

theorem Tele.Everywhere.ret {s : Signature p} (h : s.Everywhere P) : s.ret.Everywhere P :=
  h.ret? (Option.some_get _).symm

theorem Tele.Everywhere.body? : ∀ {k : Binder} {t : Tele p k} {b : Body p}, t.Everywhere P →
    t.body? = some b → EverywhereBody P b
  | _, .runs _ _ _, _, h, hb => Option.some.inj hb ▸ h.2
  | _, .arg _ _ _ _ rest, _, h, hb => Tele.Everywhere.body? (t := rest) h.2 hb

end

/-! ## Weakening -/

mutual

/-- A weaker property holds everywhere, too. -/
theorem Term.Everywhere.mono {P P' : Term p → Prop} (h : ∀ t, P t → P' t) :
    ∀ {t : Term p}, t.Everywhere P → t.Everywhere P'
  | .mk _ _, ht => ⟨h _ ht.1, ht.2.1.mono h, ht.2.2.mono h⟩

theorem Note.Everywhere.mono {P P' : Term p → Prop} (h : ∀ t, P t → P' t) :
    ∀ {n : Note p (Term p)}, n.Everywhere P → n.Everywhere P'
  | .place _ _, _ | .kind _, _ => trivial
  | .sort ty _, hn => Term.Everywhere.mono h (t := ty) hn

theorem Form.Everywhere.mono {P P' : Term p → Prop} (h : ∀ t, P t → P' t) :
    ∀ {f : Form p}, f.Everywhere P → f.Everywhere P'
  | .atom _, _ | .var _, _ => trivial
  | .unary _ x, hf => Term.Everywhere.mono h (t := x) hf
  | .binary _ _ _, hf => ⟨hf.1.mono h, hf.2.mono h⟩
  | .app _ _, hf => ⟨hf.1.mono h, EverywhereList.mono h hf.2⟩
  | .list _, hf => EverywhereList.mono h hf
  | .bind _ t, hf => Tele.Everywhere.mono h (t := t) hf

theorem Tele.Everywhere.mono {P P' : Term p → Prop} (h : ∀ t, P t → P' t) {k : Binder} :
    ∀ {t : Tele p k}, t.Everywhere P → t.Everywhere P'
  | .fields, _ => trivial
  | .returns _ ret, ht => Term.Everywhere.mono h (t := ret) ht
  | .runs _ _ _, ht => ⟨ht.1.mono h, EverywhereBody.mono h ht.2⟩
  | .arg _ _ _ _ _, ht => ⟨ht.1.mono h, ht.2.mono h⟩

theorem Stmt.Everywhere.mono {P P' : Term p → Prop} (h : ∀ t, P t → P' t) :
    ∀ {s : Stmt p}, s.Everywhere P → s.Everywhere P'
  | .call _ x, hs | .ret _ x, hs | .impossibleBy _ x, hs => Term.Everywhere.mono h (t := x) hs
  | .ifThen _ _ _, hs => ⟨hs.1.mono h, EverywhereBody.mono h hs.2⟩
  | .ifElse _ _ _ _, hs =>
    ⟨hs.1.mono h, EverywhereBody.mono h hs.2.1, EverywhereBody.mono h hs.2.2⟩
  | .retUnit _, _ | .impossible _, _ => trivial

theorem EverywhereList.mono {P P' : Term p → Prop} (h : ∀ t, P t → P' t) :
    ∀ {ts : List (Term p)}, EverywhereList P ts → EverywhereList P' ts
  | [], _ => trivial
  | _ :: _, hts => ⟨hts.1.mono h, EverywhereList.mono h hts.2⟩

theorem EverywhereBody.mono {P P' : Term p → Prop} (h : ∀ t, P t → P' t) :
    ∀ {b : List (Stmt p)}, EverywhereBody P b → EverywhereBody P' b
  | [], _ => trivial
  | _ :: _, hb => ⟨hb.1.mono h, EverywhereBody.mono h hb.2⟩

end

mutual

/-- What holds of all terms holds everywhere in a term. -/
theorem Term.everywhere_of_forall {P : Term p → Prop} (h : ∀ t, P t) : ∀ t : Term p, t.Everywhere P
  | .mk note form => ⟨h _, note.everywhere_of_forall h, form.everywhere_of_forall h⟩

theorem Note.everywhere_of_forall {P : Term p → Prop} (h : ∀ t, P t) :
    ∀ n : Note p (Term p), n.Everywhere P
  | .place _ _ | .kind _ => trivial
  | .sort ty _ => Term.everywhere_of_forall h ty

theorem Form.everywhere_of_forall {P : Term p → Prop} (h : ∀ t, P t) : ∀ f : Form p, f.Everywhere P
  | .atom _ | .var _ => trivial
  | .unary _ x => Term.everywhere_of_forall h x
  | .binary _ x y => ⟨x.everywhere_of_forall h, y.everywhere_of_forall h⟩
  | .app f args => ⟨f.everywhere_of_forall h, everywhereList_of_forall h args⟩
  | .list xs => everywhereList_of_forall h xs
  | .bind _ t => Tele.everywhere_of_forall h t

theorem Tele.everywhere_of_forall {P : Term p → Prop} (h : ∀ t, P t) {k : Binder} :
    ∀ t : Tele p k, t.Everywhere P
  | .fields => trivial
  | .returns _ ret => Term.everywhere_of_forall h ret
  | .runs _ ret body => ⟨ret.everywhere_of_forall h, everywhereBody_of_forall h body⟩
  | .arg _ _ ty _ rest => ⟨ty.everywhere_of_forall h, rest.everywhere_of_forall h⟩

theorem Stmt.everywhere_of_forall {P : Term p → Prop} (h : ∀ t, P t) : ∀ s : Stmt p, s.Everywhere P
  | .call _ x | .ret _ x | .impossibleBy _ x => Term.everywhere_of_forall h x
  | .ifThen _ cond yes => ⟨cond.everywhere_of_forall h, everywhereBody_of_forall h yes⟩
  | .ifElse _ cond yes no =>
    ⟨cond.everywhere_of_forall h, everywhereBody_of_forall h yes, everywhereBody_of_forall h no⟩
  | .retUnit _ | .impossible _ => trivial

theorem everywhereList_of_forall {P : Term p → Prop} (h : ∀ t, P t) :
    ∀ ts : List (Term p), EverywhereList P ts
  | [] => trivial
  | t :: ts => ⟨t.everywhere_of_forall h, everywhereList_of_forall h ts⟩

theorem everywhereBody_of_forall {P : Term p → Prop} (h : ∀ t, P t) :
    ∀ b : List (Stmt p), EverywhereBody P b
  | [] => trivial
  | s :: b => ⟨s.everywhere_of_forall h, everywhereBody_of_forall h b⟩

end

theorem Item.everywhere_of_forall {P : Term p → Prop} (h : ∀ t, P t) : ∀ i : Item p, i.Everywhere P
  | .integer _ => trivial
  | .struct t | .declared t | .external t | .defined t => Tele.everywhere_of_forall h t

/-! ## Replacing a variable -/

/-- Renaming and substitution keep a property at the root of a term that is not replaced. -/
structure Substitutive (P : Term p → Prop) : Prop where
  rename : ∀ (x y : Var) (t : Term p), P t → P (t.rename x y)
  subst : ∀ (x : Var) (r t : Term p), t.form ≠ .var x → P t → P (t.subst x r)

mutual

/-- Renaming keeps what holds everywhere. -/
theorem Term.Everywhere.rename {P : Term p → Prop} (hP : Substitutive P) (x y : Var) :
    ∀ {t : Term p}, t.Everywhere P → (t.rename x y).Everywhere P
  | .mk _ _, ht => ⟨hP.rename x y _ ht.1, ht.2.1.rename hP x y, ht.2.2.rename hP x y⟩

theorem Note.Everywhere.rename {P : Term p → Prop} (hP : Substitutive P) (x y : Var) :
    ∀ {n : Note p (Term p)}, n.Everywhere P → (n.rename x y).Everywhere P
  | .place _ _, _ | .kind _, _ => trivial
  | .sort ty _, hn => Term.Everywhere.rename hP x y (t := ty) hn

theorem Form.Everywhere.rename {P : Term p → Prop} (hP : Substitutive P) (x y : Var) :
    ∀ {f : Form p}, f.Everywhere P → (f.rename x y).Everywhere P
  | .atom _, _ | .var _, _ => trivial
  | .unary _ t, hf => Term.Everywhere.rename hP x y (t := t) hf
  | .binary _ _ _, hf => ⟨hf.1.rename hP x y, hf.2.rename hP x y⟩
  | .app _ _, hf => ⟨hf.1.rename hP x y, EverywhereList.rename hP x y hf.2⟩
  | .list _, hf => EverywhereList.rename hP x y hf
  | .bind _ t, hf => Tele.Everywhere.rename hP x y (t := t) hf

theorem Tele.Everywhere.rename {P : Term p → Prop} (hP : Substitutive P) (x y : Var) {k : Binder} :
    ∀ {t : Tele p k}, t.Everywhere P → (t.rename x y).Everywhere P
  | .fields, _ => trivial
  | .returns _ ret, ht => Term.Everywhere.rename hP x y (t := ret) ht
  | .runs _ _ _, ht => ⟨ht.1.rename hP x y, EverywhereBody.rename hP x y ht.2⟩
  | .arg _ _ _ _ _, ht => by
    refine ⟨ht.1.rename hP x y, ?_⟩
    split
    · exact ht.2
    · exact ht.2.rename hP x y

theorem Stmt.Everywhere.rename {P : Term p → Prop} (hP : Substitutive P) (x y : Var) :
    ∀ {s : Stmt p}, s.Everywhere P → (s.rename x y).Everywhere P
  | .call _ t, hs | .ret _ t, hs | .impossibleBy _ t, hs =>
    Term.Everywhere.rename hP x y (t := t) hs
  | .ifThen _ _ _, hs => ⟨hs.1.rename hP x y, EverywhereBody.rename hP x y hs.2⟩
  | .ifElse _ _ _ _, hs =>
    ⟨hs.1.rename hP x y, EverywhereBody.rename hP x y hs.2.1, EverywhereBody.rename hP x y hs.2.2⟩
  | .retUnit _, _ | .impossible _, _ => trivial

theorem EverywhereList.rename {P : Term p → Prop} (hP : Substitutive P) (x y : Var) :
    ∀ {ts : List (Term p)}, EverywhereList P ts → EverywhereList P (renameList x y ts)
  | [], _ => trivial
  | _ :: _, hts => ⟨hts.1.rename hP x y, EverywhereList.rename hP x y hts.2⟩

theorem EverywhereBody.rename {P : Term p → Prop} (hP : Substitutive P) (x y : Var) :
    ∀ {b : List (Stmt p)}, EverywhereBody P b → EverywhereBody P (renameBody x y b)
  | [], _ => trivial
  | _ :: _, hb => ⟨hb.1.rename hP x y, EverywhereBody.rename hP x y hb.2⟩

end

mutual

/-- Substitution of a term in which a property holds everywhere keeps the property. -/
theorem Term.Everywhere.subst {P : Term p → Prop} (hP : Substitutive P) (x : Var) {r : Term p}
    (hr : r.Everywhere P) : ∀ {t : Term p}, t.Everywhere P → (t.subst x r).Everywhere P
  | .mk note (.atom a), ht => by
    have hroot := hP.subst x r (.mk note (.atom a)) nofun ht.1
    rw [Term.subst_atom] at hroot ⊢
    exact ⟨hroot, Note.Everywhere.subst hP x hr ht.2.1, trivial⟩
  | .mk note (.var v), ht => by
    by_cases hv : v = x
    · rw [Term.subst_var, if_pos hv]
      exact hr
    · have hroot := hP.subst x r (.mk note (.var v)) (fun h => hv (Form.var.inj h)) ht.1
      rw [Term.subst_var, if_neg hv] at hroot ⊢
      exact ⟨hroot, Note.Everywhere.subst hP x hr ht.2.1, trivial⟩
  | .mk note (.unary op a), ht => by
    have hroot := hP.subst x r (.mk note (.unary op a)) nofun ht.1
    rw [Term.subst_unary] at hroot ⊢
    exact ⟨hroot, Note.Everywhere.subst hP x hr ht.2.1,
      Term.Everywhere.subst hP x hr (t := a) ht.2.2⟩
  | .mk note (.binary op a b), ht => by
    have hroot := hP.subst x r (.mk note (.binary op a b)) nofun ht.1
    rw [Term.subst_binary] at hroot ⊢
    exact ⟨hroot, Note.Everywhere.subst hP x hr ht.2.1,
      Term.Everywhere.subst hP x hr (t := a) ht.2.2.1,
      Term.Everywhere.subst hP x hr (t := b) ht.2.2.2⟩
  | .mk note (.app f args), ht => by
    have hroot := hP.subst x r (.mk note (.app f args)) nofun ht.1
    rw [Term.subst_app] at hroot ⊢
    exact ⟨hroot, Note.Everywhere.subst hP x hr ht.2.1,
      Term.Everywhere.subst hP x hr (t := f) ht.2.2.1, EverywhereList.subst hP x hr ht.2.2.2⟩
  | .mk note (.list xs), ht => by
    have hroot := hP.subst x r (.mk note (.list xs)) nofun ht.1
    rw [Term.subst_list] at hroot ⊢
    exact ⟨hroot, Note.Everywhere.subst hP x hr ht.2.1,
      EverywhereList.subst hP x hr ht.2.2⟩
  | .mk note (.bind k t), ht => by
    have hroot := hP.subst x r (.mk note (.bind k t)) nofun ht.1
    rw [Term.subst_bind] at hroot ⊢
    exact ⟨hroot, Note.Everywhere.subst hP x hr ht.2.1,
      Tele.Everywhere.subst hP x hr (t := t) ht.2.2⟩
termination_by t => 2 * t.size
decreasing_by all_goals simp only [Term.size, Form.size]; omega

theorem Note.Everywhere.subst {P : Term p → Prop} (hP : Substitutive P) (x : Var) {r : Term p}
    (hr : r.Everywhere P) : ∀ {n : Note p (Term p)}, n.Everywhere P →
      (n.map (·.subst x r)).Everywhere P
  | .place _ _, _ | .kind _, _ => trivial
  | .sort ty _, hn => Term.Everywhere.subst hP x hr (t := ty) hn
termination_by n => 2 * n.size + 1
decreasing_by simp only [Note.size]; omega

theorem Tele.Everywhere.subst {P : Term p → Prop} (hP : Substitutive P) (x : Var) {r : Term p}
    (hr : r.Everywhere P) {k : Binder} : ∀ {t : Tele p k}, t.Everywhere P →
      (t.subst x r).Everywhere P
  | .fields, _ => trivial
  | .returns _ ret, ht => Term.Everywhere.subst hP x hr (t := ret) ht
  | .runs _ ret body, ht => by
    rw [Tele.subst_runs]
    exact ⟨Term.Everywhere.subst hP x hr ht.1, EverywhereBody.subst hP x hr ht.2⟩
  | .arg _ _ ty none rest, ht => by
    rw [Tele.subst_arg_none]
    exact ⟨Term.Everywhere.subst hP x hr ht.1, Tele.Everywhere.subst hP x hr ht.2⟩
  | .arg _ _ ty (some v) rest, ht => by
    have hty := Term.Everywhere.subst hP x hr ht.1
    rw [Tele.subst_arg_some]
    split
    · exact ⟨hty, ht.2⟩
    · split
      · -- the argument is renamed first
        have hrest : (rest.refresh v r.maxIndex).2.Everywhere P := by
          rw [Tele.refresh_eq]
          exact ht.2.rename hP v _
        exact ⟨hty, Tele.Everywhere.subst hP x hr hrest⟩
      · exact ⟨hty, Tele.Everywhere.subst hP x hr ht.2⟩
termination_by t => 2 * t.size
decreasing_by all_goals simp only [Tele.size, Tele.size_refresh]; omega

theorem Stmt.Everywhere.subst {P : Term p → Prop} (hP : Substitutive P) (x : Var) {r : Term p}
    (hr : r.Everywhere P) : ∀ {s : Stmt p}, s.Everywhere P → (s.subst x r).Everywhere P
  | .call _ a, hs | .ret _ a, hs | .impossibleBy _ a, hs =>
    Term.Everywhere.subst hP x hr (t := a) hs
  | .ifThen _ cond yes, hs => by
    rw [Stmt.subst_ifThen]
    exact ⟨Term.Everywhere.subst hP x hr hs.1, EverywhereBody.subst hP x hr hs.2⟩
  | .ifElse _ cond yes no, hs => by
    rw [Stmt.subst_ifElse]
    exact ⟨Term.Everywhere.subst hP x hr hs.1, EverywhereBody.subst hP x hr hs.2.1,
      EverywhereBody.subst hP x hr hs.2.2⟩
  | .retUnit _, _ | .impossible _, _ => trivial
termination_by s => 2 * s.size
decreasing_by all_goals simp only [Stmt.size]; omega

/-- Lists are substituted into term by term. -/
theorem EverywhereList.subst {P : Term p → Prop} (hP : Substitutive P) (x : Var) {r : Term p}
    (hr : r.Everywhere P) : ∀ {ts : List (Term p)}, EverywhereList P ts →
      EverywhereList P (ts.map (·.subst x r))
  | [], _ => trivial
  | t :: ts, hts => ⟨Term.Everywhere.subst hP x hr hts.1, EverywhereList.subst hP x hr hts.2⟩
termination_by ts => 2 * sizeList ts + 1
decreasing_by all_goals have := t.one_le_size; simp only [sizeList]; omega

theorem EverywhereBody.subst {P : Term p → Prop} (hP : Substitutive P) (x : Var) {r : Term p}
    (hr : r.Everywhere P) : ∀ {b : List (Stmt p)}, EverywhereBody P b →
      EverywhereBody P (b.map (·.subst x r))
  | [], _ => trivial
  | s :: b, hb => ⟨hb.1.subst hP x hr, EverywhereBody.subst hP x hr hb.2⟩
termination_by b => 2 * sizeBody b + 1
decreasing_by all_goals have := s.one_le_size; simp only [sizeBody]; omega

end

/-- What holds everywhere in a telescope and in an argument is kept when the argument is
supplied. -/
theorem Tele.Everywhere.instantiate {P : Term p → Prop} (hP : Substitutive P) {k : Binder}
    {t : Tele p k} (ht : t.Everywhere P) (v : Option Var) {r : Term p} (hr : r.Everywhere P) :
    (t.instantiate v r).Everywhere P := by
  cases v with
  | none => exact ht
  | some x => exact ht.subst hP x hr

/-! ## References to globals -/

/-- If a term is a reference to a global, the global and the note of the term have a property. -/
def Term.References (Q : GlobalName → Note p (Term p) → Prop) : Term p → Prop
  | .mk note (.atom (.global g)) => Q g note
  | _ => True

/-- A property of references is kept by substitution if it is kept by substitution in the note. -/
theorem substitutive_references {Q : GlobalName → Note p (Term p) → Prop}
    (hrename : ∀ g note x y, Q g note → Q g (note.rename x y))
    (hsubst : ∀ g note x r, Q g note → Q g (note.map (·.subst x r))) :
    Substitutive (Term.References Q) where
  rename x y t h := by
    obtain ⟨note, form⟩ := t
    cases form with
    | atom a =>
      cases a with
      | global g => exact hrename g note x y h
      | _ => trivial
    | _ => trivial
  subst x r t hne h := by
    obtain ⟨note, form⟩ := t
    cases form with
    | atom a =>
      rw [Term.subst_atom]
      cases a with
      | global g => exact hsubst g note x r h
      | _ => trivial
    | var v =>
      rw [Term.subst_var, if_neg fun hv => hne (congrArg Form.var hv)]
      trivial
    | unary => rw [Term.subst_unary]; trivial
    | binary => rw [Term.subst_binary]; trivial
    | app => rw [Term.subst_app]; trivial
    | list => rw [Term.subst_list]; trivial
    | bind => rw [Term.subst_bind]; trivial

end DependentCore
