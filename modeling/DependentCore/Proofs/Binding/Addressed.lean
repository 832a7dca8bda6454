import DependentCore.Proofs.Binding.Everywhere
import DependentCore.Proofs.Binding.FreeVariables

/-!
# The variables that a tree addresses

`t.AddressesIn S` says that what is addressed in the tree `t`, its sorts included, are variables of
the set `S`, and that no argument is addressed in its scope. Nothing but a variable is addressed
then; and this stays so if a term is put for a variable that is not addressed.

* `Term.AddressesIn.mono`: the set matters only for the variables that occur free,
* `Term.AddressesIn.rename`, `Term.AddressesIn.subst`: a variable outside the set may be replaced.
  Here it does matter that no variable is captured,
* `Term.AddressesIn.everywhere`: the operand of each address is a variable.
-/

namespace DependentCore

variable {p : Phase}

/-- A form that is a variable of a set. That a written tree addresses nothing but variables is for
the checker to see, so there only the variables count. -/
def Form.AddressableIn (S : Var → Prop) : Form p → Prop
  | .var v => S v
  | _ => p = .written

/-- Only variables are addressed. -/
theorem Form.AddressableIn.exists_var {S : Var → Prop} {f : Form .checked}
    (h : f.AddressableIn S) : ∃ v, f = .var v ∧ S v := by
  cases f with
  | var v => exact ⟨v, rfl, h⟩
  | _ => cases h

mutual

/-- What is addressed in a term and its sorts are variables of a set, bound ones not among them. -/
def Term.AddressesIn (S : Var → Prop) : Term p → Prop
  | .mk note form => note.AddressesIn S ∧ form.AddressesIn S

/-- What is addressed in a sort are variables of a set. -/
def Note.AddressesIn (S : Var → Prop) : Note p (Term p) → Prop
  | .place _ _ | .kind _ => True
  | .sort ty _ => ty.AddressesIn S

/-- What is addressed in a form are variables of a set. -/
def Form.AddressesIn (S : Var → Prop) : Form p → Prop
  | .atom _ | .var _ => True
  | .unary op x => (op = .addressOf → x.form.AddressableIn S) ∧ x.AddressesIn S
  | .binary _ x y => x.AddressesIn S ∧ y.AddressesIn S
  | .app f args => f.AddressesIn S ∧ AddressesInList S args
  | .list xs => AddressesInList S xs
  | .bind _ t => t.AddressesIn S

/-- What is addressed in a telescope are variables of a set. An argument is taken out of the set for
what follows it. -/
def Tele.AddressesIn (S : Var → Prop) {k : Binder} : Tele p k → Prop
  | .fields => True
  | .returns _ ret => ret.AddressesIn S
  | .runs _ ret body => ret.AddressesIn S ∧ AddressesInBody S body
  | .arg _ _ ty v rest => ty.AddressesIn S ∧ rest.AddressesIn fun y => v ≠ some y ∧ S y

/-- What is addressed in a statement are variables of a set. -/
def Stmt.AddressesIn (S : Var → Prop) : Stmt p → Prop
  | .call _ x | .ret _ x | .impossibleBy _ x => x.AddressesIn S
  | .ifThen _ cond yes => cond.AddressesIn S ∧ AddressesInBody S yes
  | .ifElse _ cond yes no => cond.AddressesIn S ∧ AddressesInBody S yes ∧ AddressesInBody S no
  | .retUnit _ | .impossible _ => True

/-- What is addressed in the terms of a list are variables of a set. -/
def AddressesInList (S : Var → Prop) : List (Term p) → Prop
  | [] => True
  | x :: xs => x.AddressesIn S ∧ AddressesInList S xs

/-- What is addressed in the statements of a body are variables of a set. -/
def AddressesInBody (S : Var → Prop) : List (Stmt p) → Prop
  | [] => True
  | s :: rest => s.AddressesIn S ∧ AddressesInBody S rest

end

/-- A list addresses what its terms address. -/
theorem addressesInList_iff {S : Var → Prop} {ts : List (Term p)} :
    AddressesInList S ts ↔ ∀ t ∈ ts, t.AddressesIn S := by
  induction ts with
  | nil => simp [AddressesInList]
  | cons t ts ih => simp [AddressesInList, ih]

/-! ## Other sets -/

mutual

/-- A set may be replaced by one with the same variables among those that occur free. -/
theorem Term.AddressesIn.congr {S S' : Var → Prop} : ∀ {t : Term p}, t.AddressesIn S →
    (∀ y, t.occursFree y → S y → S' y) → t.AddressesIn S'
  | .mk _ _, ht, h =>
    ⟨ht.1.congr fun y hy => h y (by rw [Term.occursFree, hy, Bool.true_or]),
      ht.2.congr fun y hy => h y (by rw [Term.occursFree, hy, Bool.or_true])⟩

theorem Note.AddressesIn.congr {S S' : Var → Prop} : ∀ {n : Note p (Term p)}, n.AddressesIn S →
    (∀ y, n.occursFree y → S y → S' y) → n.AddressesIn S'
  | .place _ _, _, _ | .kind _, _, _ => trivial
  | .sort ty _, hn, h => Term.AddressesIn.congr (t := ty) hn h

theorem Form.AddressesIn.congr {S S' : Var → Prop} : ∀ {f : Form p}, f.AddressesIn S →
    (∀ y, f.occursFree y → S y → S' y) → f.AddressesIn S'
  | .atom _, _, _ | .var _, _, _ => trivial
  | .unary _ (.mk _ form), hf, h => by
    refine ⟨fun hop => ?_, hf.2.congr h⟩
    have hform := hf.1 hop
    cases form with
    | var v => exact h v (by simp [Form.occursFree, Term.occursFree]) hform
    | _ => exact hform
  | .binary _ _ _, hf, h =>
    ⟨hf.1.congr fun y hy => h y (by rw [Form.occursFree, hy, Bool.true_or]),
      hf.2.congr fun y hy => h y (by rw [Form.occursFree, hy, Bool.or_true])⟩
  | .app _ _, hf, h =>
    ⟨hf.1.congr fun y hy => h y (by rw [Form.occursFree, hy, Bool.true_or]),
      AddressesInList.congr hf.2 fun y hy => h y (by rw [Form.occursFree, hy, Bool.or_true])⟩
  | .list _, hf, h => AddressesInList.congr hf h
  | .bind _ t, hf, h => Tele.AddressesIn.congr (t := t) hf h

theorem Tele.AddressesIn.congr {S S' : Var → Prop} {k : Binder} : ∀ {t : Tele p k},
    t.AddressesIn S → (∀ y, t.occursFree y → S y → S' y) → t.AddressesIn S'
  | .fields, _, _ => trivial
  | .returns _ ret, ht, h => Term.AddressesIn.congr (t := ret) ht h
  | .runs _ _ _, ht, h =>
    ⟨ht.1.congr fun y hy => h y (by rw [Tele.occursFree, hy, Bool.true_or]),
      AddressesInBody.congr ht.2 fun y hy => h y (by rw [Tele.occursFree, hy, Bool.or_true])⟩
  | .arg _ _ _ _ _, ht, h =>
    ⟨ht.1.congr fun y hy => h y (by rw [Tele.occursFree, hy, Bool.true_or]),
      ht.2.congr fun y hy hS => ⟨hS.1, h y (by simp [Tele.occursFree, hy, hS.1]) hS.2⟩⟩

theorem Stmt.AddressesIn.congr {S S' : Var → Prop} : ∀ {s : Stmt p}, s.AddressesIn S →
    (∀ y, s.occursFree y → S y → S' y) → s.AddressesIn S'
  | .call _ x, hs, h | .ret _ x, hs, h | .impossibleBy _ x, hs, h =>
    Term.AddressesIn.congr (t := x) hs h
  | .ifThen _ _ _, hs, h =>
    ⟨hs.1.congr fun y hy => h y (by rw [Stmt.occursFree, hy, Bool.true_or]),
      AddressesInBody.congr hs.2 fun y hy => h y (by rw [Stmt.occursFree, hy, Bool.or_true])⟩
  | .ifElse _ _ _ _, hs, h =>
    ⟨hs.1.congr fun y hy => h y (by simp [Stmt.occursFree, hy]),
      AddressesInBody.congr hs.2.1 fun y hy => h y (by simp [Stmt.occursFree, hy]),
      AddressesInBody.congr hs.2.2 fun y hy => h y (by simp [Stmt.occursFree, hy])⟩
  | .retUnit _, _, _ | .impossible _, _, _ => trivial

theorem AddressesInList.congr {S S' : Var → Prop} : ∀ {ts : List (Term p)}, AddressesInList S ts →
    (∀ y, occursFreeList y ts → S y → S' y) → AddressesInList S' ts
  | [], _, _ => trivial
  | _ :: _, hts, h =>
    ⟨hts.1.congr fun y hy => h y (by rw [occursFreeList, hy, Bool.true_or]),
      AddressesInList.congr hts.2 fun y hy => h y (by rw [occursFreeList, hy, Bool.or_true])⟩

theorem AddressesInBody.congr {S S' : Var → Prop} : ∀ {b : List (Stmt p)}, AddressesInBody S b →
    (∀ y, occursFreeBody y b → S y → S' y) → AddressesInBody S' b
  | [], _, _ => trivial
  | _ :: _, hb, h =>
    ⟨hb.1.congr fun y hy => h y (by rw [occursFreeBody, hy, Bool.true_or]),
      AddressesInBody.congr hb.2 fun y hy => h y (by rw [occursFreeBody, hy, Bool.or_true])⟩

end

section
variable {S S' : Var → Prop} (h : ∀ y, S y → S' y)
include h

/-- More variables may be addressed in a larger set. -/
theorem Term.AddressesIn.mono {t : Term p} (ht : t.AddressesIn S) : t.AddressesIn S' :=
  ht.congr fun y _ => h y

theorem Tele.AddressesIn.mono {k : Binder} {t : Tele p k} (ht : t.AddressesIn S) :
    t.AddressesIn S' :=
  ht.congr fun y _ => h y

theorem AddressesInBody.mono {b : Body p} (hb : AddressesInBody S b) : AddressesInBody S' b :=
  hb.congr fun y _ => h y

end

/-- What addresses nothing may stand anywhere. -/
theorem Tele.AddressesIn.of_false {S : Var → Prop} {k : Binder} {t : Tele p k}
    (h : t.AddressesIn fun _ => False) : t.AddressesIn S :=
  h.mono fun _ => False.elim

/-! ## Replacing a variable -/

mutual

/-- A variable outside the set may be renamed, to any other. -/
theorem Term.AddressesIn.rename {x z : Var} {S : Var → Prop} (hx : ¬S x) :
    ∀ {t : Checked}, t.AddressesIn S → (t.rename x z).AddressesIn S
  | .mk _ _, ht => ⟨ht.1.rename hx, ht.2.rename hx⟩

theorem Note.AddressesIn.rename {x z : Var} {S : Var → Prop} (hx : ¬S x) :
    ∀ {n : Note .checked Checked}, n.AddressesIn S → (n.rename x z).AddressesIn S
  | .place _ _, _ | .kind _, _ => trivial
  | .sort ty _, hn => Term.AddressesIn.rename hx (t := ty) hn

theorem Form.AddressesIn.rename {x z : Var} {S : Var → Prop} (hx : ¬S x) :
    ∀ {f : Form .checked}, f.AddressesIn S → (f.rename x z).AddressesIn S
  | .atom _, _ | .var _, _ => trivial
  | .unary _ (.mk _ form), hf => by
    refine ⟨fun hop => ?_, hf.2.rename hx⟩
    obtain ⟨v, rfl, hv⟩ := (hf.1 hop).exists_var
    have hne : v ≠ x := by
      rintro rfl
      exact hx hv
    simpa [Term.rename, Term.form, Form.rename, hne, Form.AddressableIn] using hv
  | .binary _ _ _, hf => ⟨hf.1.rename hx, hf.2.rename hx⟩
  | .app _ _, hf => ⟨hf.1.rename hx, AddressesInList.rename hx hf.2⟩
  | .list _, hf => AddressesInList.rename hx hf
  | .bind _ t, hf => Tele.AddressesIn.rename hx (t := t) hf

theorem Tele.AddressesIn.rename {x z : Var} {S : Var → Prop} (hx : ¬S x) {k : Binder} :
    ∀ {t : Tele .checked k}, t.AddressesIn S → (t.rename x z).AddressesIn S
  | .fields, _ => trivial
  | .returns _ ret, ht => Term.AddressesIn.rename hx (t := ret) ht
  | .runs _ _ _, ht => ⟨ht.1.rename hx, AddressesInBody.rename hx ht.2⟩
  | .arg _ _ _ v rest, ht => by
    refine ⟨ht.1.rename hx, ?_⟩
    split
    · exact ht.2
    · exact ht.2.rename fun h => hx h.2

theorem Stmt.AddressesIn.rename {x z : Var} {S : Var → Prop} (hx : ¬S x) :
    ∀ {s : Stmt .checked}, s.AddressesIn S → (s.rename x z).AddressesIn S
  | .call _ a, hs | .ret _ a, hs | .impossibleBy _ a, hs => Term.AddressesIn.rename hx (t := a) hs
  | .ifThen _ _ _, hs => ⟨hs.1.rename hx, AddressesInBody.rename hx hs.2⟩
  | .ifElse _ _ _ _, hs =>
    ⟨hs.1.rename hx, AddressesInBody.rename hx hs.2.1, AddressesInBody.rename hx hs.2.2⟩
  | .retUnit _, _ | .impossible _, _ => trivial

theorem AddressesInList.rename {x z : Var} {S : Var → Prop} (hx : ¬S x) :
    ∀ {ts : List Checked}, AddressesInList S ts → AddressesInList S (renameList x z ts)
  | [], _ => trivial
  | _ :: _, hts => ⟨hts.1.rename hx, AddressesInList.rename hx hts.2⟩

theorem AddressesInBody.rename {x z : Var} {S : Var → Prop} (hx : ¬S x) :
    ∀ {b : Body .checked}, AddressesInBody S b → AddressesInBody S (renameBody x z b)
  | [], _ => trivial
  | _ :: _, hb => ⟨hb.1.rename hx, AddressesInBody.rename hx hb.2⟩

end

/-- The scope of an argument may be renamed to a new variable. -/
theorem Tele.AddressesIn.refresh {S : Var → Prop} {v : Var} (floor : Nat) {k : Binder}
    {t : Tele .checked k} (ht : t.AddressesIn fun y => some v ≠ some y ∧ S y) :
    (t.refresh v floor).2.AddressesIn fun y => some (t.refresh v floor).1 ≠ some y ∧ S y := by
  have hfresh : t.AddressesIn fun y => some v ≠ some y ∧ some (t.fresh v floor) ≠ some y ∧ S y := by
    refine ht.congr fun y hy hS => ⟨hS.1, ?_, hS.2⟩
    rintro ⟨⟩
    exact absurd (t.index_le_maxIndex hy) (Nat.not_le.mpr (t.maxIndex_lt_fresh v floor))
  rw [Tele.refresh_eq]
  exact (hfresh.rename fun h => h.1 rfl).mono fun y hy => hy.2

mutual

/-- A term may be put for a variable outside the set. -/
theorem Term.AddressesIn.subst {x : Var} {S S' : Var → Prop} (hS : ∀ y, S y → y ≠ x ∧ S' y)
    {r : Checked} (hr : r.AddressesIn S') :
    ∀ {t : Checked}, t.AddressesIn S → (t.subst x r).AddressesIn S'
  | .mk note (.atom a), ht => by
    rw [Term.subst_atom]
    exact ⟨Note.AddressesIn.subst hS hr ht.1, trivial⟩
  | .mk note (.var v), ht => by
    rw [Term.subst_var]
    split
    · exact hr
    · exact ⟨Note.AddressesIn.subst hS hr ht.1, trivial⟩
  | .mk note (.unary op (.mk anote form)), ht => by
    rw [Term.subst_unary]
    refine ⟨Note.AddressesIn.subst hS hr ht.1, fun hop => ?_, Term.AddressesIn.subst hS hr ht.2.2⟩
    obtain ⟨v, rfl, hv⟩ := (ht.2.1 hop).exists_var
    obtain ⟨hne, hv'⟩ := hS v hv
    rw [Term.subst_var, if_neg hne]
    exact hv'
  | .mk note (.binary op a b), ht => by
    rw [Term.subst_binary]
    exact ⟨Note.AddressesIn.subst hS hr ht.1, Term.AddressesIn.subst hS hr ht.2.1,
      Term.AddressesIn.subst hS hr ht.2.2⟩
  | .mk note (.app f args), ht => by
    rw [Term.subst_app]
    exact ⟨Note.AddressesIn.subst hS hr ht.1, Term.AddressesIn.subst hS hr ht.2.1,
      AddressesInList.subst hS hr ht.2.2⟩
  | .mk note (.list xs), ht => by
    rw [Term.subst_list]
    exact ⟨Note.AddressesIn.subst hS hr ht.1, AddressesInList.subst hS hr ht.2⟩
  | .mk note (.bind k t), ht => by
    rw [Term.subst_bind]
    exact ⟨Note.AddressesIn.subst hS hr ht.1, Tele.AddressesIn.subst hS hr (t := t) ht.2⟩
termination_by t => 2 * t.size
decreasing_by all_goals simp only [Term.size, Form.size]; omega

theorem Note.AddressesIn.subst {x : Var} {S S' : Var → Prop} (hS : ∀ y, S y → y ≠ x ∧ S' y)
    {r : Checked} (hr : r.AddressesIn S') :
    ∀ {n : Note .checked Checked}, n.AddressesIn S → (n.map (·.subst x r)).AddressesIn S'
  | .place _ _, _ | .kind _, _ => trivial
  | .sort ty _, hn => Term.AddressesIn.subst hS hr (t := ty) hn
termination_by n => 2 * n.size + 1
decreasing_by simp only [Note.size]; omega

theorem Tele.AddressesIn.subst {x : Var} {S S' : Var → Prop} (hS : ∀ y, S y → y ≠ x ∧ S' y)
    {r : Checked} (hr : r.AddressesIn S') {k : Binder} :
    ∀ {t : Tele .checked k}, t.AddressesIn S → (t.subst x r).AddressesIn S'
  | .fields, _ => trivial
  | .returns _ ret, ht => Term.AddressesIn.subst hS hr (t := ret) ht
  | .runs _ ret body, ht => by
    rw [Tele.subst_runs]
    exact ⟨Term.AddressesIn.subst hS hr ht.1, AddressesInBody.subst hS hr ht.2⟩
  | .arg _ _ ty none rest, ht => by
    rw [Tele.subst_arg_none]
    exact ⟨Term.AddressesIn.subst hS hr ht.1,
      ht.2.subst (fun y hy => ⟨(hS y hy.2).1, hy.1, (hS y hy.2).2⟩)
        (hr.mono fun y hy => ⟨nofun, hy⟩)⟩
  | .arg _ _ ty (some v) rest, ht => by
    have hty := Term.AddressesIn.subst hS hr ht.1
    -- in the scope of an argument that does not occur free in `r`
    have hscope {w : Var} (hw : r.occursFree w = false) :
        (∀ y, (some w ≠ some y ∧ S y) → y ≠ x ∧ some w ≠ some y ∧ S' y) ∧
        r.AddressesIn fun y => some w ≠ some y ∧ S' y := by
      refine ⟨fun y hy => ⟨(hS y hy.2).1, hy.1, (hS y hy.2).2⟩, hr.congr fun y hy hy' => ⟨?_, hy'⟩⟩
      rintro ⟨⟩
      rw [hw] at hy
      cases hy
    rw [Tele.subst_arg_some]
    split
    · exact ⟨hty, ht.2.mono fun y hy => ⟨hy.1, (hS y hy.2).2⟩⟩
    · split
      · have hnew : r.occursFree (rest.refresh v r.maxIndex).1 = false := by
          rw [Bool.eq_false_iff]
          intro hfree
          exact absurd (r.index_le_maxIndex hfree)
            (Nat.not_le.mpr (rest.floor_lt_fresh v r.maxIndex))
        exact ⟨hty, (ht.2.refresh r.maxIndex).subst (hscope hnew).1 (hscope hnew).2⟩
      · next hfree =>
        have hfree : r.occursFree v = false := Bool.eq_false_iff.mpr hfree
        exact ⟨hty, ht.2.subst (hscope hfree).1 (hscope hfree).2⟩
termination_by t => 2 * t.size
decreasing_by all_goals simp only [Tele.size, Tele.size_refresh]; omega

theorem Stmt.AddressesIn.subst {x : Var} {S S' : Var → Prop} (hS : ∀ y, S y → y ≠ x ∧ S' y)
    {r : Checked} (hr : r.AddressesIn S') :
    ∀ {s : Stmt .checked}, s.AddressesIn S → (s.subst x r).AddressesIn S'
  | .call _ a, hs | .ret _ a, hs | .impossibleBy _ a, hs => Term.AddressesIn.subst hS hr (t := a) hs
  | .ifThen _ cond yes, hs => by
    rw [Stmt.subst_ifThen]
    exact ⟨Term.AddressesIn.subst hS hr hs.1, AddressesInBody.subst hS hr hs.2⟩
  | .ifElse _ cond yes no, hs => by
    rw [Stmt.subst_ifElse]
    exact ⟨Term.AddressesIn.subst hS hr hs.1, AddressesInBody.subst hS hr hs.2.1,
      AddressesInBody.subst hS hr hs.2.2⟩
  | .retUnit _, _ | .impossible _, _ => trivial
termination_by s => 2 * s.size
decreasing_by all_goals simp only [Stmt.size]; omega

theorem AddressesInList.subst {x : Var} {S S' : Var → Prop} (hS : ∀ y, S y → y ≠ x ∧ S' y)
    {r : Checked} (hr : r.AddressesIn S') :
    ∀ {ts : List Checked}, AddressesInList S ts → AddressesInList S' (ts.map (·.subst x r))
  | [], _ => trivial
  | t :: ts, hts => ⟨Term.AddressesIn.subst hS hr hts.1, AddressesInList.subst hS hr hts.2⟩
termination_by ts => 2 * sizeList ts + 1
decreasing_by all_goals have := t.one_le_size; simp only [sizeList]; omega

theorem AddressesInBody.subst {x : Var} {S S' : Var → Prop} (hS : ∀ y, S y → y ≠ x ∧ S' y)
    {r : Checked} (hr : r.AddressesIn S') :
    ∀ {b : Body .checked}, AddressesInBody S b → AddressesInBody S' (b.map (·.subst x r))
  | [], _ => trivial
  | s :: b, hb => ⟨hb.1.subst hS hr, AddressesInBody.subst hS hr hb.2⟩
termination_by b => 2 * sizeBody b + 1
decreasing_by all_goals have := s.one_le_size; simp only [sizeBody]; omega

end

/-- Where an argument is supplied, it is not addressed. -/
theorem Tele.AddressesIn.instantiate {S : Var → Prop} {k : Binder} {t : Tele .checked k}
    {v : Option Var} (ht : t.AddressesIn fun y => v ≠ some y ∧ S y) {r : Checked}
    (hr : r.AddressesIn S) : (t.instantiate v r).AddressesIn S := by
  cases v with
  | none => exact ht.mono fun y hy => hy.2
  | some x => exact ht.subst (fun y hy => ⟨fun h => hy.1 (congrArg some h.symm), hy.2⟩) hr

/-! ## Every node -/

/-- If a node is an address, its operand is a variable. -/
def Term.AddressesVariable (t : Checked) : Prop :=
  ∀ x, t.form = .unary .addressOf x → ∃ v, x.form = .var v

mutual

/-- Nothing but a variable is addressed. -/
theorem Term.AddressesIn.everywhere {S : Var → Prop} : ∀ {t : Checked}, t.AddressesIn S →
    t.Everywhere Term.AddressesVariable
  | .mk _ form, ht => by
    refine ⟨fun x hx => ?_, ht.1.everywhere, ht.2.everywhere⟩
    obtain rfl : form = .unary .addressOf x := hx
    obtain ⟨v, hv, -⟩ := (ht.2.1 rfl).exists_var
    exact ⟨v, hv⟩

theorem Note.AddressesIn.everywhere {S : Var → Prop} : ∀ {n : Note .checked Checked},
    n.AddressesIn S → n.Everywhere Term.AddressesVariable
  | .place _ _, _ | .kind _, _ => trivial
  | .sort ty _, hn => Term.AddressesIn.everywhere (t := ty) hn

theorem Form.AddressesIn.everywhere {S : Var → Prop} : ∀ {f : Form .checked}, f.AddressesIn S →
    f.Everywhere Term.AddressesVariable
  | .atom _, _ | .var _, _ => trivial
  | .unary _ x, hf => Term.AddressesIn.everywhere (t := x) hf.2
  | .binary _ _ _, hf => ⟨hf.1.everywhere, hf.2.everywhere⟩
  | .app _ _, hf => ⟨hf.1.everywhere, AddressesInList.everywhere hf.2⟩
  | .list _, hf => AddressesInList.everywhere hf
  | .bind _ t, hf => Tele.AddressesIn.everywhere (t := t) hf

theorem Tele.AddressesIn.everywhere {S : Var → Prop} {k : Binder} : ∀ {t : Tele .checked k},
    t.AddressesIn S → t.Everywhere Term.AddressesVariable
  | .fields, _ => trivial
  | .returns _ ret, ht => Term.AddressesIn.everywhere (t := ret) ht
  | .runs _ _ _, ht => ⟨ht.1.everywhere, AddressesInBody.everywhere ht.2⟩
  | .arg _ _ _ _ _, ht => ⟨ht.1.everywhere, ht.2.everywhere⟩

theorem Stmt.AddressesIn.everywhere {S : Var → Prop} : ∀ {s : Stmt .checked}, s.AddressesIn S →
    s.Everywhere Term.AddressesVariable
  | .call _ x, hs | .ret _ x, hs | .impossibleBy _ x, hs => Term.AddressesIn.everywhere (t := x) hs
  | .ifThen _ _ _, hs => ⟨hs.1.everywhere, AddressesInBody.everywhere hs.2⟩
  | .ifElse _ _ _ _, hs =>
    ⟨hs.1.everywhere, AddressesInBody.everywhere hs.2.1, AddressesInBody.everywhere hs.2.2⟩
  | .retUnit _, _ | .impossible _, _ => trivial

theorem AddressesInList.everywhere {S : Var → Prop} : ∀ {ts : List Checked},
    AddressesInList S ts → EverywhereList Term.AddressesVariable ts
  | [], _ => trivial
  | _ :: _, hts => ⟨hts.1.everywhere, AddressesInList.everywhere hts.2⟩

theorem AddressesInBody.everywhere {S : Var → Prop} : ∀ {b : Body .checked},
    AddressesInBody S b → EverywhereBody Term.AddressesVariable b
  | [], _ => trivial
  | _ :: _, hb => ⟨hb.1.everywhere, AddressesInBody.everywhere hb.2⟩

end

/-! ## Parts of trees -/

section
variable {S : Var → Prop}

theorem Term.AddressesIn.note {t : Term p} (h : t.AddressesIn S) : t.note.AddressesIn S := by
  cases t
  exact h.1

theorem Term.AddressesIn.form {t : Term p} (h : t.AddressesIn S) : t.form.AddressesIn S := by
  cases t
  exact h.2

/-- Sorts are looked at, too. -/
theorem Term.AddressesIn.sort {t ty : Term p} (h : t.AddressesIn S) (hty : t.sort? = some ty) :
    ty.AddressesIn S := by
  obtain ⟨note, form⟩ := t
  cases note with
  | place | kind => cases hty
  | sort ty' _ =>
    cases hty
    exact h.1

theorem Term.AddressesIn.piSort {t : Term p} (h : t.AddressesIn S) {s : Signature p}
    (hs : t.piSort? = some s) : s.AddressesIn S := by
  unfold Term.piSort? at hs
  split at hs
  · next hsort =>
    cases hs
    exact (h.sort hsort).2
  · cases hs

/-- A function without its body addresses less. -/
theorem Tele.AddressesIn.bare : ∀ {k : Binder} {S : Var → Prop} {t : Tele p k}, t.AddressesIn S →
    t.bare.AddressesIn S
  | _, _, .fields, _ => trivial
  | _, _, .returns _ _, h => h
  | _, _, .runs _ _ _, h => h.1
  | _, _, .arg _ _ _ _ _, h => ⟨h.1, h.2.bare⟩

/-- The return type of a signature, where the arguments are not addressed. -/
theorem Tele.AddressesIn.ret? : ∀ {k : Binder} {S : Var → Prop} {t : Tele p k} {ret : Term p},
    t.AddressesIn S → t.ret? = some ret → ret.AddressesIn S
  | _, _, .returns _ _, _, h, hret => Option.some.inj hret ▸ h
  | _, _, .runs _ _ _, _, h, hret => Option.some.inj hret ▸ h.1
  | _, _, .arg _ _ _ _ rest, _, h, hret =>
    (Tele.AddressesIn.ret? (t := rest) h.2 hret).mono fun _ hy => hy.2

theorem Tele.AddressesIn.ret {s : Signature p} (h : s.AddressesIn S) : s.ret.AddressesIn S :=
  h.ret? (Option.some_get _).symm

/-- The body of a function, where the arguments are not addressed. -/
theorem Tele.AddressesIn.body? : ∀ {k : Binder} {S : Var → Prop} {t : Tele p k} {b : Body p},
    t.AddressesIn S → t.body? = some b → AddressesInBody S b
  | _, _, .runs _ _ _, _, h, hb => Option.some.inj hb ▸ h.2
  | _, _, .arg _ _ _ _ rest, _, h, hb =>
    (Tele.AddressesIn.body? (t := rest) h.2 hb).mono fun _ hy => hy.2

end

end DependentCore
