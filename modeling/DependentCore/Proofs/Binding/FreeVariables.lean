import DependentCore.Proofs.Binding.Renaming

/-!
# Free variables under renaming and substitution

Which variables occur free in a term after `rename` and after `subst`.

* `Term.index_le_maxIndex`: a variable that occurs free has an index of at most `maxIndex`, so the
  variable that `Tele.fresh` chooses is new to its scope,
* `Term.occursFree_rename`: renaming to a new variable moves the occurrences and nothing else,
* `Term.Clashes x r`: on its way down, the substitution of `r` for `x` renames a binder to `x`
  itself. What was bound there is then taken for the variable to be replaced,
* `Term.occursFree_subst`: the free variables of a written term after substitution,
* `free_variables_of_subst`: they are those one expects if and only if no clash shows.

Written terms have no sorts, so all their variables stand in the term itself.
-/

namespace DependentCore

variable {p : Phase}

/-! ## New variables -/

mutual

/-- A variable that occurs free in a term has at most the largest index of the term. -/
theorem Term.index_le_maxIndex {y : Var} :
    ∀ t : Term p, t.occursFree y → y.index ≤ t.maxIndex
  | .mk note form => by
    intro h
    simp only [Term.occursFree, Bool.or_eq_true] at h
    rw [Term.maxIndex]
    rcases h with h | h
    · exact Nat.le_trans (Note.index_le_maxIndex note h) (Nat.le_max_left _ _)
    · exact Nat.le_trans (Form.index_le_maxIndex form h) (Nat.le_max_right _ _)

theorem Note.index_le_maxIndex {y : Var} :
    ∀ n : Note p (Term p), n.occursFree y → y.index ≤ n.maxIndex
  | .place _ _, h | .kind _, h => by simp [Note.occursFree] at h
  | .sort ty _, h => Term.index_le_maxIndex ty h

theorem Form.index_le_maxIndex {y : Var} :
    ∀ f : Form p, f.occursFree y → y.index ≤ f.maxIndex
  | .atom _, h => by simp [Form.occursFree] at h
  | .var v, h => by
    simp only [Form.occursFree, decide_eq_true_eq] at h
    subst h
    exact Nat.le_refl _
  | .unary _ a, h => Term.index_le_maxIndex a h
  | .binary _ a b, h => by
    have ha := Term.index_le_maxIndex (y := y) a
    have hb := Term.index_le_maxIndex (y := y) b
    simp only [Form.occursFree, Bool.or_eq_true] at h
    simp only [Form.maxIndex]
    grind
  | .app f args, h => by
    have hf := Term.index_le_maxIndex (y := y) f
    have hargs := index_le_maxIndexList (y := y) args
    simp only [Form.occursFree, Bool.or_eq_true] at h
    simp only [Form.maxIndex]
    grind
  | .list xs, h => index_le_maxIndexList xs h
  | .bind _ t, h => Tele.index_le_maxIndex t h

theorem Tele.index_le_maxIndex {y : Var} {k : Binder} :
    ∀ t : Tele p k, t.occursFree y → y.index ≤ t.maxIndex
  | .fields, h => by simp [Tele.occursFree] at h
  | .returns _ ret, h => Term.index_le_maxIndex ret h
  | .runs _ ret body, h => by
    have hret := Term.index_le_maxIndex (y := y) ret
    have hbody := index_le_maxIndexBody (y := y) body
    simp only [Tele.occursFree, Bool.or_eq_true] at h
    simp only [Tele.maxIndex]
    grind
  | .arg _ _ ty v rest, h => by
    have hty := Term.index_le_maxIndex (y := y) ty
    have hrest := Tele.index_le_maxIndex (y := y) rest
    simp only [Tele.occursFree, Bool.or_eq_true, Bool.and_eq_true] at h
    cases v <;> simp only [Tele.maxIndex] <;> grind

theorem Stmt.index_le_maxIndex {y : Var} :
    ∀ s : Stmt p, s.occursFree y → y.index ≤ s.maxIndex
  | .call _ a, h | .ret _ a, h | .impossibleBy _ a, h => Term.index_le_maxIndex a h
  | .ifThen _ cond yes, h => by
    have hcond := Term.index_le_maxIndex (y := y) cond
    have hyes := index_le_maxIndexBody (y := y) yes
    simp only [Stmt.occursFree, Bool.or_eq_true] at h
    simp only [Stmt.maxIndex]
    grind
  | .ifElse _ cond yes no, h => by
    have hcond := Term.index_le_maxIndex (y := y) cond
    have hyes := index_le_maxIndexBody (y := y) yes
    have hno := index_le_maxIndexBody (y := y) no
    simp only [Stmt.occursFree, Bool.or_eq_true] at h
    simp only [Stmt.maxIndex]
    grind
  | .retUnit _, h | .impossible _, h => by simp [Stmt.occursFree] at h

theorem index_le_maxIndexList {y : Var} :
    ∀ ts : List (Term p), occursFreeList y ts → y.index ≤ maxIndexList ts
  | [], h => by simp [occursFreeList] at h
  | a :: as, h => by
    have ha := Term.index_le_maxIndex (y := y) a
    have has := index_le_maxIndexList (y := y) as
    simp only [occursFreeList, Bool.or_eq_true] at h
    simp only [maxIndexList]
    grind

theorem index_le_maxIndexBody {y : Var} :
    ∀ b : List (Stmt p), occursFreeBody y b → y.index ≤ maxIndexBody b
  | [], h => by simp [occursFreeBody] at h
  | s :: rest, h => by
    have hs := Stmt.index_le_maxIndex (y := y) s
    have hrest := index_le_maxIndexBody (y := y) rest
    simp only [occursFreeBody, Bool.or_eq_true] at h
    simp only [maxIndexBody]
    grind

end

/-! ## Renaming -/

mutual

/-- Renaming `x` to a variable `z` that is new to a term moves the occurrences of `x` to `z`. -/
theorem Term.occursFree_rename {x y z : Var} :
    ∀ t : Term p, t.maxIndex < z.index →
      ((t.rename x z).occursFree y ↔ (y ≠ x ∧ t.occursFree y) ∨ (y = z ∧ t.occursFree x))
  | .mk note form, h => by
    rw [Term.maxIndex] at h
    have hnote := Note.occursFree_rename (x := x) (y := y) (z := z) note (by omega)
    have hform := Form.occursFree_rename (x := x) (y := y) (z := z) form (by omega)
    simp only [Term.rename, Term.occursFree, Bool.or_eq_true, hnote, hform]
    grind

theorem Note.occursFree_rename {x y z : Var} :
    ∀ n : Note p (Term p), n.maxIndex < z.index →
      ((n.rename x z).occursFree y ↔ (y ≠ x ∧ n.occursFree y) ∨ (y = z ∧ n.occursFree x))
  | .place _ _, _ | .kind _, _ => by simp [Note.rename, Note.occursFree]
  | .sort ty _, h => Term.occursFree_rename ty h

theorem Form.occursFree_rename {x y z : Var} :
    ∀ f : Form p, f.maxIndex < z.index →
      ((f.rename x z).occursFree y ↔ (y ≠ x ∧ f.occursFree y) ∨ (y = z ∧ f.occursFree x))
  | .atom _, _ => by simp [Form.rename, Form.occursFree]
  | .var v, h => by
    simp only [Form.rename, Form.occursFree, decide_eq_true_eq]
    grind
  | .unary _ a, h => Term.occursFree_rename a h
  | .binary _ a b, h => by
    rw [Form.maxIndex] at h
    have ha := Term.occursFree_rename (x := x) (y := y) (z := z) a (by omega)
    have hb := Term.occursFree_rename (x := x) (y := y) (z := z) b (by omega)
    simp only [Form.rename, Form.occursFree, Bool.or_eq_true, ha, hb]
    grind
  | .app f args, h => by
    rw [Form.maxIndex] at h
    have hf := Term.occursFree_rename (x := x) (y := y) (z := z) f (by omega)
    have hargs := occursFreeList_rename (x := x) (y := y) (z := z) args (by omega)
    simp only [Form.rename, Form.occursFree, Bool.or_eq_true, hf, hargs]
    grind
  | .list xs, h => occursFreeList_rename xs h
  | .bind _ t, h => Tele.occursFree_rename t h

theorem Tele.occursFree_rename {x y z : Var} {k : Binder} :
    ∀ t : Tele p k, t.maxIndex < z.index →
      ((t.rename x z).occursFree y ↔ (y ≠ x ∧ t.occursFree y) ∨ (y = z ∧ t.occursFree x))
  | .fields, _ => by simp [Tele.rename, Tele.occursFree]
  | .returns _ ret, h => Term.occursFree_rename ret h
  | .runs _ ret body, h => by
    rw [Tele.maxIndex] at h
    have hret := Term.occursFree_rename (x := x) (y := y) (z := z) ret (by omega)
    have hbody := occursFreeBody_rename (x := x) (y := y) (z := z) body (by omega)
    simp only [Tele.rename, Tele.occursFree, Bool.or_eq_true, hret, hbody]
    grind
  | .arg _ _ ty none rest, h => by
    rw [Tele.maxIndex] at h
    have hty := Term.occursFree_rename (x := x) (y := y) (z := z) ty (by omega)
    have hrest := Tele.occursFree_rename (x := x) (y := y) (z := z) rest (by omega)
    simp only [Tele.rename, Tele.occursFree, Bool.or_eq_true, Bool.and_eq_true, hty, hrest,
      reduceCtorEq, if_false]
    grind
  | .arg _ _ ty (some v) rest, h => by
    rw [Tele.maxIndex] at h
    have hty := Term.occursFree_rename (x := x) (y := y) (z := z) ty (by omega)
    have hrest := Tele.occursFree_rename (x := x) (y := y) (z := z) rest (by omega)
    -- the binder is not the new variable, as its index is smaller
    have hv : v ≠ z := fun e => by rw [e] at h; omega
    by_cases hvx : v = x
    · subst hvx
      simp only [Tele.rename, Tele.occursFree, Bool.or_eq_true, Bool.and_eq_true, hty, if_true]
      grind
    · simp only [Tele.rename, Tele.occursFree, Bool.or_eq_true, Bool.and_eq_true, hty, hrest,
        Option.some.injEq, hvx, if_false]
      grind

theorem Stmt.occursFree_rename {x y z : Var} :
    ∀ s : Stmt p, s.maxIndex < z.index →
      ((s.rename x z).occursFree y ↔ (y ≠ x ∧ s.occursFree y) ∨ (y = z ∧ s.occursFree x))
  | .call _ a, h | .ret _ a, h | .impossibleBy _ a, h => Term.occursFree_rename a h
  | .ifThen _ cond yes, h => by
    rw [Stmt.maxIndex] at h
    have hcond := Term.occursFree_rename (x := x) (y := y) (z := z) cond (by omega)
    have hyes := occursFreeBody_rename (x := x) (y := y) (z := z) yes (by omega)
    simp only [Stmt.rename, Stmt.occursFree, Bool.or_eq_true, hcond, hyes]
    grind
  | .ifElse _ cond yes no, h => by
    rw [Stmt.maxIndex] at h
    have hcond := Term.occursFree_rename (x := x) (y := y) (z := z) cond (by omega)
    have hyes := occursFreeBody_rename (x := x) (y := y) (z := z) yes (by omega)
    have hno := occursFreeBody_rename (x := x) (y := y) (z := z) no (by omega)
    simp only [Stmt.rename, Stmt.occursFree, Bool.or_eq_true, hcond, hyes, hno]
    grind
  | .retUnit _, _ | .impossible _, _ => by simp [Stmt.rename, Stmt.occursFree]

theorem occursFreeList_rename {x y z : Var} :
    ∀ ts : List (Term p), maxIndexList ts < z.index →
      (occursFreeList y (renameList x z ts)
        ↔ (y ≠ x ∧ occursFreeList y ts) ∨ (y = z ∧ occursFreeList x ts))
  | [], _ => by simp [renameList, occursFreeList]
  | a :: as, h => by
    rw [maxIndexList] at h
    have ha := Term.occursFree_rename (x := x) (y := y) (z := z) a (by omega)
    have has := occursFreeList_rename (x := x) (y := y) (z := z) as (by omega)
    simp only [renameList, occursFreeList, Bool.or_eq_true, ha, has]
    grind

theorem occursFreeBody_rename {x y z : Var} :
    ∀ b : List (Stmt p), maxIndexBody b < z.index →
      (occursFreeBody y (renameBody x z b)
        ↔ (y ≠ x ∧ occursFreeBody y b) ∨ (y = z ∧ occursFreeBody x b))
  | [], _ => by simp [renameBody, occursFreeBody]
  | s :: rest, h => by
    rw [maxIndexBody] at h
    have hs := Stmt.occursFree_rename (x := x) (y := y) (z := z) s (by omega)
    have hrest := occursFreeBody_rename (x := x) (y := y) (z := z) rest (by omega)
    simp only [renameBody, occursFreeBody, Bool.or_eq_true, hs, hrest]
    grind

end

/-! ## Clashes -/

mutual

/-- Substituting `r` for `x` in a term renames some binder to `x`. -/
inductive Term.Clashes (x : Var) (r : Written) : Written → Prop where
  | unary {note op a} : Term.Clashes x r a → Term.Clashes x r (.mk note (.unary op a))
  | left {note op a b} : Term.Clashes x r a → Term.Clashes x r (.mk note (.binary op a b))
  | right {note op a b} : Term.Clashes x r b → Term.Clashes x r (.mk note (.binary op a b))
  | function {note f args} : Term.Clashes x r f → Term.Clashes x r (.mk note (.app f args))
  | argument {note f args a} :
    a ∈ args → Term.Clashes x r a → Term.Clashes x r (.mk note (.app f args))
  | element {note xs a} : a ∈ xs → Term.Clashes x r a → Term.Clashes x r (.mk note (.list xs))
  | bind {note k t} : Tele.Clashes x r t → Term.Clashes x r (.mk note (.bind k t))

/-- Substituting `r` for `x` in a telescope renames some binder to `x`. -/
inductive Tele.Clashes (x : Var) (r : Written) : {k : Binder} → Tele .written k → Prop where
  | returns {m ret} : Term.Clashes x r ret → Tele.Clashes x r (.returns m ret)
  | runs {m ret body} : Term.Clashes x r ret → Tele.Clashes x r (.runs m ret body)
  | body {m ret body s} :
    s ∈ body → Stmt.Clashes x r s → Tele.Clashes x r (.runs m ret body)
  | type {k mark qty ty v} {rest : Tele .written k} :
    Term.Clashes x r ty → Tele.Clashes x r (.arg mark qty ty v rest)
  | kept {k mark qty ty v} {rest : Tele .written k} :
    v ≠ some x → (∀ w, v = some w → ¬r.occursFree w) → Tele.Clashes x r rest →
    Tele.Clashes x r (.arg mark qty ty v rest)
  /-- The argument would capture a variable of `r`, and the name chosen for it is `x`. -/
  | here {k mark qty ty v} {rest : Tele .written k} :
    v ≠ x → r.occursFree v → rest.occursFree v → rest.fresh v r.maxIndex = x →
    Tele.Clashes x r (.arg mark qty ty (some v) rest)
  | renamed {k mark qty ty v} {rest : Tele .written k} :
    v ≠ x → r.occursFree v → Tele.Clashes x r (rest.refresh v r.maxIndex).2 →
    Tele.Clashes x r (.arg mark qty ty (some v) rest)

/-- Substituting `r` for `x` in a statement renames some binder to `x`. -/
inductive Stmt.Clashes (x : Var) (r : Written) : Stmt .written → Prop where
  | call {mark a} : Term.Clashes x r a → Stmt.Clashes x r (.call mark a)
  | ret {mark a} : Term.Clashes x r a → Stmt.Clashes x r (.ret mark a)
  | impossibleBy {mark a} : Term.Clashes x r a → Stmt.Clashes x r (.impossibleBy mark a)
  | ifThen {mark cond yes} : Term.Clashes x r cond → Stmt.Clashes x r (.ifThen mark cond yes)
  | ifThenYes {mark cond yes s} :
    s ∈ yes → Stmt.Clashes x r s → Stmt.Clashes x r (.ifThen mark cond yes)
  | ifElse {mark cond yes no} : Term.Clashes x r cond → Stmt.Clashes x r (.ifElse mark cond yes no)
  | ifElseYes {mark cond yes no s} :
    s ∈ yes → Stmt.Clashes x r s → Stmt.Clashes x r (.ifElse mark cond yes no)
  | ifElseNo {mark cond yes no s} :
    s ∈ no → Stmt.Clashes x r s → Stmt.Clashes x r (.ifElse mark cond yes no)

end

/-! ## Substitution -/

/-- What one expects of the free variables after `r` has been put for `x`, where `free` are the
free variables before and `clash` says whether a binder was renamed to `x`. -/
def FreeAfter (x : Var) (r : Written) (free : Var → Prop) (clash : Prop) (y : Var) : Prop :=
  (y ≠ x ∧ free y) ∨ ((free x ∨ clash) ∧ r.occursFree y)

/-- The free variables of an argument and its scope, if the argument is neither `x` nor has to be
renamed. -/
theorem freeAfter_kept {x y : Var} {r : Written} {v : Option Var} {ty rest : Var → Prop}
    {ct cr : Prop} (hx : v ≠ some x) (hr : ∀ w, v = some w → ¬r.occursFree w) :
    (FreeAfter x r ty ct y ∨ (v ≠ some y ∧ FreeAfter x r rest cr y))
      ↔ FreeAfter x r (fun z => ty z ∨ (v ≠ some z ∧ rest z)) (ct ∨ cr) y := by
  have hvy : r.occursFree y → v ≠ some y := fun h e => hr y e h
  unfold FreeAfter
  grind

/-- The free variables of an argument `v` and its scope, if the argument is renamed to `new`, a
variable that occurs neither in the scope nor in `r`. If `new` is `x`, all that was bound by `v` is
replaced. -/
theorem freeAfter_renamed {x y v new : Var} {r : Written} {ty rest rest' : Var → Prop}
    {ct cr : Prop} (hx : v ≠ x) (hrest : ¬rest new) (hr : ¬r.occursFree new)
    (hrename : ∀ z, rest' z ↔ (z ≠ v ∧ rest z) ∨ (z = new ∧ rest v)) :
    (FreeAfter x r ty ct y ∨ (some new ≠ some y ∧ FreeAfter x r rest' cr y))
      ↔ FreeAfter x r (fun z => ty z ∨ (some v ≠ some z ∧ rest z))
        (ct ∨ (rest v ∧ new = x) ∨ cr) y := by
  unfold FreeAfter
  simp only [hrename]
  grind

/-- A written node carries its place, in which no variable occurs. -/
theorem Note.occursFree_written (y : Var) : ∀ n : Note .written Written, n.occursFree y = false
  | .place _ _ => rfl

mutual

theorem Term.occursFree_subst (x : Var) (r : Written) (y : Var) : ∀ t : Written,
    ((t.subst x r).occursFree y
      ↔ FreeAfter x r (fun z => t.occursFree z) (Term.Clashes x r t) y)
  | .mk note (.atom a) => by
    have hclash : ¬Term.Clashes x r (.mk note (.atom a)) := nofun
    simp [Term.occursFree, Note.occursFree_written, Form.occursFree, FreeAfter, hclash]
  | .mk note (.var v) => by
    have hclash : ¬Term.Clashes x r (.mk note (.var v)) := nofun
    by_cases hv : v = x
    · simp only [Term.subst_var, hv, if_true, Term.occursFree, Note.occursFree_written,
        Form.occursFree, Bool.false_or, decide_eq_true_eq, FreeAfter]
      grind
    · simp only [Term.subst_var, hv, if_false, Term.occursFree, Note.occursFree_written,
        Form.occursFree, Bool.false_or, decide_eq_true_eq, FreeAfter]
      grind
  | .mk note (.unary op a) => by
    have ha := Term.occursFree_subst x r y a
    have hclash : Term.Clashes x r (.mk note (.unary op a)) ↔ Term.Clashes x r a :=
      ⟨fun | .unary h => h, .unary⟩
    simp only [Term.subst_unary, Term.occursFree, Note.occursFree_written, Form.occursFree,
      Bool.false_or, ha, hclash]
  | .mk note (.binary op a b) => by
    have ha := Term.occursFree_subst x r y a
    have hb := Term.occursFree_subst x r y b
    have hclash : Term.Clashes x r (.mk note (.binary op a b))
        ↔ Term.Clashes x r a ∨ Term.Clashes x r b := by
      constructor
      · intro h
        cases h with
        | left h => exact .inl h
        | right h => exact .inr h
      · rintro (h | h)
        · exact .left h
        · exact .right h
    simp only [Term.subst_binary, Term.occursFree, Note.occursFree_written, Form.occursFree,
      Bool.false_or, Bool.or_eq_true, ha, hb, hclash, FreeAfter]
    grind
  | .mk note (.app f args) => by
    have hf := Term.occursFree_subst x r y f
    have hargs := occursFreeList_subst x r y args
    have hclash : Term.Clashes x r (.mk note (.app f args))
        ↔ Term.Clashes x r f ∨ ∃ a ∈ args, Term.Clashes x r a := by
      constructor
      · intro h
        cases h with
        | function h => exact .inl h
        | argument ha h => exact .inr ⟨_, ha, h⟩
      · rintro (h | ⟨a, ha, h⟩)
        · exact .function h
        · exact .argument ha h
    simp only [Term.subst_app, Term.occursFree, Note.occursFree_written, Form.occursFree,
      Bool.false_or, Bool.or_eq_true, hf, hargs, hclash, FreeAfter]
    grind
  | .mk note (.list xs) => by
    have hxs := occursFreeList_subst x r y xs
    have hclash : Term.Clashes x r (.mk note (.list xs)) ↔ ∃ a ∈ xs, Term.Clashes x r a :=
      ⟨fun | .element ha h => ⟨_, ha, h⟩, fun ⟨_, ha, h⟩ => .element ha h⟩
    simp only [Term.subst_list, Term.occursFree, Note.occursFree_written, Form.occursFree,
      Bool.false_or, hxs, hclash]
  | .mk note (.bind k t) => by
    have ht := Tele.occursFree_subst x r y t
    have hclash : Term.Clashes x r (.mk note (.bind k t)) ↔ Tele.Clashes x r t :=
      ⟨fun | .bind h => h, .bind⟩
    simp only [Term.subst_bind, Term.occursFree, Note.occursFree_written, Form.occursFree,
      Bool.false_or, ht, hclash]
termination_by t => 2 * t.size
decreasing_by all_goals simp only [Term.size, Form.size]; omega

theorem occursFreeList_subst (x : Var) (r : Written) (y : Var) : ∀ ts : List Written,
    (occursFreeList y (ts.map (·.subst x r)) ↔ FreeAfter x r (fun z => occursFreeList z ts)
      (∃ t ∈ ts, Term.Clashes x r t) y)
  | [] => by simp [occursFreeList, FreeAfter]
  | a :: as => by
    have ha := Term.occursFree_subst x r y a
    have has := occursFreeList_subst x r y as
    simp only [List.map_cons, occursFreeList, Bool.or_eq_true, ha, has, List.mem_cons,
      exists_eq_or_imp, FreeAfter]
    grind
termination_by ts => 2 * sizeList ts + 1
decreasing_by all_goals have := a.one_le_size; simp only [sizeList]; omega

theorem Tele.occursFree_subst (x : Var) (r : Written) (y : Var) {k : Binder} :
    ∀ t : Tele .written k, ((t.subst x r).occursFree y
      ↔ FreeAfter x r (fun z => t.occursFree z) (Tele.Clashes x r t) y)
  | .fields => by
    have hclash : ¬Tele.Clashes x r (.fields : Fields .written) := nofun
    simp [Tele.occursFree, FreeAfter, hclash]
  | .returns m ret => by
    have hret := Term.occursFree_subst x r y ret
    have hclash : Tele.Clashes x r (.returns m ret) ↔ Term.Clashes x r ret :=
      ⟨fun | .returns h => h, .returns⟩
    simp only [Tele.subst_returns, Tele.occursFree, hret, hclash]
  | .runs m ret body => by
    have hret := Term.occursFree_subst x r y ret
    have hbody := occursFreeBody_subst x r y body
    have hclash : Tele.Clashes x r (.runs m ret body)
        ↔ Term.Clashes x r ret ∨ ∃ s ∈ body, Stmt.Clashes x r s := by
      constructor
      · intro h
        cases h with
        | runs h => exact .inl h
        | body hs h => exact .inr ⟨_, hs, h⟩
      · rintro (h | ⟨s, hs, h⟩)
        · exact .runs h
        · exact .body hs h
    simp only [Tele.subst_runs, Tele.occursFree, Bool.or_eq_true, hret, hbody, hclash, FreeAfter]
    grind
  | .arg mark qty ty none rest => by
    have hty := Term.occursFree_subst x r y ty
    have hrest := Tele.occursFree_subst x r y rest
    have hclash : Tele.Clashes x r (.arg mark qty ty none rest)
        ↔ Term.Clashes x r ty ∨ Tele.Clashes x r rest := by
      constructor
      · intro h
        cases h with
        | type h => exact .inl h
        | kept _ _ h => exact .inr h
      · rintro (h | h)
        · exact .type h
        · exact .kept nofun nofun h
    simp only [Tele.subst_arg_none, Tele.occursFree, Bool.or_eq_true, Bool.and_eq_true,
      decide_eq_true_eq, hty, hrest, hclash]
    exact freeAfter_kept nofun nofun
  | .arg mark qty ty (some v) rest => by
    have hty := Term.occursFree_subst x r y ty
    rw [Tele.subst_arg_some]
    by_cases hx : v = x
    · -- the argument ends the substitution
      subst hx
      have hclash : Tele.Clashes v r (.arg mark qty ty (some v) rest) ↔ Term.Clashes v r ty := by
        constructor
        · intro h
          cases h with
          | type h => exact h
          | kept h => exact absurd rfl h
          | here h => exact absurd rfl h
          | renamed h => exact absurd rfl h
        · exact .type
      simp only [if_true, Tele.occursFree, Bool.or_eq_true, Bool.and_eq_true, decide_eq_true_eq,
        hty, hclash, FreeAfter]
      grind
    · rw [if_neg hx]
      by_cases hr : r.occursFree v
      · -- the argument would capture, so that its scope is renamed before the substitution
        rw [if_pos hr]
        have hrest := Tele.occursFree_subst x r y (rest.refresh v r.maxIndex).2
        have hclash : Tele.Clashes x r (.arg mark qty ty (some v) rest) ↔ Term.Clashes x r ty ∨
            (rest.occursFree v ∧ rest.fresh v r.maxIndex = x) ∨
            Tele.Clashes x r (rest.refresh v r.maxIndex).2 := by
          constructor
          · intro h
            cases h with
            | type h => exact .inl h
            | kept _ h => exact absurd hr (h v rfl)
            | here _ _ hv h => exact .inr (.inl ⟨hv, h⟩)
            | renamed _ _ h => exact .inr (.inr h)
          · rintro (h | ⟨hv, h⟩ | h)
            · exact .type h
            · exact .here hx hr hv h
            · exact .renamed hx hr h
        simp only [Tele.occursFree, Bool.or_eq_true, Bool.and_eq_true, decide_eq_true_eq, hty,
          hrest, hclash]
        -- the index chosen is above those of the scope and of `r`, but may be that of `x`
        refine freeAfter_renamed hx ?_ ?_ fun z => ?_
        · intro h
          exact absurd (rest.index_le_maxIndex h) (Nat.not_le.mpr (rest.maxIndex_lt_fresh v _))
        · intro h
          exact absurd (r.index_le_maxIndex h) (Nat.not_le.mpr (rest.floor_lt_fresh v _))
        · rw [Tele.refresh_eq]
          exact Tele.occursFree_rename rest (rest.maxIndex_lt_fresh v _)
      · rw [if_neg hr]
        have hrest := Tele.occursFree_subst x r y rest
        have hclash : Tele.Clashes x r (.arg mark qty ty (some v) rest)
            ↔ Term.Clashes x r ty ∨ Tele.Clashes x r rest := by
          constructor
          · intro h
            cases h with
            | type h => exact .inl h
            | kept _ _ h => exact .inr h
            | here _ h => exact absurd h hr
            | renamed _ h => exact absurd h hr
          · rintro (h | h)
            · exact .type h
            · exact .kept (by simpa using hx) (by simpa using hr) h
        simp only [Tele.occursFree, Bool.or_eq_true, Bool.and_eq_true, decide_eq_true_eq, hty,
          hrest, hclash]
        exact freeAfter_kept (by simpa using hx) (by simpa using hr)
termination_by t => 2 * t.size
decreasing_by all_goals simp only [Tele.size, Tele.size_refresh]; omega

theorem Stmt.occursFree_subst (x : Var) (r : Written) (y : Var) : ∀ s : Stmt .written,
    ((s.subst x r).occursFree y
      ↔ FreeAfter x r (fun z => s.occursFree z) (Stmt.Clashes x r s) y)
  | .call mark a => by
    have ha := Term.occursFree_subst x r y a
    have hclash : Stmt.Clashes x r (.call mark a) ↔ Term.Clashes x r a :=
      ⟨fun | .call h => h, .call⟩
    simp only [Stmt.subst_call, Stmt.occursFree, ha, hclash]
  | .ret mark a => by
    have ha := Term.occursFree_subst x r y a
    have hclash : Stmt.Clashes x r (.ret mark a) ↔ Term.Clashes x r a :=
      ⟨fun | .ret h => h, .ret⟩
    simp only [Stmt.subst_ret, Stmt.occursFree, ha, hclash]
  | .impossibleBy mark a => by
    have ha := Term.occursFree_subst x r y a
    have hclash : Stmt.Clashes x r (.impossibleBy mark a) ↔ Term.Clashes x r a :=
      ⟨fun | .impossibleBy h => h, .impossibleBy⟩
    simp only [Stmt.subst_impossibleBy, Stmt.occursFree, ha, hclash]
  | .retUnit mark => by
    have hclash : ¬Stmt.Clashes x r (.retUnit mark) := nofun
    simp [Stmt.occursFree, FreeAfter, hclash]
  | .impossible mark => by
    have hclash : ¬Stmt.Clashes x r (.impossible mark) := nofun
    simp [Stmt.occursFree, FreeAfter, hclash]
  | .ifThen mark cond yes => by
    have hcond := Term.occursFree_subst x r y cond
    have hyes := occursFreeBody_subst x r y yes
    have hclash : Stmt.Clashes x r (.ifThen mark cond yes)
        ↔ Term.Clashes x r cond ∨ ∃ s ∈ yes, Stmt.Clashes x r s := by
      constructor
      · intro h
        cases h with
        | ifThen h => exact .inl h
        | ifThenYes hs h => exact .inr ⟨_, hs, h⟩
      · rintro (h | ⟨s, hs, h⟩)
        · exact .ifThen h
        · exact .ifThenYes hs h
    simp only [Stmt.subst_ifThen, Stmt.occursFree, Bool.or_eq_true, hcond, hyes, hclash,
      FreeAfter]
    grind
  | .ifElse mark cond yes no => by
    have hcond := Term.occursFree_subst x r y cond
    have hyes := occursFreeBody_subst x r y yes
    have hno := occursFreeBody_subst x r y no
    have hclash : Stmt.Clashes x r (.ifElse mark cond yes no) ↔ Term.Clashes x r cond ∨
        (∃ s ∈ yes, Stmt.Clashes x r s) ∨ ∃ s ∈ no, Stmt.Clashes x r s := by
      constructor
      · intro h
        cases h with
        | ifElse h => exact .inl h
        | ifElseYes hs h => exact .inr (.inl ⟨_, hs, h⟩)
        | ifElseNo hs h => exact .inr (.inr ⟨_, hs, h⟩)
      · rintro (h | ⟨s, hs, h⟩ | ⟨s, hs, h⟩)
        · exact .ifElse h
        · exact .ifElseYes hs h
        · exact .ifElseNo hs h
    simp only [Stmt.subst_ifElse, Stmt.occursFree, Bool.or_eq_true, hcond, hyes, hno, hclash,
      FreeAfter]
    grind
termination_by s => 2 * s.size
decreasing_by all_goals simp only [Stmt.size]; omega

theorem occursFreeBody_subst (x : Var) (r : Written) (y : Var) : ∀ b : List (Stmt .written),
    (occursFreeBody y (b.map (·.subst x r)) ↔ FreeAfter x r (fun z => occursFreeBody z b)
      (∃ s ∈ b, Stmt.Clashes x r s) y)
  | [] => by simp [occursFreeBody, FreeAfter]
  | s :: rest => by
    have hs := Stmt.occursFree_subst x r y s
    have hrest := occursFreeBody_subst x r y rest
    simp only [List.map_cons, occursFreeBody, Bool.or_eq_true, hs, hrest, List.mem_cons,
      exists_eq_or_imp, FreeAfter]
    grind
termination_by b => 2 * sizeBody b + 1
decreasing_by all_goals have := s.one_le_size; simp only [sizeBody]; omega

end

/-! ## When substitution is hygienic -/

mutual

/-- A clash is about a variable whose index is above those of the replacement. -/
theorem Term.Clashes.maxIndex_lt {x : Var} {r : Written} :
    ∀ {t : Written}, Term.Clashes x r t → r.maxIndex < x.index
  | _, .unary h | _, .left h | _, .right h | _, .function h | _, .argument _ h | _, .element _ h =>
    h.maxIndex_lt
  | _, .bind h => h.maxIndex_lt

theorem Tele.Clashes.maxIndex_lt {x : Var} {r : Written} :
    ∀ {k : Binder} {t : Tele .written k}, Tele.Clashes x r t → r.maxIndex < x.index
  | _, _, .returns h | _, _, .runs h | _, _, .type h => h.maxIndex_lt
  | _, _, .body _ h => h.maxIndex_lt
  | _, _, .kept _ _ h | _, _, .renamed _ _ h => h.maxIndex_lt
  | _, _, .here _ _ _ h => h ▸ Tele.floor_lt_fresh _ _ _

theorem Stmt.Clashes.maxIndex_lt {x : Var} {r : Written} :
    ∀ {s : Stmt .written}, Stmt.Clashes x r s → r.maxIndex < x.index
  | _, .call h | _, .ret h | _, .impossibleBy h | _, .ifThen h | _, .ifElse h => h.maxIndex_lt
  | _, .ifThenYes _ h | _, .ifElseYes _ h | _, .ifElseNo _ h => h.maxIndex_lt

end

/-- Substitution neither captures nor leaks a variable, unless a binder is renamed to the variable
that is replaced. Even then nothing shows if that variable occurs free anyway, or if all variables
of the replacement do. A clash is impossible if the index of the variable does not exceed those of
the replacement. -/
theorem free_variables_of_subst (e r : Written) (x : Var) :
    ((∀ y, (e.subst x r).occursFree y
        ↔ (y ≠ x ∧ e.occursFree y) ∨ (e.occursFree x ∧ r.occursFree y))
      ↔ ¬Term.Clashes x r e ∨ e.occursFree x ∨ ∀ y, r.occursFree y → e.occursFree y) ∧
    (x.index ≤ r.maxIndex → ¬Term.Clashes x r e) := by
  have hfree := fun y => Term.occursFree_subst x r y e
  refine ⟨⟨fun h => ?_, fun h y => ?_⟩, fun h hclash => ?_⟩
  · -- a clash puts all variables of the replacement into the term
    by_cases hclash : Term.Clashes x r e
    · refine .inr (Classical.or_iff_not_imp_left.mpr fun hx y hr => ?_)
      rcases (h y).mp ((hfree y).mpr (.inr ⟨.inr hclash, hr⟩)) with ⟨_, he⟩ | ⟨he, _⟩
      · exact he
      · exact absurd he hx
    · exact .inl hclash
  · rw [hfree y, FreeAfter]
    rcases h with h | h | h
    · simp only [h, or_false]
    · simp only [h, true_or]
    · -- the variables of the replacement occur free before and after
      have hy : Term.Clashes x r e → r.occursFree y → y ≠ x := by
        rintro hclash hr rfl
        exact absurd (r.index_le_maxIndex hr) (Nat.not_le.mpr hclash.maxIndex_lt)
      have := h y
      grind
  · exact absurd hclash.maxIndex_lt (Nat.not_lt.mpr h)

/-- In `(u64 y) -> array_t(u64, y)` the variable `y:1` does not occur. Putting `y` for it renames
the argument to `y:1`, and then replaces what the argument binds by the `y` from outside. -/
theorem subst_replaces_bound_variable :
    let loc : Note .written Written := .place {} rfl
    let y : Var := { name := "y" }
    let u64 : Written := .mk loc (.atom (.int .u64))
    let array : Written := .mk loc (.binary .arrayT u64 (.mk loc (.var y)))
    let e : Written := .mk loc (.bind .pi (.arg {} .many u64 (some y) (.returns .no array)))
    let x : Var := { name := "y", index := 1 }
    let r : Written := .mk loc (.var y)
    ¬((e.subst x r).occursFree y
        ↔ (y ≠ x ∧ e.occursFree y) ∨ (e.occursFree x ∧ r.occursFree y)) := by
  decide

end DependentCore
