import DependentCore.Syntax.Equality
import DependentCore.Proofs.Binding.FreeVariables
import DependentCore.Proofs.Binding.Nameless
import DependentCore.Proofs.Binding.Words

/-!
# Substitution without bound names

In a nameless form nothing can be captured: the free occurrences of a variable are replaced where
they stand, under any number of binders. `Term.subst` works on names, stops at binders of the
variable and renames those that would capture. Here the two are compared.

* `Nameless.replace`: put a nameless form for the free occurrences of a variable,
* `Term.nameless_congr`: a nameless form depends on what the free variables refer to only,
* `Term.nameless_rename`: renaming a variable along with its binder keeps the nameless form,
* `Term.nameless_subst`: substitution is replacement, as long as no binder is renamed to the
  variable that is replaced. A binder keeps its name and gets an index above those of the
  replacement, so it is enough that one of the two tells it from that variable.
-/

namespace DependentCore

variable {p : Phase}

/-! ## Replacement -/

mutual

/-- Put `r` for the free occurrences of `x`. -/
def Nameless.replace (t : Nameless) (x : Var) (r : Nameless) : Nameless :=
  match t with
  | .atom a => .atom a
  | .var ref => if ref = .free x then r else .var ref
  | .unary op a => .unary op (a.replace x r)
  | .binary op a b => .binary op (a.replace x r) (b.replace x r)
  | .app f args => .app (f.replace x r) (replaceList args x r)
  | .list xs => .list (replaceList xs x r)
  | .bind t => .bind (t.replace x r)
termination_by structural t

/-- Replace in a telescope. -/
def NamelessTele.replace (t : NamelessTele) (x : Var) (r : Nameless) : NamelessTele :=
  match t with
  | .fields => .fields
  | .returns m ret => .returns m (ret.replace x r)
  | .runs m ret body => .runs m (ret.replace x r) (replaceBody body x r)
  | .arg qty ty rest => .arg qty (ty.replace x r) (rest.replace x r)
termination_by structural t

/-- Replace in a statement. -/
def NamelessStmt.replace (s : NamelessStmt) (x : Var) (r : Nameless) : NamelessStmt :=
  match s with
  | .call a => .call (a.replace x r)
  | .ifThen cond yes => .ifThen (cond.replace x r) (replaceBody yes x r)
  | .ifElse cond yes no => .ifElse (cond.replace x r) (replaceBody yes x r) (replaceBody no x r)
  | .ret a => .ret (a.replace x r)
  | .retUnit => .retUnit
  | .impossible => .impossible
  | .impossibleBy a => .impossibleBy (a.replace x r)
termination_by structural s

/-- Replace in the terms of a list. -/
def replaceList (ts : List Nameless) (x : Var) (r : Nameless) : List Nameless :=
  match ts with
  | [] => []
  | a :: as => a.replace x r :: replaceList as x r
termination_by structural ts

/-- Replace in the statements of a body. -/
def replaceBody (b : List NamelessStmt) (x : Var) (r : Nameless) : List NamelessStmt :=
  match b with
  | [] => []
  | s :: rest => s.replace x r :: replaceBody rest x r
termination_by structural b

end

mutual

/-- A variable that is bound around a term does not occur free in its nameless form. -/
theorem Term.replace_of_bound {x : Var} {r : Nameless} : ∀ {bound : List (Option Var)},
    some x ∈ bound → ∀ t : Term p, (t.nameless bound).replace x r = t.nameless bound
  | _, h, .mk _ f => f.replace_of_bound h

theorem Form.replace_of_bound {x : Var} {r : Nameless} : ∀ {bound : List (Option Var)},
    some x ∈ bound → ∀ f : Form p, (f.nameless bound).replace x r = f.nameless bound
  | _, _, .atom _ => rfl
  | _, h, .var v => by
    refine if_neg fun hv => ?_
    obtain ⟨rfl, hx⟩ := resolve_eq_free.mp hv
    exact hx h
  | _, h, .unary _ a => by simp only [Form.nameless, Nameless.replace, a.replace_of_bound h]
  | _, h, .binary _ a b => by
    simp only [Form.nameless, Nameless.replace, a.replace_of_bound h, b.replace_of_bound h]
  | _, h, .app f args => by
    simp only [Form.nameless, Nameless.replace, f.replace_of_bound h, replaceList_of_bound h args]
  | _, h, .list xs => by simp only [Form.nameless, Nameless.replace, replaceList_of_bound h xs]
  | _, h, .bind _ t => by simp only [Form.nameless, Nameless.replace, t.replace_of_bound h]

theorem Tele.replace_of_bound {x : Var} {r : Nameless} {k : Binder} :
    ∀ {bound : List (Option Var)}, some x ∈ bound →
      ∀ t : Tele p k, (t.nameless bound).replace x r = t.nameless bound
  | _, _, .fields => rfl
  | _, h, .returns _ ret => by
    simp only [Tele.nameless, NamelessTele.replace, ret.replace_of_bound h]
  | _, h, .runs _ ret body => by
    simp only [Tele.nameless, NamelessTele.replace, ret.replace_of_bound h,
      replaceBody_of_bound h body]
  | _, h, .arg _ _ ty v rest => by
    simp only [Tele.nameless, NamelessTele.replace, ty.replace_of_bound h,
      rest.replace_of_bound (List.mem_cons_of_mem v h)]

theorem Stmt.replace_of_bound {x : Var} {r : Nameless} : ∀ {bound : List (Option Var)},
    some x ∈ bound → ∀ s : Stmt p, (s.nameless bound).replace x r = s.nameless bound
  | _, h, .call _ a | _, h, .ret _ a | _, h, .impossibleBy _ a => by
    simp only [Stmt.nameless, NamelessStmt.replace, a.replace_of_bound h]
  | _, h, .ifThen _ cond yes => by
    simp only [Stmt.nameless, NamelessStmt.replace, cond.replace_of_bound h,
      replaceBody_of_bound h yes]
  | _, h, .ifElse _ cond yes no => by
    simp only [Stmt.nameless, NamelessStmt.replace, cond.replace_of_bound h,
      replaceBody_of_bound h yes, replaceBody_of_bound h no]
  | _, _, .retUnit _ | _, _, .impossible _ => rfl

theorem replaceList_of_bound {x : Var} {r : Nameless} : ∀ {bound : List (Option Var)},
    some x ∈ bound → ∀ ts : List (Term p),
      replaceList (namelessList bound ts) x r = namelessList bound ts
  | _, _, [] => rfl
  | _, h, t :: ts => by
    simp only [namelessList, replaceList, t.replace_of_bound h, replaceList_of_bound h ts]

theorem replaceBody_of_bound {x : Var} {r : Nameless} : ∀ {bound : List (Option Var)},
    some x ∈ bound → ∀ b : List (Stmt p),
      replaceBody (namelessBody bound b) x r = namelessBody bound b
  | _, _, [] => rfl
  | _, h, s :: b => by
    simp only [namelessBody, replaceBody, s.replace_of_bound h, replaceBody_of_bound h b]

end

/-! ## What a nameless form depends on -/

/-- Under one more binder, variables refer to the same as long as those do that the binder does not
bind. -/
theorem resolve_bind {st st' : List (Option Var)} {v : Option Var} {w : Var}
    (h : v ≠ some w → resolve st w = resolve st' w) :
    resolve (v :: st) w = resolve (v :: st') w := by
  by_cases hv : v = some w
  · simp [resolve, hv]
  · simp [resolve, hv, h hv]

mutual

/-- Binders that are the same for the free variables of a term give the same nameless form. -/
theorem Term.nameless_congr : ∀ {st st' : List (Option Var)} (t : Term p),
    (∀ w, t.occursFree w → resolve st w = resolve st' w) → t.nameless st = t.nameless st'
  | _, _, .mk _ f, h => f.nameless_congr fun w hw => h w (Bool.or_eq_true_iff.mpr (.inr hw))

theorem Form.nameless_congr : ∀ {st st' : List (Option Var)} (f : Form p),
    (∀ w, f.occursFree w → resolve st w = resolve st' w) → f.nameless st = f.nameless st'
  | _, _, .atom _, _ => rfl
  | _, _, .var v, h => congrArg Nameless.var (h v (decide_eq_true rfl))
  | _, _, .unary op a, h => congrArg (Nameless.unary op) (a.nameless_congr h)
  | _, _, .binary op a b, h => by
    have ha := a.nameless_congr fun w hw => h w (Bool.or_eq_true_iff.mpr (.inl hw))
    have hb := b.nameless_congr fun w hw => h w (Bool.or_eq_true_iff.mpr (.inr hw))
    simp only [Form.nameless, ha, hb]
  | _, _, .app f args, h => by
    have hf := f.nameless_congr fun w hw => h w (Bool.or_eq_true_iff.mpr (.inl hw))
    have hargs := namelessList_congr args fun w hw => h w (Bool.or_eq_true_iff.mpr (.inr hw))
    simp only [Form.nameless, hf, hargs]
  | _, _, .list xs, h => congrArg Nameless.list (namelessList_congr xs h)
  | _, _, .bind _ t, h => congrArg Nameless.bind (t.nameless_congr h)

theorem Tele.nameless_congr {k : Binder} : ∀ {st st' : List (Option Var)} (t : Tele p k),
    (∀ w, t.occursFree w → resolve st w = resolve st' w) → t.nameless st = t.nameless st'
  | _, _, .fields, _ => rfl
  | _, _, .returns m ret, h => congrArg (NamelessTele.returns m) (ret.nameless_congr h)
  | _, _, .runs _ ret body, h => by
    have hret := ret.nameless_congr fun w hw => h w (Bool.or_eq_true_iff.mpr (.inl hw))
    have hbody := namelessBody_congr body fun w hw => h w (Bool.or_eq_true_iff.mpr (.inr hw))
    simp only [Tele.nameless, hret, hbody]
  | _, _, .arg _ _ ty v rest, h => by
    simp only [Tele.occursFree, Bool.or_eq_true, Bool.and_eq_true, decide_eq_true_eq] at h
    have hty := ty.nameless_congr fun w hw => h w (.inl hw)
    have hrest := rest.nameless_congr fun w hw => resolve_bind fun hv => h w (.inr ⟨hv, hw⟩)
    simp only [Tele.nameless, hty, hrest]

theorem Stmt.nameless_congr : ∀ {st st' : List (Option Var)} (s : Stmt p),
    (∀ w, s.occursFree w → resolve st w = resolve st' w) → s.nameless st = s.nameless st'
  | _, _, .call _ a, h | _, _, .ret _ a, h | _, _, .impossibleBy _ a, h => by
    simp only [Stmt.nameless, a.nameless_congr h]
  | _, _, .ifThen _ cond yes, h => by
    have hcond := cond.nameless_congr fun w hw => h w (Bool.or_eq_true_iff.mpr (.inl hw))
    have hyes := namelessBody_congr yes fun w hw => h w (Bool.or_eq_true_iff.mpr (.inr hw))
    simp only [Stmt.nameless, hcond, hyes]
  | _, _, .ifElse _ cond yes no, h => by
    simp only [Stmt.occursFree, Bool.or_eq_true] at h
    have hcond := cond.nameless_congr fun w hw => h w (.inl (.inl hw))
    have hyes := namelessBody_congr yes fun w hw => h w (.inl (.inr hw))
    have hno := namelessBody_congr no fun w hw => h w (.inr hw)
    simp only [Stmt.nameless, hcond, hyes, hno]
  | _, _, .retUnit _, _ | _, _, .impossible _, _ => rfl

theorem namelessList_congr : ∀ {st st' : List (Option Var)} (ts : List (Term p)),
    (∀ w, occursFreeList w ts → resolve st w = resolve st' w) →
      namelessList st ts = namelessList st' ts
  | _, _, [], _ => rfl
  | _, _, t :: ts, h => by
    have ht := t.nameless_congr fun w hw => h w (Bool.or_eq_true_iff.mpr (.inl hw))
    have hts := namelessList_congr ts fun w hw => h w (Bool.or_eq_true_iff.mpr (.inr hw))
    simp only [namelessList, ht, hts]

theorem namelessBody_congr : ∀ {st st' : List (Option Var)} (b : List (Stmt p)),
    (∀ w, occursFreeBody w b → resolve st w = resolve st' w) →
      namelessBody st b = namelessBody st' b
  | _, _, [], _ => rfl
  | _, _, s :: b, h => by
    have hs := s.nameless_congr fun w hw => h w (Bool.or_eq_true_iff.mpr (.inl hw))
    have hb := namelessBody_congr b fun w hw => h w (Bool.or_eq_true_iff.mpr (.inr hw))
    simp only [namelessBody, hs, hb]

end

/-! ## Renaming -/

/-- Under one more binder that is neither the old nor the new variable, variables refer to the same
after renaming as long as those do that the binder does not bind. -/
theorem resolve_bind_rename {st st' : List (Option Var)} {v : Option Var} {x z w : Var}
    (hx : v ≠ some x) (hz : v ≠ some z)
    (h : v ≠ some w → resolve st' (if w = x then z else w) = resolve st w) :
    resolve (v :: st') (if w = x then z else w) = resolve (v :: st) w := by
  by_cases hw : w = x
  · subst hw
    have hfree : resolve st' z = resolve st w := by simpa using h hx
    simp [resolve, hx, hz, hfree]
  · simp only [if_neg hw] at h ⊢
    exact resolve_bind h

mutual

/-- If a variable is renamed to one that is new to a term, and so is its binder, the nameless form
stays the same. -/
theorem Term.nameless_rename {x z : Var} : ∀ {st st' : List (Option Var)} (t : Term p),
    t.maxIndex < z.index →
    (∀ w, t.occursFree w → resolve st' (if w = x then z else w) = resolve st w) →
      (t.rename x z).nameless st' = t.nameless st
  | _, _, .mk note f, hz, h => by
    rw [Term.maxIndex] at hz
    exact f.nameless_rename (by omega) fun w hw => h w (Bool.or_eq_true_iff.mpr (.inr hw))

theorem Form.nameless_rename {x z : Var} : ∀ {st st' : List (Option Var)} (f : Form p),
    f.maxIndex < z.index →
    (∀ w, f.occursFree w → resolve st' (if w = x then z else w) = resolve st w) →
      (f.rename x z).nameless st' = f.nameless st
  | _, _, .atom _, _, _ => rfl
  | _, _, .var v, _, h => congrArg Nameless.var (h v (decide_eq_true rfl))
  | _, _, .unary op a, hz, h => congrArg (Nameless.unary op) (a.nameless_rename hz h)
  | _, _, .binary _ a b, hz, h => by
    rw [Form.maxIndex] at hz
    have ha := a.nameless_rename (by omega) fun w hw => h w (Bool.or_eq_true_iff.mpr (.inl hw))
    have hb := b.nameless_rename (by omega) fun w hw => h w (Bool.or_eq_true_iff.mpr (.inr hw))
    simp only [Form.rename, Form.nameless, ha, hb]
  | _, _, .app f args, hz, h => by
    rw [Form.maxIndex] at hz
    have hf := f.nameless_rename (by omega) fun w hw => h w (Bool.or_eq_true_iff.mpr (.inl hw))
    have hargs := namelessList_rename args (by omega) fun w hw =>
      h w (Bool.or_eq_true_iff.mpr (.inr hw))
    simp only [Form.rename, Form.nameless, hf, hargs]
  | _, _, .list xs, hz, h => congrArg Nameless.list (namelessList_rename xs hz h)
  | _, _, .bind _ t, hz, h => congrArg Nameless.bind (t.nameless_rename hz h)

theorem Tele.nameless_rename {x z : Var} {k : Binder} :
    ∀ {st st' : List (Option Var)} (t : Tele p k), t.maxIndex < z.index →
    (∀ w, t.occursFree w → resolve st' (if w = x then z else w) = resolve st w) →
      (t.rename x z).nameless st' = t.nameless st
  | _, _, .fields, _, _ => rfl
  | _, _, .returns m ret, hz, h => congrArg (NamelessTele.returns m) (ret.nameless_rename hz h)
  | _, _, .runs _ ret body, hz, h => by
    rw [Tele.maxIndex] at hz
    have hret := ret.nameless_rename (by omega) fun w hw => h w (Bool.or_eq_true_iff.mpr (.inl hw))
    have hbody := namelessBody_rename body (by omega) fun w hw =>
      h w (Bool.or_eq_true_iff.mpr (.inr hw))
    simp only [Tele.rename, Tele.nameless, hret, hbody]
  | st, st', .arg _ _ ty v rest, hz, h => by
    have hty_lt : ty.maxIndex < z.index := by cases v <;> rw [Tele.maxIndex] at hz <;> omega
    have hrest_lt : rest.maxIndex < z.index := by cases v <;> rw [Tele.maxIndex] at hz <;> omega
    have hvz : v ≠ some z := by
      rintro rfl
      rw [Tele.maxIndex] at hz
      omega
    simp only [Tele.occursFree, Bool.or_eq_true, Bool.and_eq_true, decide_eq_true_eq] at h
    have hty := ty.nameless_rename hty_lt fun w hw => h w (.inl hw)
    by_cases hvx : v = some x
    · -- the argument binds `x` again, so that the rest is not renamed
      have hrest : rest.nameless (v :: st') = rest.nameless (v :: st) := by
        refine rest.nameless_congr fun w hw => resolve_bind fun hv => ?_
        have hwx : w ≠ x := fun e => hv (e ▸ hvx)
        simpa [hwx] using h w (.inr ⟨hv, hw⟩)
      simp only [Tele.rename, Tele.nameless, if_pos hvx, hty, hrest]
    · have hrest : (rest.rename x z).nameless (v :: st') = rest.nameless (v :: st) :=
        rest.nameless_rename hrest_lt fun w hw =>
          resolve_bind_rename hvx hvz fun hv => h w (.inr ⟨hv, hw⟩)
      simp only [Tele.rename, Tele.nameless, if_neg hvx, hty, hrest]

theorem Stmt.nameless_rename {x z : Var} : ∀ {st st' : List (Option Var)} (s : Stmt p),
    s.maxIndex < z.index →
    (∀ w, s.occursFree w → resolve st' (if w = x then z else w) = resolve st w) →
      (s.rename x z).nameless st' = s.nameless st
  | _, _, .call _ a, hz, h | _, _, .ret _ a, hz, h | _, _, .impossibleBy _ a, hz, h => by
    simp only [Stmt.rename, Stmt.nameless, a.nameless_rename hz h]
  | _, _, .ifThen _ cond yes, hz, h => by
    rw [Stmt.maxIndex] at hz
    have hcond := cond.nameless_rename (by omega) fun w hw =>
      h w (Bool.or_eq_true_iff.mpr (.inl hw))
    have hyes := namelessBody_rename yes (by omega) fun w hw =>
      h w (Bool.or_eq_true_iff.mpr (.inr hw))
    simp only [Stmt.rename, Stmt.nameless, hcond, hyes]
  | _, _, .ifElse _ cond yes no, hz, h => by
    rw [Stmt.maxIndex] at hz
    simp only [Stmt.occursFree, Bool.or_eq_true] at h
    have hcond := cond.nameless_rename (by omega) fun w hw => h w (.inl (.inl hw))
    have hyes := namelessBody_rename yes (by omega) fun w hw => h w (.inl (.inr hw))
    have hno := namelessBody_rename no (by omega) fun w hw => h w (.inr hw)
    simp only [Stmt.rename, Stmt.nameless, hcond, hyes, hno]
  | _, _, .retUnit _, _, _ | _, _, .impossible _, _, _ => rfl

theorem namelessList_rename {x z : Var} : ∀ {st st' : List (Option Var)} (ts : List (Term p)),
    maxIndexList ts < z.index →
    (∀ w, occursFreeList w ts → resolve st' (if w = x then z else w) = resolve st w) →
      namelessList st' (renameList x z ts) = namelessList st ts
  | _, _, [], _, _ => rfl
  | _, _, t :: ts, hz, h => by
    rw [maxIndexList] at hz
    have ht := t.nameless_rename (by omega) fun w hw => h w (Bool.or_eq_true_iff.mpr (.inl hw))
    have hts := namelessList_rename ts (by omega) fun w hw =>
      h w (Bool.or_eq_true_iff.mpr (.inr hw))
    simp only [renameList, namelessList, ht, hts]

theorem namelessBody_rename {x z : Var} : ∀ {st st' : List (Option Var)} (b : List (Stmt p)),
    maxIndexBody b < z.index →
    (∀ w, occursFreeBody w b → resolve st' (if w = x then z else w) = resolve st w) →
      namelessBody st' (renameBody x z b) = namelessBody st b
  | _, _, [], _, _ => rfl
  | _, _, s :: b, hz, h => by
    rw [maxIndexBody] at hz
    have hs := s.nameless_rename (by omega) fun w hw => h w (Bool.or_eq_true_iff.mpr (.inl hw))
    have hb := namelessBody_rename b (by omega) fun w hw =>
      h w (Bool.or_eq_true_iff.mpr (.inr hw))
    simp only [renameBody, namelessBody, hs, hb]

end

/-- A binder that is renamed to a new variable, along with its scope, leaves the nameless form as it
is. -/
theorem Tele.nameless_rename_binder {k : Binder} {v z : Var} (t : Tele p k)
    (hz : t.maxIndex < z.index) (bound : List (Option Var)) :
    (t.rename v z).nameless (some z :: bound) = t.nameless (some v :: bound) := by
  refine t.nameless_rename hz fun w hw => ?_
  by_cases hwv : w = v
  · simp [hwv, resolve]
  · have hold : z ≠ w := by
      rintro rfl
      exact absurd (t.index_le_maxIndex hw) (Nat.not_le.mpr hz)
    simp [hwv, Ne.symm hwv, resolve, hold]

/-- An argument that is renamed, along with its scope, leaves the nameless form as it is. -/
theorem Tele.nameless_refresh {k : Binder} (v : Var) (floor : Nat) (t : Tele p k)
    (bound : List (Option Var)) :
    (t.refresh v floor).2.nameless (some (t.refresh v floor).1 :: bound)
      = t.nameless (some v :: bound) := by
  rw [Tele.refresh_eq]
  exact t.nameless_rename_binder (t.maxIndex_lt_fresh v floor) bound

mutual

/-- Renaming keeps all binders. -/
theorem Term.boundVars_rename (x z : Var) : ∀ t : Term p, (t.rename x z).boundVars = t.boundVars
  | .mk _ f => f.boundVars_rename x z

theorem Form.boundVars_rename (x z : Var) : ∀ f : Form p, (f.rename x z).boundVars = f.boundVars
  | .atom _ | .var _ => rfl
  | .unary _ a => a.boundVars_rename x z
  | .binary _ a b => by
    simp only [Form.rename, Form.boundVars, a.boundVars_rename x z, b.boundVars_rename x z]
  | .app f args => by
    simp only [Form.rename, Form.boundVars, f.boundVars_rename x z, boundVarsList_rename x z args]
  | .list xs => boundVarsList_rename x z xs
  | .bind _ t => t.boundVars_rename x z

theorem Tele.boundVars_rename {k : Binder} (x z : Var) :
    ∀ t : Tele p k, (t.rename x z).boundVars = t.boundVars
  | .fields => rfl
  | .returns _ ret => ret.boundVars_rename x z
  | .runs _ ret body => by
    simp only [Tele.rename, Tele.boundVars, ret.boundVars_rename x z,
      boundVarsBody_rename x z body]
  | .arg _ _ ty v rest => by
    simp only [Tele.rename, Tele.boundVars, ty.boundVars_rename x z]
    split
    · rfl
    · rw [rest.boundVars_rename x z]

theorem Stmt.boundVars_rename (x z : Var) : ∀ s : Stmt p, (s.rename x z).boundVars = s.boundVars
  | .call _ a | .ret _ a | .impossibleBy _ a => a.boundVars_rename x z
  | .ifThen _ cond yes => by
    simp only [Stmt.rename, Stmt.boundVars, cond.boundVars_rename x z,
      boundVarsBody_rename x z yes]
  | .ifElse _ cond yes no => by
    simp only [Stmt.rename, Stmt.boundVars, cond.boundVars_rename x z,
      boundVarsBody_rename x z yes, boundVarsBody_rename x z no]
  | .retUnit _ | .impossible _ => rfl

theorem boundVarsList_rename (x z : Var) :
    ∀ ts : List (Term p), boundVarsList (renameList x z ts) = boundVarsList ts
  | [] => rfl
  | t :: ts => by
    simp only [renameList, boundVarsList, t.boundVars_rename x z, boundVarsList_rename x z ts]

theorem boundVarsBody_rename (x z : Var) :
    ∀ b : List (Stmt p), boundVarsBody (renameBody x z b) = boundVarsBody b
  | [] => rfl
  | s :: b => by
    simp only [renameBody, boundVarsBody, s.boundVars_rename x z, boundVarsBody_rename x z b]

end

/-! ## Substitution -/

/-- The binders around a term neither bind `x` nor capture a variable of `r`. -/
structure Apart (x : Var) (r : Term p) (bound : List (Option Var)) : Prop where
  free : some x ∉ bound
  noCapture : ∀ w, r.occursFree w → some w ∉ bound

/-- Binders of these variables are never renamed to `x` when `r` is put for it: names stay, and the
new index is above those of `r`. -/
def NotRenamedTo (x : Var) (r : Term p) (vars : List (Option Var)) : Prop :=
  x.index ≤ r.maxIndex ∨ ∀ v, some v ∈ vars → v.name ≠ x.name

section
variable {x : Var} {r : Term p} {bound vars vars' : List (Option Var)}

theorem Apart.bind (h : Apart x r bound) {v : Option Var} (hx : v ≠ some x)
    (hr : ∀ w, v = some w → ¬r.occursFree w) : Apart x r (v :: bound) where
  free := by simpa [Ne.symm hx] using h.free
  noCapture w hw := by
    rw [List.mem_cons, not_or]
    exact ⟨fun hv => hr w hv.symm hw, h.noCapture w hw⟩

/-- So the replacement means the same under these binders as outside of them. -/
theorem Apart.nameless (h : Apart x r bound) : r.nameless bound = r.nameless [] :=
  r.nameless_congr fun w hw => resolve_eq_free.mpr ⟨rfl, h.noCapture w hw⟩

theorem NotRenamedTo.mono (h : NotRenamedTo x r vars) (hsub : vars' ⊆ vars) :
    NotRenamedTo x r vars' :=
  h.imp_right fun hv v hmem => hv v (hsub hmem)

theorem NotRenamedTo.fresh_ne {v : Var} (h : NotRenamedTo x r vars) (hv : some v ∈ vars)
    {k : Binder} (t : Tele p k) : t.fresh v r.maxIndex ≠ x := by
  rintro rfl
  rcases h with h | h
  · exact absurd (t.floor_lt_fresh v r.maxIndex) (Nat.not_lt.mpr h)
  · exact h v hv rfl

mutual

/-- Substitution in a term is replacement in its nameless form. -/
theorem Term.nameless_subst : ∀ {bound : List (Option Var)} (t : Term p), Apart x r bound →
    NotRenamedTo x r t.boundVars →
      (t.subst x r).nameless bound = (t.nameless bound).replace x (r.nameless [])
  | _, .mk _ (.atom _), _, _ => by
    simp only [Term.subst_atom, Term.nameless, Form.nameless, Nameless.replace]
  | bound, .mk _ (.var v), hb, _ => by
    simp only [Term.subst_var, Term.nameless, Form.nameless, Nameless.replace, resolve_eq_free]
    by_cases hv : v = x
    · subst hv
      rw [if_pos rfl, if_pos ⟨rfl, hb.free⟩, hb.nameless]
    · rw [if_neg hv, if_neg fun h => hv h.1]
      rfl
  | _, .mk _ (.unary _ a), hb, hd => by
    simp only [Term.subst_unary, Term.nameless, Form.nameless, Nameless.replace,
      a.nameless_subst hb hd]
  | _, .mk _ (.binary _ a b), hb, hd => by
    have hleft := a.nameless_subst hb (hd.mono (List.subset_append_left _ _))
    have hright := b.nameless_subst hb (hd.mono (List.subset_append_right _ _))
    simp only [Term.subst_binary, Term.nameless, Form.nameless, Nameless.replace, hleft, hright]
  | _, .mk _ (.app f args), hb, hd => by
    have hf := f.nameless_subst hb (hd.mono (List.subset_append_left _ _))
    have hargs := namelessList_subst args hb (hd.mono (List.subset_append_right _ _))
    simp only [Term.subst_app, Term.nameless, Form.nameless, Nameless.replace, hf, hargs]
  | _, .mk _ (.list xs), hb, hd => by
    simp only [Term.subst_list, Term.nameless, Form.nameless, Nameless.replace,
      namelessList_subst xs hb hd]
  | _, .mk _ (.bind _ t), hb, hd => by
    simp only [Term.subst_bind, Term.nameless, Form.nameless, Nameless.replace,
      t.nameless_subst hb hd]
termination_by _ t => 2 * t.size
decreasing_by all_goals simp only [Term.size, Form.size]; omega

theorem namelessList_subst : ∀ {bound : List (Option Var)} (ts : List (Term p)),
    Apart x r bound → NotRenamedTo x r (boundVarsList ts) →
      namelessList bound (ts.map (·.subst x r))
        = replaceList (namelessList bound ts) x (r.nameless [])
  | _, [], _, _ => rfl
  | _, t :: ts, hb, hd => by
    have ht := t.nameless_subst hb (hd.mono (List.subset_append_left _ _))
    have hts := namelessList_subst ts hb (hd.mono (List.subset_append_right _ _))
    simp only [List.map_cons, namelessList, replaceList, ht, hts]
termination_by _ ts => 2 * sizeList ts + 1
decreasing_by all_goals have := t.one_le_size; simp only [sizeList]; omega

theorem Tele.nameless_subst {k : Binder} : ∀ {bound : List (Option Var)} (t : Tele p k),
    Apart x r bound → NotRenamedTo x r t.boundVars →
      (t.subst x r).nameless bound = (t.nameless bound).replace x (r.nameless [])
  | _, .fields, _, _ => rfl
  | _, .returns _ ret, hb, hd => by
    simp only [Tele.subst_returns, Tele.nameless, NamelessTele.replace, ret.nameless_subst hb hd]
  | _, .runs _ ret body, hb, hd => by
    have hret := ret.nameless_subst hb (hd.mono (List.subset_append_left _ _))
    have hbody := namelessBody_subst body hb (hd.mono (List.subset_append_right _ _))
    simp only [Tele.subst_runs, Tele.nameless, NamelessTele.replace, hret, hbody]
  | _, .arg _ _ ty none rest, hb, hd => by
    have hty := ty.nameless_subst hb (hd.mono (List.subset_append_left _ _))
    have hrest := rest.nameless_subst (hb.bind (v := none) nofun nofun) (hd.mono (by
      simp [Tele.boundVars]))
    simp only [Tele.subst_arg_none, Tele.nameless, NamelessTele.replace, hty, hrest]
  | bound, .arg _ _ ty (some v) rest, hb, hd => by
    have hty := ty.nameless_subst hb (hd.mono (List.subset_append_left _ _))
    have hd_rest : NotRenamedTo x r rest.boundVars := hd.mono (by simp [Tele.boundVars])
    rw [Tele.subst_arg_some]
    by_cases hx : v = x
    · -- the argument binds `x`, which does not occur free below it
      have hrest := rest.replace_of_bound (r := r.nameless []) (List.mem_cons_self (a := some x)
        (l := bound))
      simp only [hx, if_true, Tele.nameless, NamelessTele.replace, hty, hrest]
    · rw [if_neg hx]
      by_cases hr : r.occursFree v
      · -- the argument would capture: it is renamed, to a variable that is new and not `x`
        rw [if_pos hr]
        have hne : rest.fresh v r.maxIndex ≠ x := hd.fresh_ne (by simp [Tele.boundVars]) rest
        have hnew : ¬r.occursFree (rest.fresh v r.maxIndex) := fun h =>
          absurd (r.index_le_maxIndex h) (Nat.not_le.mpr (rest.floor_lt_fresh v _))
        have hrest := (rest.refresh v r.maxIndex).2.nameless_subst
          (hb.bind (v := some (rest.refresh v r.maxIndex).1) (by simpa [Tele.refresh_eq] using hne)
            (by simpa [Tele.refresh_eq] using hnew))
          (by rwa [Tele.refresh_eq, Tele.boundVars_rename])
        simp only [Tele.nameless, NamelessTele.replace, hty, hrest, Tele.nameless_refresh]
      · rw [if_neg hr]
        have hrest := rest.nameless_subst (hb.bind (v := some v) (by simpa using hx)
          (by simpa using hr)) hd_rest
        simp only [Tele.nameless, NamelessTele.replace, hty, hrest]
termination_by _ t => 2 * t.size
decreasing_by all_goals simp only [Tele.size, Tele.size_refresh]; omega

theorem Stmt.nameless_subst : ∀ {bound : List (Option Var)} (s : Stmt p), Apart x r bound →
    NotRenamedTo x r s.boundVars →
      (s.subst x r).nameless bound = (s.nameless bound).replace x (r.nameless [])
  | _, .call _ a, hb, hd => by
    simp only [Stmt.subst_call, Stmt.nameless, NamelessStmt.replace, a.nameless_subst hb hd]
  | _, .ifThen _ cond yes, hb, hd => by
    have hcond := cond.nameless_subst hb (hd.mono (List.subset_append_left _ _))
    have hyes := namelessBody_subst yes hb (hd.mono (List.subset_append_right _ _))
    simp only [Stmt.subst_ifThen, Stmt.nameless, NamelessStmt.replace, hcond, hyes]
  | _, .ifElse _ cond yes no, hb, hd => by
    have hcond := cond.nameless_subst hb (hd.mono (by simp [Stmt.boundVars]))
    have hyes := namelessBody_subst yes hb (hd.mono (by simp [Stmt.boundVars]))
    have hno := namelessBody_subst no hb (hd.mono (by simp [Stmt.boundVars]))
    simp only [Stmt.subst_ifElse, Stmt.nameless, NamelessStmt.replace, hcond, hyes, hno]
  | _, .ret _ a, hb, hd => by
    simp only [Stmt.subst_ret, Stmt.nameless, NamelessStmt.replace, a.nameless_subst hb hd]
  | _, .retUnit _, _, _ | _, .impossible _, _, _ => rfl
  | _, .impossibleBy _ a, hb, hd => by
    simp only [Stmt.subst_impossibleBy, Stmt.nameless, NamelessStmt.replace,
      a.nameless_subst hb hd]
termination_by _ s => 2 * s.size
decreasing_by all_goals simp only [Stmt.size]; omega

theorem namelessBody_subst : ∀ {bound : List (Option Var)} (b : List (Stmt p)),
    Apart x r bound → NotRenamedTo x r (boundVarsBody b) →
      namelessBody bound (b.map (·.subst x r))
        = replaceBody (namelessBody bound b) x (r.nameless [])
  | _, [], _, _ => rfl
  | _, s :: b, hb, hd => by
    have hs := s.nameless_subst hb (hd.mono (List.subset_append_left _ _))
    have hrest := namelessBody_subst b hb (hd.mono (List.subset_append_right _ _))
    simp only [List.map_cons, namelessBody, replaceBody, hs, hrest]
termination_by _ b => 2 * sizeBody b + 1
decreasing_by all_goals have := s.one_le_size; simp only [sizeBody]; omega

end

end

end DependentCore
