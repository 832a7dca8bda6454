import DependentCore.Proofs.Binding.Replacement

/-!
# Simultaneous replacement

Several variables are replaced at once if no replacement is searched for the variables that are
still to come. In a nameless form that is simple: nothing can be captured, and each free variable is
looked up once.

* `Nameless.graft`: put something for each variable, depending on the binders around it,
* `Nameless.graft_graft`: doing so twice is doing so once,
* `Term.graft_congr`: what is put for the free variables of a term decides about the result,
* `Nameless.replaceAll`: the simultaneous replacement of free variables by terms,
* `Tele.fill_replaceAll`: replacing variables and then filling the place of a binder is replacing
  one more variable.
-/

namespace DependentCore

variable {p : Phase}

/-! ## Grafting -/

mutual

/-- Put for each variable what `f` says, which is told how many binders there are around it. -/
def Nameless.graft (f : Nat → Reference → Nameless) : Nameless → Nameless
  | .atom a => .atom a
  | .var ref => f 0 ref
  | .unary op a => .unary op (a.graft f)
  | .binary op a b => .binary op (a.graft f) (b.graft f)
  | .app g args => .app (g.graft f) (graftList f args)
  | .list xs => .list (graftList f xs)
  | .bind t => .bind (t.graft f)

/-- Graft in a telescope: there is one more binder around what follows an argument. -/
def NamelessTele.graft (f : Nat → Reference → Nameless) : NamelessTele → NamelessTele
  | .fields => .fields
  | .returns m ret => .returns m (ret.graft f)
  | .runs m ret body => .runs m (ret.graft f) (graftBody f body)
  | .arg qty ty rest => .arg qty (ty.graft f) (rest.graft fun d => f (d + 1))

/-- Graft in a statement. -/
def NamelessStmt.graft (f : Nat → Reference → Nameless) : NamelessStmt → NamelessStmt
  | .call a => .call (a.graft f)
  | .ifThen cond yes => .ifThen (cond.graft f) (graftBody f yes)
  | .ifElse cond yes no => .ifElse (cond.graft f) (graftBody f yes) (graftBody f no)
  | .ret a => .ret (a.graft f)
  | .retUnit => .retUnit
  | .impossible => .impossible
  | .impossibleBy a => .impossibleBy (a.graft f)

/-- Graft in the terms of a list. -/
def graftList (f : Nat → Reference → Nameless) : List Nameless → List Nameless
  | [] => []
  | a :: as => a.graft f :: graftList f as

/-- Graft in the statements of a body. -/
def graftBody (f : Nat → Reference → Nameless) : List NamelessStmt → List NamelessStmt
  | [] => []
  | s :: rest => s.graft f :: graftBody f rest

end

mutual

/-- Putting every variable for itself changes nothing. -/
theorem Nameless.graft_var : ∀ n : Nameless, n.graft (fun _ ref => .var ref) = n
  | .atom _ | .var _ => rfl
  | .unary _ a => by rw [Nameless.graft, a.graft_var]
  | .binary _ a b => by rw [Nameless.graft, a.graft_var, b.graft_var]
  | .app g args => by rw [Nameless.graft, g.graft_var, graftList_var args]
  | .list xs => by rw [Nameless.graft, graftList_var xs]
  | .bind t => by rw [Nameless.graft, t.graft_var]

theorem NamelessTele.graft_var : ∀ t : NamelessTele, t.graft (fun _ ref => .var ref) = t
  | .fields => rfl
  | .returns _ ret => by rw [NamelessTele.graft, ret.graft_var]
  | .runs _ ret body => by rw [NamelessTele.graft, ret.graft_var, graftBody_var body]
  | .arg _ ty rest => by rw [NamelessTele.graft, ty.graft_var, rest.graft_var]

theorem NamelessStmt.graft_var : ∀ s : NamelessStmt, s.graft (fun _ ref => .var ref) = s
  | .call a | .ret a | .impossibleBy a => by rw [NamelessStmt.graft, a.graft_var]
  | .ifThen cond yes => by rw [NamelessStmt.graft, cond.graft_var, graftBody_var yes]
  | .ifElse cond yes no => by
    rw [NamelessStmt.graft, cond.graft_var, graftBody_var yes, graftBody_var no]
  | .retUnit | .impossible => rfl

theorem graftList_var : ∀ ns : List Nameless, graftList (fun _ ref => .var ref) ns = ns
  | [] => rfl
  | n :: ns => by rw [graftList, n.graft_var, graftList_var ns]

theorem graftBody_var : ∀ b : List NamelessStmt, graftBody (fun _ ref => .var ref) b = b
  | [] => rfl
  | s :: b => by rw [graftBody, s.graft_var, graftBody_var b]

end

mutual

/-- Grafting into what was grafted is grafting once. -/
theorem Nameless.graft_graft (f g : Nat → Reference → Nameless) : ∀ n : Nameless,
    (n.graft f).graft g = n.graft fun d ref => (f d ref).graft fun e => g (e + d)
  | .atom _ | .var _ => rfl
  | .unary _ a => by simp only [Nameless.graft, a.graft_graft f g]
  | .binary _ a b => by simp only [Nameless.graft, a.graft_graft f g, b.graft_graft f g]
  | .app h args => by simp only [Nameless.graft, h.graft_graft f g, graftList_graft f g args]
  | .list xs => by simp only [Nameless.graft, graftList_graft f g xs]
  | .bind t => by simp only [Nameless.graft, t.graft_graft f g]

theorem NamelessTele.graft_graft (f g : Nat → Reference → Nameless) : ∀ t : NamelessTele,
    (t.graft f).graft g = t.graft fun d ref => (f d ref).graft fun e => g (e + d)
  | .fields => rfl
  | .returns _ ret => by simp only [NamelessTele.graft, ret.graft_graft f g]
  | .runs _ ret body => by
    simp only [NamelessTele.graft, ret.graft_graft f g, graftBody_graft f g body]
  | .arg _ ty rest => by
    simp only [NamelessTele.graft, ty.graft_graft f g,
      rest.graft_graft (fun d => f (d + 1)) (fun d => g (d + 1))]
    rfl

theorem NamelessStmt.graft_graft (f g : Nat → Reference → Nameless) : ∀ s : NamelessStmt,
    (s.graft f).graft g = s.graft fun d ref => (f d ref).graft fun e => g (e + d)
  | .call a | .ret a | .impossibleBy a => by simp only [NamelessStmt.graft, a.graft_graft f g]
  | .ifThen cond yes => by
    simp only [NamelessStmt.graft, cond.graft_graft f g, graftBody_graft f g yes]
  | .ifElse cond yes no => by
    simp only [NamelessStmt.graft, cond.graft_graft f g, graftBody_graft f g yes,
      graftBody_graft f g no]
  | .retUnit | .impossible => rfl

theorem graftList_graft (f g : Nat → Reference → Nameless) : ∀ ns : List Nameless,
    graftList g (graftList f ns) = graftList (fun d ref => (f d ref).graft fun e => g (e + d)) ns
  | [] => rfl
  | n :: ns => by simp only [graftList, n.graft_graft f g, graftList_graft f g ns]

theorem graftBody_graft (f g : Nat → Reference → Nameless) : ∀ b : List NamelessStmt,
    graftBody g (graftBody f b) = graftBody (fun d ref => (f d ref).graft fun e => g (e + d)) b
  | [] => rfl
  | s :: b => by simp only [graftBody, s.graft_graft f g, graftBody_graft f g b]

end

/-! ## Grafting and free variables -/

/-- The same reference, seen from under `d` more binders. -/
def Reference.lift (d : Nat) : Reference → Reference
  | .bound i => .bound (i + d)
  | .free x => .free x

theorem Reference.lift_zero (ref : Reference) : ref.lift 0 = ref := by
  cases ref <;> rfl

theorem Reference.lift_under (d : Nat) (ref : Reference) : ref.under.lift d = ref.lift (d + 1) := by
  cases ref with
  | bound i => simp only [Reference.under, Reference.lift, Nat.add_assoc, Nat.add_comm 1 d]
  | free x => rfl

/-- Under any number of further binders, `f` under the binders `st` and `g` under the binders `st'`
put the same for the variable `w`. -/
def PutSame (f g : Nat → Reference → Nameless) (st st' : List (Option Var)) (w : Var) : Prop :=
  ∀ d, f d ((resolve st w).lift d) = g d ((resolve st' w).lift d)

/-- For variables that are bound further inside, `f` and `g` put the same. -/
def PutSameInside (f g : Nat → Reference → Nameless) : Prop :=
  ∀ d i, i < d → f d (.bound i) = g d (.bound i)

section
variable {f g : Nat → Reference → Nameless}

theorem PutSameInside.shift (h : PutSameInside f g) :
    PutSameInside (fun d => f (d + 1)) (fun d => g (d + 1)) :=
  fun d i hi => h (d + 1) i (Nat.lt_succ_of_lt hi)

theorem PutSame.bind {st st' : List (Option Var)} {v : Option Var} {w : Var}
    (hinside : PutSameInside f g) (h : v ≠ some w → PutSame f g st st' w) :
    PutSame (fun d => f (d + 1)) (fun d => g (d + 1)) (v :: st) (v :: st') w := by
  intro d
  by_cases hv : v = some w
  · simp only [resolve, if_pos hv, Reference.lift, Nat.zero_add]
    exact hinside (d + 1) d (Nat.lt_succ_self d)
  · simp only [resolve, if_neg hv, Reference.lift_under]
    exact h hv (d + 1)

mutual

/-- What is put for the free variables of a term decides about the result. -/
theorem Term.graft_congr : ∀ {f g : Nat → Reference → Nameless} {st st' : List (Option Var)}
    (t : Term p), PutSameInside f g → (∀ w, t.occursFree w → PutSame f g st st' w) →
      (t.nameless st).graft f = (t.nameless st').graft g
  | _, _, _, _, .mk _ form, hin, h =>
    form.graft_congr hin fun w hw => h w (Bool.or_eq_true_iff.mpr (.inr hw))

theorem Form.graft_congr : ∀ {f g : Nat → Reference → Nameless} {st st' : List (Option Var)}
    (form : Form p), PutSameInside f g → (∀ w, form.occursFree w → PutSame f g st st' w) →
      (form.nameless st).graft f = (form.nameless st').graft g
  | _, _, _, _, .atom _, _, _ => rfl
  | _, _, _, _, .var v, _, h => by
    have hv := h v (decide_eq_true rfl) 0
    rwa [Reference.lift_zero, Reference.lift_zero] at hv
  | _, _, _, _, .unary op a, hin, h => congrArg (Nameless.unary op) (a.graft_congr hin h)
  | _, _, _, _, .binary op a b, hin, h => by
    have ha := a.graft_congr hin fun w hw => h w (Bool.or_eq_true_iff.mpr (.inl hw))
    have hb := b.graft_congr hin fun w hw => h w (Bool.or_eq_true_iff.mpr (.inr hw))
    simp only [Form.nameless, Nameless.graft, ha, hb]
  | _, _, _, _, .app fn args, hin, h => by
    have hfn := fn.graft_congr hin fun w hw => h w (Bool.or_eq_true_iff.mpr (.inl hw))
    have hargs := graftList_congr args hin fun w hw => h w (Bool.or_eq_true_iff.mpr (.inr hw))
    simp only [Form.nameless, Nameless.graft, hfn, hargs]
  | _, _, _, _, .list xs, hin, h => congrArg Nameless.list (graftList_congr xs hin h)
  | _, _, _, _, .bind _ t, hin, h => congrArg Nameless.bind (t.graft_congr hin h)

theorem Tele.graft_congr {k : Binder} : ∀ {f g : Nat → Reference → Nameless}
    {st st' : List (Option Var)} (t : Tele p k), PutSameInside f g →
    (∀ w, t.occursFree w → PutSame f g st st' w) →
      (t.nameless st).graft f = (t.nameless st').graft g
  | _, _, _, _, .fields, _, _ => rfl
  | _, _, _, _, .returns m ret, hin, h => congrArg (NamelessTele.returns m) (ret.graft_congr hin h)
  | _, _, _, _, .runs _ ret body, hin, h => by
    have hret := ret.graft_congr hin fun w hw => h w (Bool.or_eq_true_iff.mpr (.inl hw))
    have hbody := graftBody_congr body hin fun w hw => h w (Bool.or_eq_true_iff.mpr (.inr hw))
    simp only [Tele.nameless, NamelessTele.graft, hret, hbody]
  | _, _, _, _, .arg _ _ ty v rest, hin, h => by
    simp only [Tele.occursFree, Bool.or_eq_true, Bool.and_eq_true, decide_eq_true_eq] at h
    have hty := ty.graft_congr hin fun w hw => h w (.inl hw)
    have hrest := rest.graft_congr hin.shift fun w hw => .bind hin fun hv => h w (.inr ⟨hv, hw⟩)
    simp only [Tele.nameless, NamelessTele.graft, hty, hrest]

theorem Stmt.graft_congr : ∀ {f g : Nat → Reference → Nameless} {st st' : List (Option Var)}
    (s : Stmt p), PutSameInside f g → (∀ w, s.occursFree w → PutSame f g st st' w) →
      (s.nameless st).graft f = (s.nameless st').graft g
  | _, _, _, _, .call _ a, hin, h | _, _, _, _, .ret _ a, hin, h
  | _, _, _, _, .impossibleBy _ a, hin, h => by
    simp only [Stmt.nameless, NamelessStmt.graft, a.graft_congr hin h]
  | _, _, _, _, .ifThen _ cond yes, hin, h => by
    have hcond := cond.graft_congr hin fun w hw => h w (Bool.or_eq_true_iff.mpr (.inl hw))
    have hyes := graftBody_congr yes hin fun w hw => h w (Bool.or_eq_true_iff.mpr (.inr hw))
    simp only [Stmt.nameless, NamelessStmt.graft, hcond, hyes]
  | _, _, _, _, .ifElse _ cond yes no, hin, h => by
    simp only [Stmt.occursFree, Bool.or_eq_true] at h
    have hcond := cond.graft_congr hin fun w hw => h w (.inl (.inl hw))
    have hyes := graftBody_congr yes hin fun w hw => h w (.inl (.inr hw))
    have hno := graftBody_congr no hin fun w hw => h w (.inr hw)
    simp only [Stmt.nameless, NamelessStmt.graft, hcond, hyes, hno]
  | _, _, _, _, .retUnit _, _, _ | _, _, _, _, .impossible _, _, _ => rfl

theorem graftList_congr : ∀ {f g : Nat → Reference → Nameless} {st st' : List (Option Var)}
    (ts : List (Term p)), PutSameInside f g → (∀ w, occursFreeList w ts → PutSame f g st st' w) →
      graftList f (namelessList st ts) = graftList g (namelessList st' ts)
  | _, _, _, _, [], _, _ => rfl
  | _, _, _, _, t :: ts, hin, h => by
    have ht := t.graft_congr hin fun w hw => h w (Bool.or_eq_true_iff.mpr (.inl hw))
    have hts := graftList_congr ts hin fun w hw => h w (Bool.or_eq_true_iff.mpr (.inr hw))
    simp only [namelessList, graftList, ht, hts]

theorem graftBody_congr : ∀ {f g : Nat → Reference → Nameless} {st st' : List (Option Var)}
    (b : List (Stmt p)), PutSameInside f g → (∀ w, occursFreeBody w b → PutSame f g st st' w) →
      graftBody f (namelessBody st b) = graftBody g (namelessBody st' b)
  | _, _, _, _, [], _, _ => rfl
  | _, _, _, _, s :: b, hin, h => by
    have hs := s.graft_congr hin fun w hw => h w (Bool.or_eq_true_iff.mpr (.inl hw))
    have hb := graftBody_congr b hin fun w hw => h w (Bool.or_eq_true_iff.mpr (.inr hw))
    simp only [namelessBody, graftBody, hs, hb]

end

end

/-! ## Simultaneous replacement -/

/-- Which terms are put for which variables. -/
abbrev Replacements (p : Phase) := Var → Option (Term p)

/-- No variable is replaced. -/
def Replacements.nothing : Replacements p :=
  fun _ => none

/-- One more variable is replaced, if there is one. -/
def Replacements.add (σ : Replacements p) (v : Option Var) (a : Term p) : Replacements p :=
  fun x => if v = some x then some a else σ x

/-- What is put for a reference: bound variables stay. -/
def Reference.instead (σ : Replacements p) : Reference → Nameless
  | .free x =>
    match σ x with
    | some a => a.nameless []
    | none => .var (.free x)
  | .bound i => .var (.bound i)

/-- Replace the free variables of a nameless form, all at once. -/
def Nameless.replaceAll (n : Nameless) (σ : Replacements p) : Nameless :=
  n.graft fun _ => Reference.instead σ

/-- Replace the free variables of a telescope, all at once. -/
def NamelessTele.replaceAll (t : NamelessTele) (σ : Replacements p) : NamelessTele :=
  t.graft fun _ => Reference.instead σ

section
variable {σ : Replacements p} {x : Var} {a : Term p}

theorem Reference.instead_of_some (h : σ x = some a) :
    (Reference.free x).instead σ = a.nameless [] := by
  simp only [Reference.instead, h]

theorem Reference.instead_of_none (h : σ x = none) :
    (Reference.free x).instead σ = .var (.free x) := by
  simp only [Reference.instead, h]

theorem Replacements.add_of_eq {v : Option Var} (h : v = some x) : σ.add v a x = some a :=
  if_pos h

theorem Replacements.add_of_ne {v : Option Var} (h : v ≠ some x) : σ.add v a x = σ x :=
  if_neg h

theorem Replacements.add_none : σ.add none a = σ :=
  funext fun y => if_neg (Option.some_ne_none y).symm

end

theorem Tele.replaceAll_nothing {k : Binder} (t : Tele p k) (st : List (Option Var)) :
    (t.nameless st).replaceAll (Replacements.nothing (p := p)) = t.nameless st := by
  have hnothing : (fun _ => Reference.instead (Replacements.nothing (p := p)))
      = fun (_ : Nat) ref => Nameless.var ref := by
    funext _ ref
    cases ref <;> rfl
  rw [NamelessTele.replaceAll, hnothing, NamelessTele.graft_var]

/-! ## Replacing one variable -/

section
variable {x : Var} {r : Term p}

/-- The replacement of `x` by `r`, and of nothing else. -/
theorem Reference.instead_single (ref : Reference) :
    ref.instead (Replacements.nothing.add (some x) r)
      = if ref = .free x then r.nameless [] else .var ref := by
  cases ref with
  | bound i => simp [Reference.instead]
  | free y =>
    by_cases h : x = y
    · rw [if_pos (congrArg Reference.free h.symm)]
      exact Reference.instead_of_some (Replacements.add_of_eq (congrArg some h))
    · rw [if_neg fun e => h (Reference.free.inj e).symm]
      exact Reference.instead_of_none (Replacements.add_of_ne fun e => h (Option.some.inj e))

mutual

/-- Replacing one variable is a simultaneous replacement. -/
theorem Nameless.replace_eq_graft : ∀ n : Nameless, n.replace x (r.nameless [])
    = n.graft fun _ => Reference.instead (Replacements.nothing.add (some x) r)
  | .atom _ => rfl
  | .var ref => (Reference.instead_single ref).symm
  | .unary _ a => by rw [Nameless.replace, Nameless.graft, a.replace_eq_graft]
  | .binary _ a b => by
    rw [Nameless.replace, Nameless.graft, a.replace_eq_graft, b.replace_eq_graft]
  | .app f args => by
    rw [Nameless.replace, Nameless.graft, f.replace_eq_graft, replaceList_eq_graftList args]
  | .list xs => by rw [Nameless.replace, Nameless.graft, replaceList_eq_graftList xs]
  | .bind t => by rw [Nameless.replace, Nameless.graft, t.replace_eq_graft]

theorem NamelessTele.replace_eq_graft : ∀ t : NamelessTele, t.replace x (r.nameless [])
    = t.graft fun _ => Reference.instead (Replacements.nothing.add (some x) r)
  | .fields => rfl
  | .returns _ ret => by rw [NamelessTele.replace, NamelessTele.graft, ret.replace_eq_graft]
  | .runs _ ret body => by
    rw [NamelessTele.replace, NamelessTele.graft, ret.replace_eq_graft,
      replaceBody_eq_graftBody body]
  | .arg _ ty rest => by
    rw [NamelessTele.replace, NamelessTele.graft, ty.replace_eq_graft, rest.replace_eq_graft]

theorem NamelessStmt.replace_eq_graft : ∀ s : NamelessStmt, s.replace x (r.nameless [])
    = s.graft fun _ => Reference.instead (Replacements.nothing.add (some x) r)
  | .call a | .ret a | .impossibleBy a => by
    rw [NamelessStmt.replace, NamelessStmt.graft, a.replace_eq_graft]
  | .ifThen cond yes => by
    rw [NamelessStmt.replace, NamelessStmt.graft, cond.replace_eq_graft,
      replaceBody_eq_graftBody yes]
  | .ifElse cond yes no => by
    rw [NamelessStmt.replace, NamelessStmt.graft, cond.replace_eq_graft,
      replaceBody_eq_graftBody yes, replaceBody_eq_graftBody no]
  | .retUnit | .impossible => rfl

theorem replaceList_eq_graftList : ∀ ns : List Nameless, replaceList ns x (r.nameless [])
    = graftList (fun _ => Reference.instead (Replacements.nothing.add (some x) r)) ns
  | [] => rfl
  | n :: ns => by rw [replaceList, graftList, n.replace_eq_graft, replaceList_eq_graftList ns]

theorem replaceBody_eq_graftBody : ∀ b : List NamelessStmt, replaceBody b x (r.nameless [])
    = graftBody (fun _ => Reference.instead (Replacements.nothing.add (some x) r)) b
  | [] => rfl
  | s :: b => by rw [replaceBody, graftBody, s.replace_eq_graft, replaceBody_eq_graftBody b]

end

end

/-- Put a term for the variables of the outermost binder. -/
def fillOutermost (a : Term p) : Nat → Reference → Nameless
  | d, .bound i => if i = d then a.nameless [] else .var (.bound i)
  | _, .free x => .var (.free x)

section
variable {a : Term p}

theorem fillOutermost_inside {d i : Nat} (h : i < d) :
    fillOutermost a d (.bound i) = .var (.bound i) :=
  if_neg (Nat.ne_of_lt h)

/-- The nameless form of a term outside of all binders has no places to fill. -/
theorem Term.fillOutermost_nameless (t : Term p) (d : Nat) :
    (t.nameless []).graft (fun e => fillOutermost a (e + d)) = t.nameless [] := by
  calc (t.nameless []).graft (fun e => fillOutermost a (e + d))
      = (t.nameless []).graft (fun _ ref => .var ref) := by
        refine t.graft_congr (fun e i hi => ?_) fun _ _ _ => rfl
        exact fillOutermost_inside (Nat.lt_add_right d hi)
    _ = t.nameless [] := Nameless.graft_var _

/-- Replacing variables under a binder and then filling its place is replacing one more variable. -/
theorem Tele.fill_replaceAll {k : Binder} (t : Tele p k) (σ : Replacements p) (v : Option Var) :
    ((t.nameless [v]).replaceAll σ).graft (fillOutermost a)
      = (t.nameless []).replaceAll (σ.add v a) := by
  rw [NamelessTele.replaceAll, NamelessTele.graft_graft]
  refine t.graft_congr ?_ fun w _ => ?_
  · intro d i hi
    show fillOutermost a (0 + d) (.bound i) = _
    rw [Nat.zero_add, fillOutermost_inside hi]
    rfl
  · intro d
    by_cases hv : v = some w
    · -- the variable of the binder itself
      simp only [resolve, if_pos hv, Reference.lift, Nat.zero_add]
      show fillOutermost a (0 + d) (.bound d) = _
      rw [Reference.instead_of_some (Replacements.add_of_eq hv), Nat.zero_add]
      exact if_pos rfl
    · simp only [resolve, if_neg hv, Reference.under, Reference.lift]
      have hadd : σ.add v a w = σ w := Replacements.add_of_ne hv
      cases hw : σ w with
      | none =>
        rw [Reference.instead_of_none hw, Reference.instead_of_none (hadd.trans hw)]
        rfl
      | some b =>
        rw [Reference.instead_of_some hw, Reference.instead_of_some (hadd.trans hw)]
        exact Term.fillOutermost_nameless b d

theorem Tele.fill_nameless {k : Binder} (t : Tele p k) (v : Option Var) :
    (t.nameless [v]).graft (fillOutermost a)
      = (t.nameless []).replaceAll (Replacements.nothing.add v a) := by
  rw [← t.fill_replaceAll, t.replaceAll_nothing]

end

end DependentCore
