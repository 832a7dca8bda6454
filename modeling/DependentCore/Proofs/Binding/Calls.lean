import DependentCore.Proofs.Binding.FreeVariables
import DependentCore.Proofs.Binding.Outline

/-!
# Calls

The effect of a term is that of the calls which are evaluated along with it, those outside of
abstractions. `Term.calls` lists them, each with the function that is called and with the arguments
that are bound around the call.

* `Term.hasEffect_eq_any`: a term has an effect if one of its calls has,
* `Term.Confuses x r`: on its way through the parts that are evaluated, the substitution of `r` for
  `x` renames an argument to `x` itself,
* `Term.hasEffect_subst`: otherwise it changes the effect of a term only by way of calls of `x`.
-/

namespace DependentCore

/-- A call that is evaluated along with a term. -/
structure Call where
  /-- The variables of the arguments that are bound around the call, outermost first. -/
  bound : List (Option Var)
  /-- The function that is called. -/
  callee : Checked

/-- The call seen from outside of an argument that is bound around it. -/
def Call.under (v : Option Var) (c : Call) : Call :=
  { c with bound := v :: c.bound }

/-- Whether the function that is called is the free variable `x`. -/
def Call.isOf (x : Var) (c : Call) : Bool :=
  c.callee.isVariable x && !c.bound.contains (some x)

mutual

/-- The calls that are evaluated along with a term. -/
def Term.calls : Checked → List Call
  | .mk _ form => form.calls

/-- The calls that are evaluated along with a form. -/
def Form.calls : Form .checked → List Call
  | .atom _ | .var _ => []
  | .unary _ x => x.calls
  | .binary _ x y => x.calls ++ y.calls
  | .app f args => ⟨[], f⟩ :: (f.calls ++ callsList args)
  | .list xs => callsList xs
  | .bind k t => if k = .abs then [] else t.calls

/-- The calls in the argument types and the return type of a telescope. -/
def Tele.calls {k : Binder} : Tele .checked k → List Call
  | .fields => []
  | .returns _ ret => ret.calls
  | .runs _ ret _ => ret.calls
  | .arg _ _ ty v rest => ty.calls ++ rest.calls.map (Call.under v)

/-- The calls that are evaluated along with the terms of a list. -/
def callsList : List Checked → List Call
  | [] => []
  | x :: xs => x.calls ++ callsList xs

end

/-! ## Effects -/

mutual

/-- A term has an effect if one of its calls has. -/
theorem Term.hasEffect_eq_any : ∀ t : Checked,
    t.hasEffect = t.calls.any (·.callee.hasMutableSort)
  | .mk _ form => Form.hasEffect_eq_any form

theorem Form.hasEffect_eq_any : ∀ f : Form .checked,
    f.hasEffect = f.calls.any (·.callee.hasMutableSort)
  | .atom _ | .var _ => rfl
  | .unary _ x => Term.hasEffect_eq_any x
  | .binary _ x y => by
    rw [Form.hasEffect, Form.calls, List.any_append, Term.hasEffect_eq_any x,
      Term.hasEffect_eq_any y]
  | .app f args => by
    rw [Form.hasEffect, Form.calls, List.any_cons, List.any_append, Term.hasEffect_eq_any f,
      hasEffectList_eq_any args, Bool.or_assoc]
  | .list xs => hasEffectList_eq_any xs
  | .bind k t => by
    rw [Form.hasEffect, Form.calls, Tele.hasEffect_eq_any t]
    cases k <;> rfl

theorem Tele.hasEffect_eq_any {k : Binder} : ∀ t : Tele .checked k,
    t.hasEffect = t.calls.any (·.callee.hasMutableSort)
  | .fields => rfl
  | .returns _ ret | .runs _ ret _ => Term.hasEffect_eq_any ret
  | .arg _ _ ty v rest => by
    rw [Tele.hasEffect, Tele.calls, List.any_append, List.any_map, Term.hasEffect_eq_any ty,
      Tele.hasEffect_eq_any rest]
    rfl

theorem hasEffectList_eq_any : ∀ xs : List Checked,
    hasEffectList xs = (callsList xs).any (·.callee.hasMutableSort)
  | [] => rfl
  | x :: xs => by
    rw [hasEffectList, callsList, List.any_append, Term.hasEffect_eq_any x, hasEffectList_eq_any xs]

end

/-! ## Renaming -/

/-- The call after a variable around it is renamed. -/
def Call.rename (x y : Var) (c : Call) : Call :=
  if c.bound.contains (some x) then c else { c with callee := c.callee.rename x y }

mutual

theorem Term.calls_rename (x y : Var) : ∀ t : Checked,
    (t.rename x y).calls = t.calls.map (Call.rename x y)
  | .mk _ form => Form.calls_rename x y form

theorem Form.calls_rename (x y : Var) : ∀ f : Form .checked,
    (f.rename x y).calls = f.calls.map (Call.rename x y)
  | .atom _ | .var _ => rfl
  | .unary _ a => Term.calls_rename x y a
  | .binary _ a b => by
    rw [Form.rename, Form.calls, Form.calls, List.map_append, Term.calls_rename x y a,
      Term.calls_rename x y b]
  | .app f args => by
    rw [Form.rename, Form.calls, Form.calls, List.map_cons, List.map_append,
      Term.calls_rename x y f, callsList_renameList x y args]
    rfl
  | .list xs => callsList_renameList x y xs
  | .bind k t => by
    rw [Form.rename, Form.calls, Form.calls, Tele.calls_rename x y t]
    split <;> rfl

theorem Tele.calls_rename {k : Binder} (x y : Var) : ∀ t : Tele .checked k,
    (t.rename x y).calls = t.calls.map (Call.rename x y)
  | .fields => rfl
  | .returns _ ret | .runs _ ret _ => Term.calls_rename x y ret
  | .arg _ _ ty v rest => by
    rw [Tele.rename, Tele.calls, Tele.calls, List.map_append, List.map_map,
      Term.calls_rename x y ty]
    congr 1
    split
    · -- the argument binds `x` again, so that no call in its scope is renamed
      next hv =>
      refine List.map_congr_left fun c _ => ?_
      simp [Call.rename, Call.under, hv]
    · next hv =>
      rw [Tele.calls_rename x y rest, List.map_map]
      refine List.map_congr_left fun c _ => ?_
      simp only [Function.comp_apply, Call.rename, Call.under, List.contains_cons]
      grind

theorem callsList_renameList (x y : Var) : ∀ xs : List Checked,
    callsList (renameList x y xs) = (callsList xs).map (Call.rename x y)
  | [] => rfl
  | a :: as => by
    rw [renameList, callsList, callsList, List.map_append, Term.calls_rename x y a,
      callsList_renameList x y as]

end

/-! ## Substitution -/

mutual

/-- Substituting `r` for `x` in the parts of a term that are evaluated renames an argument to
`x`. -/
inductive Term.Confuses (x : Var) (r : Checked) : Checked → Prop where
  | unary {note op a} : Term.Confuses x r a → Term.Confuses x r (.mk note (.unary op a))
  | left {note op a b} : Term.Confuses x r a → Term.Confuses x r (.mk note (.binary op a b))
  | right {note op a b} : Term.Confuses x r b → Term.Confuses x r (.mk note (.binary op a b))
  | function {note f args} : Term.Confuses x r f → Term.Confuses x r (.mk note (.app f args))
  | argument {note f args a} :
    a ∈ args → Term.Confuses x r a → Term.Confuses x r (.mk note (.app f args))
  | element {note xs a} : a ∈ xs → Term.Confuses x r a → Term.Confuses x r (.mk note (.list xs))
  | bind {note k t} : k ≠ .abs → Tele.Confuses x r t → Term.Confuses x r (.mk note (.bind k t))

/-- Substituting `r` for `x` in the types of a telescope renames an argument to `x`. -/
inductive Tele.Confuses (x : Var) (r : Checked) : {k : Binder} → Tele .checked k → Prop where
  | returns {m ret} : Term.Confuses x r ret → Tele.Confuses x r (.returns m ret)
  | runs {m ret body} : Term.Confuses x r ret → Tele.Confuses x r (.runs m ret body)
  | type {k mark qty ty v} {rest : Tele .checked k} :
    Term.Confuses x r ty → Tele.Confuses x r (.arg mark qty ty v rest)
  | kept {k mark qty ty v} {rest : Tele .checked k} :
    v ≠ some x → (∀ w, v = some w → ¬r.occursFree w) → Tele.Confuses x r rest →
    Tele.Confuses x r (.arg mark qty ty v rest)
  /-- The argument would capture a variable of `r`, and the name chosen for it is `x`. -/
  | here {k mark qty ty v} {rest : Tele .checked k} :
    v ≠ x → r.occursFree v → rest.fresh v r.maxIndex = x →
    Tele.Confuses x r (.arg mark qty ty (some v) rest)
  | renamed {k mark qty ty v} {rest : Tele .checked k} :
    v ≠ x → r.occursFree v → Tele.Confuses x r (rest.refresh v r.maxIndex).2 →
    Tele.Confuses x r (.arg mark qty ty (some v) rest)

end

mutual

/-- Arguments are renamed above the indices of `r`. -/
theorem Term.Confuses.maxIndex_lt {x : Var} {r : Checked} :
    ∀ {t : Checked}, Term.Confuses x r t → r.maxIndex < x.index
  | _, .unary h | _, .left h | _, .right h | _, .function h | _, .argument _ h
  | _, .element _ h => h.maxIndex_lt
  | _, .bind _ h => h.maxIndex_lt

theorem Tele.Confuses.maxIndex_lt {x : Var} {r : Checked} :
    ∀ {k : Binder} {t : Tele .checked k}, Tele.Confuses x r t → r.maxIndex < x.index
  | _, _, .returns h | _, _, .runs h | _, _, .type h => h.maxIndex_lt
  | _, _, .kept _ _ h | _, _, .renamed _ _ h => h.maxIndex_lt
  | _, _, .here _ _ h => h ▸ Tele.floor_lt_fresh _ _ _

end

/-- The mutability of the function of a call after `r` has been put for `x`. -/
def Call.hasEffectAfter (x : Var) (r : Checked) (c : Call) : Bool :=
  if c.isOf x then r.hasMutableSort else c.callee.hasMutableSort

theorem Call.hasEffectAfter_under {x : Var} {r : Checked} {v : Option Var} (hv : v ≠ some x)
    (c : Call) : (c.under v).hasEffectAfter x r = c.hasEffectAfter x r := by
  simp [Call.hasEffectAfter, Call.isOf, Call.under, Ne.symm hv]

theorem Call.hasEffectAfter_rename {x : Var} {r : Checked} {v w : Var} (hv : v ≠ x) (hw : w ≠ x)
    (c : Call) : (c.rename v w).hasEffectAfter x r = c.hasEffectAfter x r := by
  have hcallee : (c.callee.rename v w).isVariable x = c.callee.isVariable x := by
    obtain ⟨_, _, form⟩ := c
    cases form with
    | var u =>
      simp only [Term.rename, Form.rename, Term.isVariable]
      grind
    | _ => rfl
  unfold Call.rename
  split
  · rfl
  · simp [Call.hasEffectAfter, Call.isOf, hcallee, Term.hasMutableSort_rename]

/-- What is called where `x` is bound again is not replaced. -/
theorem Call.hasEffectAfter_under_self {x : Var} {r : Checked} (c : Call) :
    (c.under (some x)).hasEffectAfter x r = c.callee.hasMutableSort := by
  simp [Call.hasEffectAfter, Call.isOf, Call.under]

/-- The function of a call is replaced, or its sort keeps its mutability. -/
theorem Call.hasMutableSort_subst {x : Var} {r f : Checked} (hf : f.piSort?.isSome) :
    (f.subst x r).hasMutableSort = (Call.mk [] f).hasEffectAfter x r := by
  cases hx : f.isVariable x with
  | false =>
    rw [Term.hasMutableSort_subst hx hf]
    simp [Call.hasEffectAfter, Call.isOf, hx]
  | true =>
    obtain ⟨note, form⟩ := f
    cases form with
    | var v =>
      simp only [Term.isVariable, decide_eq_true_eq] at hx
      simp [Call.hasEffectAfter, Call.isOf, Term.isVariable, hx]
    | _ => cases hx

mutual

/-- Replacing a variable by a term without effects changes the effect of a term only by way of calls
of that variable, if all functions that are called have a pi type as their sort. -/
theorem Term.hasEffect_subst {x : Var} {r : Checked} (hr : r.hasEffect = false) :
    ∀ {t : Checked}, ¬Term.Confuses x r t → (∀ c ∈ t.calls, c.callee.piSort?.isSome) →
      (t.subst x r).hasEffect = t.calls.any (·.hasEffectAfter x r)
  | .mk note (.atom a), _, _ => by
    rw [Term.subst_atom]
    rfl
  | .mk note (.var v), _, _ => by
    rw [Term.subst_var]
    split
    · exact hr
    · rfl
  | .mk note (.unary op a), hx, hcalls => by
    rw [Term.subst_unary]
    exact Term.hasEffect_subst hr (fun h => hx (.unary h)) hcalls
  | .mk note (.binary op a b), hx, hcalls => by
    rw [Term.calls, Form.calls] at hcalls ⊢
    rw [List.forall_mem_append] at hcalls
    rw [Term.subst_binary, Term.hasEffect, Form.hasEffect, List.any_append,
      Term.hasEffect_subst hr (fun h => hx (.left h)) hcalls.1,
      Term.hasEffect_subst hr (fun h => hx (.right h)) hcalls.2]
  | .mk note (.app f args), hx, hcalls => by
    rw [Term.calls, Form.calls] at hcalls ⊢
    rw [List.forall_mem_cons, List.forall_mem_append] at hcalls
    rw [Term.subst_app, Term.hasEffect, Form.hasEffect, List.any_cons, List.any_append,
      Call.hasMutableSort_subst hcalls.1,
      Term.hasEffect_subst hr (fun h => hx (.function h)) hcalls.2.1,
      hasEffectList_subst hr (fun a ha h => hx (.argument ha h)) hcalls.2.2, Bool.or_assoc]
  | .mk note (.list xs), hx, hcalls => by
    rw [Term.subst_list]
    exact hasEffectList_subst hr (fun a ha h => hx (.element ha h)) hcalls
  | .mk note (.bind k t), hx, hcalls => by
    rw [Term.calls, Form.calls] at hcalls ⊢
    rw [Term.subst_bind, Term.hasEffect, Form.hasEffect]
    by_cases hk : k = .abs
    · simp [hk]
    · rw [if_neg hk] at hcalls ⊢
      rw [Tele.hasEffect_subst hr (fun h => hx (.bind hk h)) hcalls]
      simp [hk]
termination_by t => 2 * t.size
decreasing_by all_goals simp only [Term.size, Form.size]; omega

theorem Tele.hasEffect_subst {x : Var} {r : Checked} (hr : r.hasEffect = false) {k : Binder} :
    ∀ {t : Tele .checked k}, ¬Tele.Confuses x r t → (∀ c ∈ t.calls, c.callee.piSort?.isSome) →
      (t.subst x r).hasEffect = t.calls.any (·.hasEffectAfter x r)
  | .fields, _, _ => rfl
  | .returns _ ret, hx, hcalls => Term.hasEffect_subst hr (fun h => hx (.returns h)) hcalls
  | .runs _ ret body, hx, hcalls => by
    rw [Tele.subst_runs]
    exact Term.hasEffect_subst hr (fun h => hx (.runs h)) hcalls
  | .arg _ _ ty none rest, hx, hcalls => by
    have hv : none ≠ some x := nofun
    rw [Tele.calls, List.forall_mem_append, List.forall_mem_map] at hcalls
    rw [Tele.subst_arg_none, Tele.hasEffect, Tele.calls, List.any_append, List.any_map,
      Term.hasEffect_subst hr (fun h => hx (.type h)) hcalls.1,
      Tele.hasEffect_subst hr (fun h => hx (.kept hv nofun h)) hcalls.2]
    simp only [Function.comp_def, Call.hasEffectAfter_under hv]
  | .arg mark qty ty (some v) rest, hx, hcalls => by
    rw [Tele.calls, List.forall_mem_append, List.forall_mem_map] at hcalls
    have hty := Term.hasEffect_subst hr (fun h => hx (.type h)) hcalls.1
    rw [Tele.calls, List.any_append, List.any_map, ← hty, Tele.subst_arg_some]
    split
    · next hv =>
      subst hv
      rw [Tele.hasEffect, Tele.hasEffect_eq_any rest]
      simp only [Function.comp_def, Call.hasEffectAfter_under_self]
    · next hv =>
      have hv' : some v ≠ some x := by simpa using hv
      simp only [Function.comp_def, Call.hasEffectAfter_under hv']
      split
      · next hfree =>
        -- the scope is renamed first, and the new variable is not `x`
        have hnew : rest.fresh v r.maxIndex ≠ x := fun h => hx (.here hv hfree h)
        have hrenamed : ∀ c ∈ (rest.refresh v r.maxIndex).2.calls, c.callee.piSort?.isSome := by
          rw [Tele.refresh_eq, Tele.calls_rename, List.forall_mem_map]
          intro c hc
          unfold Call.rename
          split
          · exact hcalls.2 c hc
          · rw [Term.piSort?_rename, Option.isSome_map]
            exact hcalls.2 c hc
        rw [Tele.hasEffect, Tele.hasEffect_subst hr (fun h => hx (.renamed hv hfree h)) hrenamed,
          Tele.refresh_eq, Tele.calls_rename, List.any_map]
        simp only [Function.comp_def, Call.hasEffectAfter_rename hv hnew]
      · next hfree =>
        have hkept : ∀ w, some v = some w → ¬r.occursFree w := by
          rintro w ⟨⟩
          exact hfree
        rw [Tele.hasEffect, Tele.hasEffect_subst hr (fun h => hx (.kept hv' hkept h)) hcalls.2]
termination_by t => 2 * t.size
decreasing_by all_goals simp only [Tele.size, Tele.size_refresh]; omega

theorem hasEffectList_subst {x : Var} {r : Checked} (hr : r.hasEffect = false) :
    ∀ {xs : List Checked}, (∀ a ∈ xs, ¬Term.Confuses x r a) →
      (∀ c ∈ callsList xs, c.callee.piSort?.isSome) →
      hasEffectList (xs.map (·.subst x r)) = (callsList xs).any (·.hasEffectAfter x r)
  | [], _, _ => rfl
  | a :: as, hx, hcalls => by
    rw [callsList, List.forall_mem_append] at hcalls
    rw [List.map_cons, hasEffectList, callsList, List.any_append,
      Term.hasEffect_subst hr (hx a (.head _)) hcalls.1,
      hasEffectList_subst hr (fun b hb => hx b (.tail _ hb)) hcalls.2]
termination_by xs => 2 * sizeList xs + 1
decreasing_by all_goals have := a.one_le_size; simp only [sizeList]; omega

end

end DependentCore
