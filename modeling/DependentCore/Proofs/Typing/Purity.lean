import DependentCore.Proofs.Binding.Calls
import DependentCore.Proofs.Typing.Fillings
import DependentCore.Typing.Declare
import DependentCore.Syntax.Equality

/-!
# Effects of checked terms

In immutable code a call of a mutable function is rejected. So every call that is evaluated along
with an accepted term has been allowed where it stands; or else it is part of a value found for a
placeholder, which is put in without such a check. A value of that kind may have been cut out of the
type of a mutable function, where calls of mutable functions are accepted
(`placeholder_calls_mutable_function`).

* `Context.Extends`: a context with arguments declared in it, in code of the same mutability,
* `Term.Accepts.justifies`: where the calls of an accepted term come from,
* `hasEffect_iff_filling_hasEffect`: in immutable code, an accepted term has an effect if and only
  if a value found for a placeholder has.
-/

namespace DependentCore

/-! ## Contexts under binders -/

/-- A context with arguments declared in it, in code of the same mutability. -/
structure Context.Extends (ctx : Context) (bound : List (Option Var)) (ctx' : Context) : Prop where
  mutability : ctx'.mutability = ctx.mutability
  lookup : ∀ x, some x ∉ bound → ctx'.lookup? x = ctx.lookup? x

namespace Context.Extends

variable {ctx ctx₁ ctx₂ : Context} {bound bound' : List (Option Var)}

theorem refl (ctx : Context) : ctx.Extends [] ctx :=
  ⟨rfl, fun _ _ => rfl⟩

theorem newScope (ctx : Context) : ctx.Extends [] ctx.newScope :=
  ⟨rfl, fun _ _ => rfl⟩

theorem assume (h : ctx.Extends bound ctx₁) (fact : Checked) :
    ctx.Extends bound (ctx₁.assume fact) :=
  ⟨h.mutability, h.lookup⟩

theorem trans (h₁ : ctx.Extends bound ctx₁) (h₂ : ctx₁.Extends bound' ctx₂) :
    ctx.Extends (bound ++ bound') ctx₂ := by
  refine ⟨h₂.mutability.trans h₁.mutability, fun x hx => ?_⟩
  rw [List.mem_append, not_or] at hx
  rw [h₂.lookup x hx.2, h₁.lookup x hx.1]

theorem declareArg {loc : Location} {qty : Quantity} {ty : Checked} {v : Option Var}
    (h : declareArg ctx loc qty ty v = .ok ctx₁) : ctx.Extends [v] ctx₁ := by
  cases v with
  | none =>
    cases h
    exact ⟨rfl, fun _ _ => rfl⟩
  | some v =>
    obtain ⟨d, rfl, -⟩ := declareArg_eq_ok h
    refine ⟨rfl, fun x hx => ?_⟩
    have hv : v ≠ x := by
      rintro rfl
      exact hx (.head _)
    rw [Context.lookup?_withDecl, if_neg hv]

end Context.Extends

/-! ## Calls in the values found for placeholders -/

theorem Term.calls_eq (t : Checked) : t.calls = t.form.calls := by
  cases t
  rfl

/-- The call seen from outside of the arguments that are bound around it. -/
def Call.inside (bound : List (Option Var)) (c : Call) : Call :=
  { c with bound := bound ++ c.bound }

/-- The calls of a value found for a placeholder, as far as they are evaluated. -/
def Filling.calls (fill : Filling) : List Call :=
  if fill.evaluated then fill.value.calls.map (Call.inside fill.bound) else []

/-- The calls of the values found for placeholders. -/
def callsOfFillings (fills : List Filling) : List Call :=
  fills.flatMap Filling.calls

theorem mem_callsOfFillings {fills : List Filling} {c : Call} :
    c ∈ callsOfFillings fills ↔ ∃ fill ∈ fills, fill.evaluated = true ∧
      ∃ c' ∈ fill.value.calls, c'.inside fill.bound = c := by
  simp only [callsOfFillings, Filling.calls, List.mem_flatMap, List.mem_ite_nil_right,
    List.mem_map]

theorem callsOfFillings_append (fills fills' : List Filling) :
    callsOfFillings (fills ++ fills') = callsOfFillings fills ++ callsOfFillings fills' :=
  List.flatMap_append

theorem callsOfFillings_delayed (fills : List Filling) :
    callsOfFillings (fills.map Filling.delayed) = [] := by
  simp [callsOfFillings, Filling.calls, Filling.delayed]

theorem Filling.calls_under (v : Option Var) (fill : Filling) :
    (fill.under v).calls = fill.calls.map (Call.under v) := by
  obtain ⟨bound, evaluated, value⟩ := fill
  cases evaluated with
  | false => rfl
  | true =>
    simp only [Filling.calls, Filling.under, if_true, List.map_map]
    rfl

theorem callsOfFillings_under (v : Option Var) (fills : List Filling) :
    callsOfFillings (fills.map (Filling.under v)) = (callsOfFillings fills).map (Call.under v) := by
  simp only [callsOfFillings, List.flatMap_map, List.map_flatMap, Filling.calls_under]

theorem callsOfFillings_auto (t : Checked) : callsOfFillings [⟨[], true, t⟩] = t.calls := by
  have hinside : Call.inside [] = id := rfl
  simp [callsOfFillings, Filling.calls, hinside]

/-- The calls of the values found for placeholders in a list: those of the first term, which is
found itself or holds what is found, and those of the others. -/
theorem callsOfFillings_cons (x : Written) (x' : Checked) (xs : List Written) (xs' : List Checked) :
    callsOfFillings (fillingsList (x :: xs) (x' :: xs')) =
      (if x.isAuto then x'.calls else callsOfFillings (x.fillings x')) ++
        callsOfFillings (fillingsList xs xs') := by
  rw [fillingsList, callsOfFillings_append]
  split
  · rw [callsOfFillings_auto]
  · rfl

mutual

/-- The values found for placeholders are parts of the term, and so are their calls. -/
theorem Term.mem_calls_of_fillings : ∀ (e : Written) {t : Checked} {c : Call},
    c ∈ callsOfFillings (e.fillings t) → c ∈ t.calls
  | .mk _ f, .mk _ _, _, hc => Form.mem_calls_of_fillings f hc

theorem Form.mem_calls_of_fillings : ∀ (f : Form .written) {f' : Form .checked} {c : Call},
    c ∈ callsOfFillings (f.fillings f') → c ∈ f'.calls
  | .atom _, _, _, hc | .var _, _, _, hc => nomatch hc
  | .unary _ x, f', _, hc => by
    cases f' with
    | unary _ x' => exact Term.mem_calls_of_fillings x hc
    | _ => cases hc
  | .binary _ x y, f', _, hc => by
    cases f' with
    | binary _ x' y' =>
      rw [Form.fillings, callsOfFillings_append, List.mem_append] at hc
      exact List.mem_append.mpr
        (hc.imp (Term.mem_calls_of_fillings x) (Term.mem_calls_of_fillings y))
    | _ => cases hc
  | .app f args, f', _, hc => by
    cases f' with
    | app f' args' =>
      rw [Form.fillings, callsOfFillings_append, List.mem_append] at hc
      exact .tail _ (List.mem_append.mpr
        (hc.imp (Term.mem_calls_of_fillings f) (mem_callsList_of_fillings args)))
    | _ => cases hc
  | .list xs, f', _, hc => by
    cases f' with
    | list xs' => exact mem_callsList_of_fillings xs hc
    | _ => cases hc
  | .bind _ t, f', _, hc => by
    cases f' with
    | bind k t' =>
      rw [Form.fillings] at hc
      rw [Form.calls]
      split at hc
      · rw [callsOfFillings_delayed] at hc
        cases hc
      · next hk =>
        rw [if_neg hk]
        exact Tele.mem_calls_of_fillings hk t hc
    | _ => cases hc

theorem Tele.mem_calls_of_fillings {k l : Binder} (hl : l ≠ .abs) :
    ∀ (t : Tele .written k) {t' : Tele .checked l} {c : Call},
      c ∈ callsOfFillings (t.fillings t') → c ∈ t'.calls
  | .fields, _, _, hc => nomatch hc
  | .returns _ ret, t', _, hc => by
    cases t' with
    | returns _ ret' => exact Term.mem_calls_of_fillings ret hc
    | _ => cases hc
  | .runs _ ret body, t', _, hc => by
    cases t' with
    | runs => exact absurd rfl hl
    | _ => cases hc
  | .arg _ _ ty _ rest, t', c, hc => by
    cases t' with
    | arg _ _ ty' v rest' =>
      rw [Tele.fillings, callsOfFillings_append, callsOfFillings_under, List.mem_append] at hc
      refine List.mem_append.mpr (hc.imp (Term.mem_calls_of_fillings ty) fun hc => ?_)
      obtain ⟨c, hrest, rfl⟩ := List.mem_map.mp hc
      exact List.mem_map_of_mem (Tele.mem_calls_of_fillings hl rest hrest)
    | _ => cases hc

theorem mem_callsList_of_fillings : ∀ (xs : List Written) {xs' : List Checked} {c : Call},
    c ∈ callsOfFillings (fillingsList xs xs') → c ∈ callsList xs'
  | [], _, _, hc | _ :: _, [], _, hc => nomatch hc
  | x :: xs, x' :: xs', _, hc => by
    rw [callsOfFillings_cons, List.mem_append] at hc
    refine List.mem_append.mpr (hc.imp (fun hc => ?_) (mem_callsList_of_fillings xs))
    split at hc
    · exact hc
    · exact Term.mem_calls_of_fillings x hc

end

/-! ## Calls of accepted terms -/

section
variable {fuel : Nat} {env : Env}

/-- A call that is allowed where it stands: its function is accepted there and, in immutable code,
is not a mutable one. -/
inductive Call.Allowed (fuel : Nat) (env : Env) (ctx : Context) : Call → Prop where
  | intro {bound ctx' f f' s} : ctx.Extends bound ctx' → Term.Accepts fuel env ctx' .assign f f' →
    f'.piSort? = some s → ¬(s.mutability = .yes ∧ ctx.mutability = .no) →
    Call.Allowed fuel env ctx ⟨bound, f'⟩

theorem Call.Allowed.inside {ctx ctx' : Context} {bound : List (Option Var)} {c : Call}
    (h : c.Allowed fuel env ctx') (hctx : ctx.Extends bound ctx') :
    (c.inside bound).Allowed fuel env ctx := by
  cases h with
  | intro hctx' hf hs hmut =>
    rw [hctx.mutability] at hmut
    exact .intro (hctx.trans hctx') hf hs hmut

/-- Calls come from the values found for placeholders, or are allowed where they stand. -/
def Justifies (fuel : Nat) (env : Env) (ctx : Context) (fills : List Filling) (cs : List Call) :
    Prop :=
  ∀ c ∈ cs, c ∈ callsOfFillings fills ∨ c.Allowed fuel env ctx

namespace Justifies

variable {ctx ctx' : Context} {fills fills' : List Filling} {cs cs' : List Call}

theorem nil : Justifies fuel env ctx fills [] :=
  nofun

theorem append (h : Justifies fuel env ctx fills cs) (h' : Justifies fuel env ctx fills' cs') :
    Justifies fuel env ctx (fills ++ fills') (cs ++ cs') := by
  unfold Justifies
  rw [callsOfFillings_append, List.forall_mem_append]
  exact ⟨fun c hc => (h c hc).imp_left (List.mem_append_left _),
    fun c hc => (h' c hc).imp_left (List.mem_append_right _)⟩

theorem of_extends (h : Justifies fuel env ctx' fills cs) (hctx : ctx.Extends [] ctx') :
    Justifies fuel env ctx fills cs :=
  fun c hc => (h c hc).imp_right (·.inside hctx)

theorem under {v : Option Var} (h : Justifies fuel env ctx' fills cs)
    (hctx : ctx.Extends [v] ctx') :
    Justifies fuel env ctx (fills.map (Filling.under v)) (cs.map (Call.under v)) := by
  unfold Justifies
  rw [callsOfFillings_under, List.forall_mem_map]
  exact fun c hc => (h c hc).imp List.mem_map_of_mem (·.inside hctx)

theorem auto (t : Checked) : Justifies fuel env ctx [⟨[], true, t⟩] t.calls := by
  unfold Justifies
  rw [callsOfFillings_auto]
  exact fun _ hc => .inl hc

/-- The calls of a list are justified if those of its first term are, unless it was found. -/
theorem cons {x : Written} {x' : Checked} {xs : List Written} {xs' : List Checked}
    (h : x.isAuto = false → Justifies fuel env ctx (x.fillings x') x'.calls)
    (h' : Justifies fuel env ctx (fillingsList xs xs') (callsList xs')) :
    Justifies fuel env ctx (fillingsList (x :: xs) (x' :: xs')) (callsList (x' :: xs')) := by
  rw [fillingsList, callsList]
  split
  · exact (auto x').append h'
  · next hauto => exact (h (by simpa using hauto)).append h'

end Justifies

mutual

/-- Each call that is evaluated along with an accepted term comes from a value found for a
placeholder, or is allowed where it stands. -/
theorem Term.Accepts.justifies : ∀ {e : Written} {ctx : Context} {mode : Mode} {t : Checked},
    Term.Accepts fuel env ctx mode e t → Justifies fuel env ctx (e.fillings t) t.calls
  | .mk _ (.atom _), _, _, _, h => by
    cases h with
    | atom h =>
      rw [Term.calls_eq, form_of_elaborateAtom h]
      exact .nil
  | .mk _ (.var _), _, _, _, h => by
    cases h with
    | var h =>
      rw [Term.calls_eq, form_of_assignVar h]
      exact .nil
  | .mk _ (.unary _ x), _, _, _, h => by
    cases h with
    | trueT hx | addressOf _ hx | deref hx | scopeOf hx | not hx | member hx => exact hx.justifies
  | .mk _ (.binary _ x y), ctx, _, _, h => by
    have ihpair {x' y'} (h : AcceptsPair fuel env ctx x y x' y') :
        Justifies fuel env ctx (x.fillings x' ++ y.fillings y') (x'.calls ++ y'.calls) := by
      cases h with
      | leftFirst hx _ hy => exact hx.justifies.append hy.justifies
      | rightFirst hy _ hx => exact hx.justifies.append hy.justifies
    have hscope (reason : Checked) : ctx.Extends [] (ctx.newScope.assume reason) :=
      (Context.Extends.newScope ctx).assume reason
    cases h with
    | arrayT hx hy | refT hx hy | element hx _ hy | position hx _ _ _ hy | logic hx hy
    | arithOf _ _ hx hy => exact hx.justifies.append hy.justifies
    | because _ hy hx | becauseOf _ hy hx =>
      exact (hx.justifies.of_extends (hscope _)).append hy.justifies
    | compare h | arith h => exact ihpair h
  | .mk _ (.app _ _), ctx, _, _, h => by
    cases h with
    | app hf hs hmut _ hargs =>
      -- the one rule that makes a call of its own, and the one that asks for its mutability
      exact List.forall_mem_cons.mpr
        ⟨.inr (.intro (.refl ctx) hf hs hmut), hf.justifies.append hargs.justifies⟩
  | .mk _ (.list _), _, _, _, h => by
    cases h with
    | array _ _ _ h | struct _ _ _ h => exact h.justifies
    | unit | proof => exact .nil
  | .mk _ (.bind .sigma _), ctx, _, _, h => by
    cases h with
    | sigma h => exact (h.justifies nofun).of_extends (.newScope ctx)
  | .mk _ (.bind .pi _), ctx, _, _, h => by
    cases h with
    | pi h => exact (h.justifies nofun).of_extends (.newScope ctx)
  | .mk _ (.bind .abs _), _, _, _, h => by
    -- nothing inside an abstraction is evaluated along with it
    cases h
    exact .nil
termination_by structural e => e

theorem AcceptsElements.justifies : ∀ {xs : List Written} {ctx : Context} {ty : Checked}
    {xs' : List Checked}, AcceptsElements fuel env ctx ty xs xs' →
      Justifies fuel env ctx (fillingsList xs xs') (callsList xs')
  | [], _, _, _, h => by
    cases h
    exact .nil
  | _ :: _, _, _, _, h => by
    cases h with
    | cons hx hxs => exact .cons (fun _ => hx.justifies) hxs.justifies
termination_by structural xs => xs

theorem AcceptsFields.justifies : ∀ {xs : List Written} {ctx : Context} {fs : Fields .checked}
    {xs' : List Checked}, AcceptsFields fuel env ctx xs fs xs' →
      Justifies fuel env ctx (fillingsList xs xs') (callsList xs')
  | [], _, _, _, h => by cases h <;> exact .nil
  | _ :: _, _, _, _, h => by
    cases h with
    | fields => exact .nil
    | cons hx hxs => exact .cons (fun _ => hx.justifies) hxs.justifies
termination_by structural xs => xs

theorem AcceptsArgs.justifies : ∀ {xs : List Written} {ctx : Context} {s rest : Signature .checked}
    {xs' : List Checked}, AcceptsArgs fuel env ctx xs s xs' rest →
      Justifies fuel env ctx (fillingsList xs xs') (callsList xs')
  | [], _, _, _, _, h => by cases h <;> exact .nil
  | _ :: _, _, _, _, _, h => by
    cases h with
    | returns => exact .nil
    | cons _ hx hxs => exact .cons (fun _ => hx.justifies) hxs.justifies
    | auto hauto _ hxs => exact .cons (fun h => by simp [h] at hauto) hxs.justifies
termination_by structural xs => xs

theorem Tele.Accepts.justifies {k : Binder} : ∀ {t : Tele .written k} {ctx : Context}
    {t' : Tele .checked k}, Tele.Accepts fuel env ctx t t' → k ≠ .abs →
      Justifies fuel env ctx (t.fillings t') t'.calls
  | .fields, _, _, h, _ => by
    cases h
    exact .nil
  | .returns _ _, _, _, h, _ => by
    cases h with
    | returns h => exact h.justifies
  | .runs _ _ _, _, _, _, hk => absurd rfl hk
  | .arg _ _ _ _ _, _, _, h, hk => by
    cases h with
    | arg hty hdeclare hrest =>
      exact hty.justifies.append ((hrest.justifies hk).under (.declareArg hdeclare))
termination_by structural t => t

end

end

/-- In immutable code, an accepted term has an effect if and only if a value found for one of its
placeholders has, where the placeholder is evaluated along with the term. -/
theorem hasEffect_iff_filling_hasEffect {fuel : Nat} {env : Env} {ctx : Context} {mode : Mode}
    {e : Written} {t : Checked} (hctx : ctx.mutability = .no)
    (h : e.elaborate fuel env ctx mode = .ok t) :
    t.hasEffect = true ↔
      ∃ fill ∈ e.fillings t, fill.evaluated = true ∧ fill.value.hasEffect = true := by
  have hjust := (Term.accepts_of_elaborate e h).justifies
  constructor
  · intro heffect
    -- a call with an effect is not allowed in immutable code, so it comes from such a value
    rw [Term.hasEffect_eq_any, List.any_eq_true] at heffect
    obtain ⟨c, hc, hmut⟩ := heffect
    obtain hfound | hallowed := hjust c hc
    · obtain ⟨fill, hfill, hevaluated, c', hc', rfl⟩ := mem_callsOfFillings.mp hfound
      refine ⟨fill, hfill, hevaluated, ?_⟩
      rw [Term.hasEffect_eq_any, List.any_eq_true]
      exact ⟨c', hc', hmut⟩
    · cases hallowed with
      | intro _ _ hs hno =>
        refine absurd ⟨?_, hctx⟩ hno
        simpa [Term.hasMutableSort, hs] using hmut
  · rintro ⟨fill, hfill, hevaluated, heffect⟩
    rw [Term.hasEffect_eq_any, List.any_eq_true] at heffect ⊢
    obtain ⟨c, hc, hmut⟩ := heffect
    refine ⟨c.inside fill.bound, Term.mem_calls_of_fillings e ?_, hmut⟩
    exact mem_callsOfFillings.mpr ⟨fill, hfill, hevaluated, c, hc, rfl⟩

/-- The declarations `extern m: () mutable -> u64;` and
`extern f: (u64 n, (array_t(u64, n) xs) mutable -> u64 h) -> u64;`. -/
def mutableEntries : List (Entry .written) :=
  let at0 (form : Form .written) : Written := .mk (.place {} rfl) form
  let u64 := at0 (.atom (.int ⟨.unsigned, .w64⟩))
  let n : Var := { name := "n" }
  let array := at0 (.binary .arrayT u64 (at0 (.var n)))
  [⟨{}, "m", .external (.returns .yes u64)⟩,
    ⟨{}, "f", .external (.arg {} .many u64 (some n) (.arg {} .many
      (at0 (.bind .pi (.arg {} .many array (some { name := "xs" }) (.returns .yes u64))))
      (some { name := "h" }) (.returns .no u64)))⟩]

/-- The term `m()`. -/
def callOfM : Written :=
  .mk (.place {} rfl) (.app (.mk (.place {} rfl) (.atom (.global { name := "m" }))) [])

/-- The checked term `m()`. -/
def callOfM' : Checked :=
  Checked.term Checked.u64 (.app (Checked.term (Checked.pi (.returns .yes Checked.u64))
    (.atom (.global { name := "m" }))) [])

/-- The term `f(auto, (array_t(u64, size) xs) mutable -> u64 { return m(); })`. -/
def callOfF (size : Written) : Written :=
  let at0 (form : Form .written) : Written := .mk (.place {} rfl) form
  let u64 := at0 (.atom (.int ⟨.unsigned, .w64⟩))
  let array := at0 (.binary .arrayT u64 size)
  at0 (.app (at0 (.atom (.global { name := "f" }))) [at0 (.atom .auto),
    at0 (.bind .abs (.arg {} .many array (some { name := "xs" }) (.runs .yes u64
      [.ret {} callOfM])))])

/-- The checked term `f(size, (array_t(u64, size) xs) mutable -> u64 { return m(); })`. -/
def callOfF' (size : Checked) : Checked :=
  let u64 := Checked.u64
  let n : Var := { name := "n" }
  let xs : Var := { name := "xs" }
  let array (size : Checked) := Checked.type (.binary .arrayT u64 size)
  let onArray (size : Checked) : Checked :=
    Checked.pi (.arg () .many (array size) (some xs) (.returns .yes u64))
  let f : Checked := Checked.term (Checked.pi (.arg () .many u64 (some n) (.arg () .many
    (onArray (Checked.term u64 (.var n))) (some { name := "h" }) (.returns .no u64))))
    (.atom (.global { name := "f" }))
  Checked.term u64 (.app f [size, Checked.term (onArray size)
    (.bind .abs (.arg () .many (array size) (some xs) (.runs .yes u64 [.ret () callOfM'])))])

/-- In immutable code, `f(auto, (array_t(u64, 3) xs) mutable -> u64 { return m(); })` is checked to
a term without effects: the call of `m` is not evaluated along with it, and `3` is found for the
placeholder. -/
theorem hasEffect_of_numeral_placeholder :
    let three : Written := .mk (.place {} rfl) (.atom (.num 3))
    let three' : Checked := Checked.term Checked.u64 (.atom (.num 3))
    ∃ outcome env, (checkUnit 20 mutableEntries).run.run {} = (.ok outcome, env) ∧
      ({} : Context).mutability = .no ∧
      (callOfF three).elaborate 20 env {} .assign = .ok (callOfF' three') ∧
      (callOfF' three').hasEffect = false := by
  intro three three'
  let env := ((checkUnit 20 mutableEntries).run.run {}).2
  have ht : (callOfF three).elaborate 20 env {} .assign = .ok (callOfF' three') := by
    decide +kernel +zetaReduce
  refine ⟨_, env, rfl, rfl, ht, ?_⟩
  rw [← Bool.not_eq_true, hasEffect_iff_filling_hasEffect rfl ht]
  rintro ⟨fill, hfill, -, heffect⟩
  obtain rfl : fill = ⟨[], true, three'⟩ := List.mem_singleton.mp hfill
  cases heffect

/-- In immutable code, `f(auto, (array_t(u64, m()) xs) mutable -> u64 { return m(); })` is checked
to `f(m(), (array_t(u64, m()) xs) mutable -> u64 { return m(); })`, and this calls the mutable
function `m`. -/
theorem placeholder_calls_mutable_function :
    ∃ outcome env, (checkUnit 20 mutableEntries).run.run {} = (.ok outcome, env) ∧
      ({} : Context).mutability = .no ∧
      (callOfF callOfM).elaborate 20 env {} .assign = .ok (callOfF' callOfM') ∧
      (callOfF' callOfM').hasEffect = true := by
  let env := ((checkUnit 20 mutableEntries).run.run {}).2
  exact ⟨_, env, rfl, rfl, by decide +kernel +zetaReduce, rfl⟩

end DependentCore
