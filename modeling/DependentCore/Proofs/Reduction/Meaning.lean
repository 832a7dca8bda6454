import DependentCore.Proofs.Reduction.Rules
import DependentCore.Proofs.Semantics.Substitution

/-!
# Normalisation keeps the meaning of first-order terms

Each pass of normalisation is shown to keep results: where code evaluates to something, what it is
rewritten to evaluates to the same.

* `gives_dropUnreachable`, `pruneStmts_sound`: unreachable code and statements without effect may
  be removed,
* `Term.Steps.sound`: beta reduction and folding keep values,
* `Rewrites.sound`: so does every pass of normalisation.

First-order terms are rewritten to first-order terms, but a call that is unfolded becomes an
abstraction that is applied. So `Term.Sound` speaks of three kinds of terms: first-order terms,
abstractions with a first-order body, and such abstractions applied to first-order terms. The last
kind either stays or becomes first-order, and only then does it replace the call.
-/

namespace DependentCore

variable {env : Env} {ρ : Valuation}

/-! ## Removal of unreachable code -/

/-- A literal evaluates to itself. -/
theorem Term.eq_of_isLit {cond : Checked} {b c : Bool} (hlit : cond.isLit c)
    (h : cond.Evaluates env ρ (.bool b)) : b = c := by
  unfold Term.isLit at hlit
  split at hlit
  · cases h
    simpa using hlit
  · cases hlit

mutual

/-- Control does not go on behind a terminator. -/
theorem Stmt.not_gives_none : ∀ s : Stmt .checked, s.isTerminator →
    ¬Gives env ρ (.stmt s) (.ending none)
  | .ifElse _ _ yes no, h, hs => by
    obtain ⟨hyes, hno⟩ := Bool.and_eq_true_iff.mp h
    cases hs with
    | ifElse b _ hbranch =>
      cases b with
      | true => exact not_gives_none yes hyes hbranch
      | false => exact not_gives_none no hno hbranch
  | .ret _ _, _, hs | .retUnit _, _, hs | .impossible _, _, hs | .impossibleBy _ _, _, hs => by
    cases hs

/-- Control does not fall off the end of a body that always returns. -/
theorem not_gives_none : ∀ b : Body .checked, returnsAlways b →
    ¬Gives env ρ (.body b) (.ending none)
  | s :: rest, h, hb => by
    cases hb with
    | next hs hrest =>
      rcases Bool.or_eq_true_iff.mp h with h | h
      · exact Stmt.not_gives_none s h hs
      · exact not_gives_none rest h hrest

end

mutual

/-- Removal of unreachable code inside a statement keeps its result. -/
theorem Stmt.gives_dropUnreachable : ∀ (s : Stmt .checked) {o : Option Value},
    Gives env ρ (.stmt s) (.ending o) → Gives env ρ (.stmt s.dropUnreachable.result) (.ending o)
  | .ifThen _ cond yes, _, h => by
    rw [Stmt.dropUnreachable]
    split
    · next hlit =>
      cases h with
      | ifThen hcond _ => cases Term.eq_of_isLit hlit hcond
      | skip hcond => exact .skip hcond
    · cases h with
      | ifThen hcond hyes => exact .ifThen hcond (gives_dropUnreachable yes hyes)
      | skip hcond => exact .skip hcond
  | .ifElse _ cond yes no, _, .ifElse b hcond hbranch => by
    rw [Stmt.dropUnreachable]
    split
    · next hlit =>
      obtain rfl := Term.eq_of_isLit hlit hcond
      exact .ifThen hcond (gives_dropUnreachable yes hbranch)
    · split
      · next hlit =>
        obtain rfl := Term.eq_of_isLit hlit hcond
        exact .ifElse false hcond (gives_dropUnreachable no hbranch)
      · refine .ifElse b hcond ?_
        cases b with
        | true => exact gives_dropUnreachable yes hbranch
        | false => exact gives_dropUnreachable no hbranch
  | .call _ _, _, h | .ret _ _, _, h | .retUnit _, _, h | .impossible _, _, h
  | .impossibleBy _ _, _, h => h

/-- Removal of unreachable code keeps the result of a body. -/
theorem gives_dropUnreachable : ∀ (b : Body .checked) {o : Option Value},
    Gives env ρ (.body b) (.ending o) → Gives env ρ (.body (dropUnreachable b).result) (.ending o)
  | [], _, h => h
  | s :: rest, _, h => by
    rw [dropUnreachable]
    cases h with
    | stop hs =>
      have hs := Stmt.gives_dropUnreachable s hs
      split
      · exact .stop hs
      · exact .stop hs
    | next hs hrest =>
      have hs := Stmt.gives_dropUnreachable s hs
      split
      · next hterm => exact absurd hs (Stmt.not_gives_none _ hterm)
      · exact .next hs (gives_dropUnreachable rest hrest)

end

mutual

theorem Stmt.isFirstOrder_dropUnreachable : ∀ s : Stmt .checked, s.isFirstOrder →
    s.dropUnreachable.result.isFirstOrder
  | .ifThen _ cond yes, h => by
    obtain ⟨hcond, hyes⟩ := Bool.and_eq_true_iff.mp h
    rw [Stmt.dropUnreachable]
    split
    · exact Bool.and_eq_true_iff.mpr ⟨hcond, rfl⟩
    · exact Bool.and_eq_true_iff.mpr ⟨hcond, isFirstOrderBody_dropUnreachable yes hyes⟩
  | .ifElse _ cond yes no, h => by
    obtain ⟨h, hno⟩ := Bool.and_eq_true_iff.mp h
    obtain ⟨hcond, hyes⟩ := Bool.and_eq_true_iff.mp h
    have hyes := isFirstOrderBody_dropUnreachable yes hyes
    have hno := isFirstOrderBody_dropUnreachable no hno
    rw [Stmt.dropUnreachable]
    split
    · exact Bool.and_eq_true_iff.mpr ⟨hcond, hyes⟩
    · split
      · exact Bool.and_eq_true_iff.mpr ⟨Bool.and_eq_true_iff.mpr ⟨hcond, rfl⟩, hno⟩
      · exact Bool.and_eq_true_iff.mpr ⟨Bool.and_eq_true_iff.mpr ⟨hcond, hyes⟩, hno⟩
  | .call _ _, h | .ret _ _, h | .retUnit _, h => h

theorem isFirstOrderBody_dropUnreachable : ∀ b : Body .checked, isFirstOrderBody b →
    isFirstOrderBody (dropUnreachable b).result
  | [], h => h
  | s :: rest, h => by
    obtain ⟨hs, hrest⟩ := Bool.and_eq_true_iff.mp h
    have hs := Stmt.isFirstOrder_dropUnreachable s hs
    rw [dropUnreachable]
    split
    · exact Bool.and_eq_true_iff.mpr ⟨hs, rfl⟩
    · exact Bool.and_eq_true_iff.mpr ⟨hs, isFirstOrderBody_dropUnreachable rest hrest⟩

end

/-! ## Pruning -/

/-- A body that returns a value does so whatever follows it. -/
theorem gives_append_some {w : Value} (c : Body .checked) : ∀ {b : Body .checked},
    Gives env ρ (.body b) (.ending (some w)) → Gives env ρ (.body (b ++ c)) (.ending (some w))
  | _ :: _, .stop hs => .stop hs
  | _ :: _, .next hs hrest => .next hs (gives_append_some c hrest)

/-- A body that control passes is followed by what comes after it. -/
theorem gives_append_none {o : Option Value} {c : Body .checked}
    (hc : Gives env ρ (.body c) (.ending o)) : ∀ {b : Body .checked},
    Gives env ρ (.body b) (.ending none) → Gives env ρ (.body (b ++ c)) (.ending o)
  | [], _ => hc
  | _ :: _, .next hs hrest => .next hs (gives_append_none hc hrest)

/-- A first-order `if` is replaced only if its condition is literal, as nothing in it is taken for
impossible. -/
theorem outcomeOfIf?_eq_some {cond : Checked} {yes : Body .checked} {no : Option (Body .checked)}
    {rest spliced : Body .checked} {dropRest : Bool} (hyes : isFirstOrderBody yes)
    (hno : ∀ b ∈ no, isFirstOrderBody b) (hrest : isFirstOrderBody rest)
    (h : outcomeOfIf? cond yes no rest = some (spliced, dropRest)) :
    dropRest = false ∧ ((cond.isLit true ∧ spliced = yes) ∨
      (cond.isLit false ∧ spliced = no.getD [])) := by
  cases prunesIf_of_outcomeOfIf? h with
  | literalTrue hlit => exact ⟨rfl, .inl ⟨hlit, rfl⟩⟩
  | literalFalse _ hlit => exact ⟨rfl, .inr ⟨hlit, rfl⟩⟩
  | second _ _ himpossible =>
    rw [endsImpossible_of_isFirstOrder yes hyes] at himpossible
    cases himpossible
  | first _ _ himpossible =>
    rw [endsImpossible_of_isFirstOrder _ (hno _ rfl)] at himpossible
    cases himpossible
  | take _ _ himpossible =>
    rw [endsImpossible_of_isFirstOrder rest hrest] at himpossible
    cases himpossible

/-- What a first-order statement is replaced by is first-order and has its result, and no
statements after it are dropped. -/
theorem Stmt.prune?_sound (env : Env) {s : Stmt .checked} {rest spliced : Body .checked}
    {dropRest : Bool}
    (hs : s.isFirstOrder) (hrest : isFirstOrderBody rest)
    (h : s.prune? rest = some (spliced, dropRest)) :
    dropRest = false ∧ isFirstOrderBody spliced ∧ ∀ {ρ : Valuation} {o : Option Value},
      Gives env ρ (.stmt s) (.ending o) → Gives env ρ (.body spliced) (.ending o) := by
  cases s with
  | call m x =>
    simp only [Stmt.prune?] at h
    split at h
    · cases h
    · cases h
      refine ⟨rfl, rfl, ?_⟩
      rintro ρ o ⟨⟩
      exact .bodyNil
  | ifThen m cond yes =>
    obtain ⟨hcond, hyes⟩ := Bool.and_eq_true_iff.mp hs
    obtain ⟨hdrop, ⟨hlit, rfl⟩ | ⟨hlit, rfl⟩⟩ := outcomeOfIf?_eq_some hyes (by simp) hrest h
    · refine ⟨hdrop, hyes, fun hgives => ?_⟩
      cases hgives with
      | ifThen _ hbody => exact hbody
      | skip hfalse => cases Term.eq_of_isLit hlit hfalse
    · refine ⟨hdrop, rfl, fun hgives => ?_⟩
      cases hgives with
      | ifThen htrue _ => cases Term.eq_of_isLit hlit htrue
      | skip _ => exact .bodyNil
  | ifElse m cond yes no =>
    obtain ⟨hs, hno⟩ := Bool.and_eq_true_iff.mp hs
    obtain ⟨hcond, hyes⟩ := Bool.and_eq_true_iff.mp hs
    have hno' : ∀ b ∈ some no, isFirstOrderBody b := by
      rintro b ⟨⟩
      exact hno
    obtain ⟨hdrop, ⟨hlit, rfl⟩ | ⟨hlit, rfl⟩⟩ := outcomeOfIf?_eq_some hyes hno' hrest h
    · refine ⟨hdrop, hyes, fun hgives => ?_⟩
      cases hgives with
      | ifElse b hb hbody =>
        obtain rfl := Term.eq_of_isLit hlit hb
        exact hbody
    · refine ⟨hdrop, hno, fun hgives => ?_⟩
      cases hgives with
      | ifElse b hb hbody =>
        obtain rfl := Term.eq_of_isLit hlit hb
        exact hbody
  | _ => cases h

/-- Pruning keeps a body first-order, and keeps its result. -/
theorem pruneStmts_sound (env : Env) : ∀ {b : Body .checked}, isFirstOrderBody b →
    isFirstOrderBody (pruneStmts b).result ∧ ∀ {ρ : Valuation} {o : Option Value},
      Gives env ρ (.body b) (.ending o) → Gives env ρ (.body (pruneStmts b).result) (.ending o)
  | [], h => ⟨h, id⟩
  | s :: rest, h => by
    obtain ⟨hs, hrest⟩ := Bool.and_eq_true_iff.mp h
    obtain ⟨hfo, hsound⟩ := pruneStmts_sound env (b := rest) hrest
    rw [pruneStmts]
    split
    · next spliced hprune => cases (Stmt.prune?_sound env hs hrest hprune).1
    · next spliced hprune =>
      obtain ⟨-, hspliced, hgives⟩ := Stmt.prune?_sound env hs hrest hprune
      refine ⟨?_, fun hb => ?_⟩
      · simp only [isFirstOrderBody_iff, List.mem_append] at hspliced hfo ⊢
        rintro t (ht | ht)
        · exact hspliced t ht
        · exact hfo t ht
      · cases hb with
        | stop hs => exact gives_append_some _ (hgives hs)
        | next hs hrest => exact gives_append_none (hsound hrest) (hgives hs)
    · refine ⟨Bool.and_eq_true_iff.mpr ⟨hs, hfo⟩, fun hb => ?_⟩
      cases hb with
      | stop hs => exact .stop hs
      | next hs hrest => exact .next hs (hsound hrest)

/-! ## Steps at the root -/

/-- Where one piece of code has a result, the other has the same. -/
def Code.Keeps (env : Env) (c d : Code) : Prop :=
  ∀ ρ r, Gives env ρ c r → Gives env ρ d r

/-- An abstraction with a first-order body. -/
inductive Term.IsFunction : Checked → Prop where
  | mk {note f} : f.isFirstOrder → Term.IsFunction (.mk note (.bind .abs f))

/-- An abstraction with a first-order body that is applied to first-order terms. -/
inductive Term.IsOpened : Checked → Prop where
  | mk {note f args} : f.IsFunction → isFirstOrderList args → Term.IsOpened (.mk note (.app f args))

/-- Whether a form is an application. -/
def Form.isApp : Form .checked → Bool
  | .app _ _ => true
  | _ => false

/-- Whether a form is one of a function that can be called: an abstraction or a global. -/
def Form.isCallable : Form .checked → Bool
  | .bind .abs _ | .atom (.global _) => true
  | _ => false

theorem Term.IsFunction.isCallable {t : Checked} (h : t.IsFunction) : t.form.isCallable := by
  cases h
  rfl

theorem Term.IsOpened.isApp {t : Checked} (h : t.IsOpened) : t.form.isApp := by
  cases h
  rfl

/-- Only functions are called. -/
theorem Gives.isCallable {ρ : Valuation} {t : Checked} {ws : List Value} {r : Result}
    (h : Gives env ρ (.call t ws) r) : t.form.isCallable := by
  cases h <;> rfl

/-- A term may be rewritten to another one: the kinds of terms that occur in normalisation are
kept, and so are values. -/
structure Term.Sound (env : Env) (t u : Checked) : Prop where
  firstOrder : t.isFirstOrder → u.isFirstOrder
  function : t.IsFunction → u.IsFunction
  opened : t.IsOpened → u.isFirstOrder ∨ u.IsOpened
  value : t.isFirstOrder ∨ t.IsOpened → Code.Keeps env (.term t) (.term u)
  call : t.isFirstOrder ∨ t.IsFunction → ∀ ws, Code.Keeps env (.call t ws) (.call u ws)

namespace Term.Sound

theorem refl (t : Checked) : Term.Sound env t t where
  firstOrder := id
  function := id
  opened := .inr
  value _ _ _ h := h
  call _ _ _ _ h := h

theorem trans {t u v : Checked} (htu : t.Sound env u) (huv : u.Sound env v) : t.Sound env v where
  firstOrder h := huv.firstOrder (htu.firstOrder h)
  function h := huv.function (htu.function h)
  opened h := (htu.opened h).elim (fun hu => .inl (huv.firstOrder hu)) huv.opened
  value h ρ r ht := by
    refine huv.value ?_ ρ r (htu.value h ρ r ht)
    rcases h with h | h
    · exact .inl (htu.firstOrder h)
    · exact htu.opened h
  call h ws ρ r ht := by
    refine huv.call ?_ ws ρ r (htu.call h ws ρ r ht)
    rcases h with h | h
    · exact .inl (htu.firstOrder h)
    · exact .inr (htu.function h)

/-- For a term that is no function and applies no abstraction, only the value counts. -/
theorem of_value {t u : Checked} (hcallable : ¬t.form.isCallable) (hopened : ¬t.IsOpened)
    (hfo : t.isFirstOrder → u.isFirstOrder)
    (hvalue : t.isFirstOrder → Code.Keeps env (.term t) (.term u)) : t.Sound env u where
  firstOrder := hfo
  function h := absurd h.isCallable hcallable
  opened h := absurd h hopened
  value h := hvalue (h.resolve_right hopened)
  call _ _ _ _ h := absurd h.isCallable hcallable

/-- Operations and lists are no functions and apply none. -/
theorem of_operation {t u : Checked} (hcallable : t.form.isCallable = false)
    (happ : t.form.isApp = false) (hfo : t.isFirstOrder → u.isFirstOrder)
    (hvalue : t.isFirstOrder → Code.Keeps env (.term t) (.term u)) : t.Sound env u :=
  of_value (Bool.eq_false_iff.mp hcallable) (fun h => Bool.eq_false_iff.mp happ h.isApp) hfo hvalue

end Term.Sound

/-- The element of a list of terms evaluates to the element of the list of their values. -/
theorem gives_getElem? {u : Checked} {w : Value} : ∀ {xs : List Checked} {ws : List Value}
    {i : Nat}, Gives env ρ (.list xs) (.values ws) → xs[i]? = some u → ws[i]? = some w →
      u.Evaluates env ρ w
  | _ :: _, _ :: _, 0, .cons hx _, hu, hw => by
    cases hu
    cases hw
    exact hx
  | _ :: _, _ :: _, _ + 1, .cons _ hxs, hu, hw => gives_getElem? hxs hu hw

theorem isFirstOrder_of_getElem? {xs : List Checked} {u : Checked} {i : Nat}
    (h : isFirstOrderList xs) (hu : xs[i]? = some u) : u.isFirstOrder :=
  isFirstOrderList_iff.mp h u (List.mem_of_getElem? hu)

/-- A list of a struct or sigma type has the names of its fields. -/
theorem Env.layout?_of_fields? {ty : Checked} {fs : Fields .checked}
    (h : env.fields? ty = some fs) : env.layout? ty = some fs.names := by
  unfold Env.layout?
  split
  · next hform => simp [Env.fields?, Env.structOf?, hform] at h
  · next hform => simp [Env.fields?, Env.structOf?, hform] at h
  · next hform => simp [Env.fields?, Env.structOf?, hform] at h
  · rw [h]
    rfl

theorem Tele.positionOf?_eq (fs : Fields .checked) (field : String) :
    fs.positionOf? field = fs.names.findIdx? (· = some field) := by
  rw [Tele.names, List.findIdx?_map]
  rfl

theorem isFirstOrderList_dropElements? {args xs : List Checked} (h : isFirstOrderList args)
    (hxs : dropElements? args = some xs) : isFirstOrderList xs := by
  obtain ⟨note, ys, hys, hsub⟩ := dropElements?_eq_some hxs
  have hlist : isFirstOrderList ys := isFirstOrderList_iff.mp h _ hys
  exact isFirstOrderList_iff.mpr fun t ht => isFirstOrderList_iff.mp hlist t (hsub.subset ht)

theorem Env.function?_of_isBuiltinSlice {g : GlobalName} (h : env.isBuiltinSlice g) :
    env.function? g = none := by
  simp only [Env.isBuiltinSlice, Bool.and_eq_true, Option.isNone_iff_eq_none] at h
  rw [Env.function?, h.2]

/-- Beta reduction and folding keep values. -/
theorem Term.Steps.sound {t u : Checked} (h : Term.Steps env t u) : t.Sound env u := by
  cases h with
  | because =>
    refine .of_operation rfl rfl (fun h => (Bool.and_eq_true_iff.mp h).1) fun _ ρ r h => ?_
    cases h with
    | because hx => exact hx
  | @supply note fnote f args _ _ _ =>
    -- the abstraction takes its arguments in, and stays applied
    have hopened : Term.IsOpened (.mk note (.app (.mk fnote (.bind .abs f)) args)) →
        f.isFirstOrder ∧ isFirstOrderList args := by
      rintro ⟨⟨hf⟩, hargs⟩
      exact ⟨hf, hargs⟩
    refine ⟨fun h => absurd h Bool.false_ne_true, fun h => absurd h.isCallable Bool.false_ne_true,
      fun h => .inr ?_, fun h ρ r hr => ?_,
      fun _ _ _ _ h => absurd h.isCallable Bool.false_ne_true⟩
    · obtain ⟨hf, hargs⟩ := hopened h
      exact .mk (.mk (Tele.isFirstOrder_apply hf hargs)) rfl
    · obtain ⟨hf, hargs⟩ := hopened (h.resolve_left Bool.false_ne_true)
      cases hr with
      | app hactuals hcall =>
        cases hcall with
        | abs henter hbody =>
          obtain ⟨b', henter', hbody'⟩ := Tele.gives_apply hf hargs hactuals henter hbody
          exact .app .nil (.abs henter' hbody')
  | @ret note fnote f _ _ hbody =>
    have hopened : Term.IsOpened (.mk note (.app (.mk fnote (.bind .abs f)) [])) →
        u.isFirstOrder := by
      rintro ⟨⟨hf⟩, -⟩
      exact (Bool.and_eq_true_iff.mp (Tele.isFirstOrder_of_body? hf hbody)).1
    refine ⟨fun h => absurd h Bool.false_ne_true, fun h => absurd h.isCallable Bool.false_ne_true,
      fun h => .inl (hopened h), fun h ρ r hr => ?_,
      fun _ _ _ _ h => absurd h.isCallable Bool.false_ne_true⟩
    cases hr with
    | app hactuals hcall =>
      cases hactuals
      cases hcall with
      | abs henter hrun =>
        cases f with
        | arg => cases henter
        | runs m ty body =>
          cases henter
          cases hbody
          cases hrun with
          | stop hs =>
            cases hs with
            | ret he => exact he
          | next hs _ => cases hs
  | not =>
    refine .of_operation rfl rfl (fun _ => rfl) fun _ ρ r h => ?_
    cases h with
    | not hx =>
      cases hx
      exact .lit
  | logic =>
    refine .of_operation rfl rfl (fun _ => rfl) fun _ ρ r h => ?_
    cases h with
    | logic hx hy hc =>
      cases hx
      cases hy
      obtain rfl := BoolOp.eval_eq_iff.mpr hc
      exact .lit
  | @compare note op x y o ho =>
    refine .of_operation rfl rfl (fun _ => rfl) fun _ ρ r h => ?_
    obtain ⟨xnote, xform⟩ := x
    obtain ⟨ynote, yform⟩ := y
    unfold compareLiterals? at ho
    split at ho
    · next hx hy =>
      cases hx
      cases hy
      cases ho
      cases h with
      | compareInt hx hy hc =>
        cases hx
        cases hy
        obtain rfl := RelOp.eval_compare_int_eq_iff.mpr hc
        exact .lit
      | compareBool hx _ => cases hx
    · next hx hy =>
      cases hx
      cases hy
      cases ho
      cases h with
      | compareInt hx _ => cases hx
      | compareBool hx hy hc =>
        cases hx
        cases hy
        obtain rfl := RelOp.eval_compare_bool_eq_iff.mpr hc
        exact .lit
    · cases ho
  | @arith note op x y n hn =>
    refine .of_operation rfl rfl (fun _ => rfl) fun _ ρ r h => ?_
    obtain ⟨xnote, xform⟩ := x
    obtain ⟨ynote, yform⟩ := y
    unfold arithResult? at hn
    split at hn
    · next hx hy =>
      cases hx
      cases hy
      obtain ⟨ty, hty, hn⟩ := Option.bind_eq_some_iff.mp hn
      obtain ⟨t, ht, hn⟩ := Option.bind_eq_some_iff.mp hn
      obtain ⟨m, hm, hn⟩ := Option.bind_eq_some_iff.mp hn
      cases hn
      cases h with
      | arith hx hy hty' ht' hm' hstored =>
        cases hx
        cases hy
        cases hty.symm.trans hty'
        cases ht.symm.trans ht'
        cases (ArithOp.eval?_eq_some_iff.mp hm).unique hm'
        obtain rfl := IntType.wrap_eq_iff.mpr hstored
        exact .num
    · cases hn
  | @member note field x u hu =>
    obtain ⟨xnote, xform⟩ := x
    obtain ⟨xs, ty, fs, i, hform, hty, hfs, hi, hget⟩ := selectMember?_eq_some hu
    cases hform
    refine .of_operation rfl rfl (fun h => isFirstOrder_of_getElem? h hget) fun _ ρ r h => ?_
    cases h with
    | member hx hi' hw =>
      cases hx with
      | listOf hty' hnames hxs =>
        cases hty.symm.trans hty'
        cases (Env.layout?_of_fields? hfs).symm.trans hnames
        rw [Tele.positionOf?_eq] at hi
        cases hi.symm.trans hi'
        exact gives_getElem? hxs hget hw
  | @element note x y u hu =>
    obtain ⟨xnote, xform⟩ := x
    obtain ⟨ynote, yform⟩ := y
    obtain ⟨xs, n, i, hx, hy, hi, hget⟩ := selectElement?_eq_some hu
    cases hx
    cases hy
    refine .of_operation rfl rfl
      (fun h => isFirstOrder_of_getElem? (Bool.and_eq_true_iff.mp h).1 hget) fun _ ρ r h => ?_
    cases h with
    | subscript hx hy hi' hw =>
      cases hx with
      | listOf _ _ hxs =>
        cases hy
        cases hi.symm.trans (position?_eq_some_iff.mpr hi')
        exact gives_getElem? hxs hget hw
  | slice hslice hxs =>
    -- the function that is built in has no definition to run
    refine .of_value Bool.false_ne_true (by rintro ⟨⟨⟩⟩) (fun h => ?_) fun _ ρ r h => ?_
    · simp only [Term.isFirstOrder, Form.isFirstOrder, Bool.and_eq_true] at h
      exact isFirstOrderList_dropElements? h.2 hxs
    · cases h with
      | app _ hcall =>
        cases hcall with
        | global hf _ _ =>
          rw [Env.function?_of_isBuiltinSlice hslice] at hf
          cases hf

theorem Term.sound_reduce (env : Env) (t : Checked) : t.Sound env (t.reduce env).result :=
  Term.reduce_induction (P := fun u => t.Sound env u) (fun _ _ h hstep => h.trans hstep.sound)
    (.refl t)

/-! ## Unfolding -/

/-- A call of a first-order term opens an abstraction that has the same value. -/
theorem Term.unfolding?_sound {stack : List GlobalName} {t call : Checked} {g : GlobalName}
    (henv : ∀ g f, env.function? g = some f → f.isFirstOrder)
    (h : t.unfolding? env stack = some (g, call)) (ht : t.isFirstOrder) :
    call.IsOpened ∧ Code.Keeps env (.term t) (.term call) := by
  unfold Term.unfolding? at h
  split at h
  · split at h
    · next f hf =>
      split at h
      · cases h
        simp only [Term.isFirstOrder, Form.isFirstOrder, Bool.and_eq_true] at ht
        refine ⟨.mk (.mk (henv _ _ hf)) ht.2, fun ρ r hr => ?_⟩
        cases hr with
        | app hargs hcall =>
          cases hcall with
          | global hf' henter hbody =>
            -- the body of a global uses none of the variables around the call
            cases hf.symm.trans hf'
            obtain ⟨σ, henter', hσ, hb⟩ :=
              Tele.enter?_within henter (Nat.le_refl _) (Valuation.within_empty _ ρ)
            exact .app hargs (.abs henter' (hbody.within (hσ.mono hb)))
      · cases h
    · cases h
  · cases h

theorem Term.IsOpened.isStuck {t : Checked} (h : t.IsOpened) : t.isStuck := by
  obtain ⟨⟨-⟩, -⟩ := h
  rfl

/-- A term that can be unfolded is no function, and applies no abstraction. -/
theorem Term.not_isOpened_of_unfolding? {stack : List GlobalName} {t : Checked}
    {r : GlobalName × Checked} (h : t.unfolding? env stack = some r) :
    ¬t.form.isCallable ∧ ¬t.IsOpened := by
  unfold Term.unfolding? at h
  split at h
  · refine ⟨Bool.false_ne_true, ?_⟩
    rintro ⟨⟨⟩⟩
  · cases h

/-! ## Passes -/

/-- What one pass over a subject must keep. -/
def Subject.Sound (env : Env) : Subject → Subject → Prop
  | .term t, .term u | .parts t, .parts u | .call t, .call u => t.Sound env u
  | .list xs, .list ys =>
    isFirstOrderList xs → isFirstOrderList ys ∧ Code.Keeps env (.list xs) (.list ys)
  | .tele f, .tele g => f.isFirstOrder → g.isFirstOrder ∧ ∀ ρ ws ρ' b o,
    f.enter? ρ ws = some (ρ', b) → Gives env ρ' (.body b) (.ending o) →
      ∃ b', g.enter? ρ ws = some (ρ', b') ∧ Gives env ρ' (.body b') (.ending o)
  | .body b, .body c | .stmts b, .stmts c =>
    isFirstOrderBody b → isFirstOrderBody c ∧
      ∀ ρ o, Gives env ρ (.body b) (.ending o) → Gives env ρ (.body c) (.ending o)
  | .stmt s, .stmt s' =>
    s.isFirstOrder → s'.isFirstOrder ∧
      ∀ ρ o, Gives env ρ (.stmt s) (.ending o) → Gives env ρ (.stmt s') (.ending o)
  | _, _ => True

/-- Every pass of normalisation keeps results, if the functions of the environment have first-order
bodies. -/
theorem Rewrites.sound (henv : ∀ g f, env.function? g = some f → f.isFirstOrder)
    {stack : List GlobalName} {a b : Subject} {c : Bool} (h : Rewrites env stack a b c) :
    a.Sound env b := by
  induction h with
  | again _ _ _ _ parts call again =>
    exact parts.trans ((Term.sound_reduce env _).trans (Term.Sound.trans call again))
  | done _ _ _ parts call => exact parts.trans ((Term.sound_reduce env _).trans call)
  | atom => exact .refl _
  | var => exact .refl _
  | unary _ ih =>
    refine .of_operation rfl rfl ih.firstOrder fun hfo ρ r h => ?_
    cases h with
    | not hx => exact .not (ih.value (.inl hfo) _ _ hx)
    | member hx hi hw => exact .member (ih.value (.inl hfo) _ _ hx) hi hw
  | binary _ _ ihx ihy =>
    refine .of_operation rfl rfl (fun hfo => ?_) fun hfo ρ r h => ?_
    · obtain ⟨hx, hy⟩ := Bool.and_eq_true_iff.mp hfo
      exact Bool.and_eq_true_iff.mpr ⟨ihx.firstOrder hx, ihy.firstOrder hy⟩
    · obtain ⟨hfx, hfy⟩ := Bool.and_eq_true_iff.mp hfo
      have hx := ihx.value (.inl hfx) ρ
      have hy := ihy.value (.inl hfy) ρ
      cases h with
      | subscript hx' hy' hi hw => exact .subscript (hx _ hx') (hy _ hy') hi hw
      | because hx' => exact .because (hx _ hx')
      | logic hx' hy' hc => exact .logic (hx _ hx') (hy _ hy') hc
      | compareInt hx' hy' hc => exact .compareInt (hx _ hx') (hy _ hy') hc
      | compareBool hx' hy' hc => exact .compareBool (hx _ hx') (hy _ hy') hc
      | arith hx' hy' hty ht hn hm => exact .arith (hx _ hx') (hy _ hy') hty ht hn hm
  | app _ _ ihf ihargs =>
    refine ⟨fun hfo => ?_, fun h => absurd h.isCallable Bool.false_ne_true,
      fun hopened => .inr ?_, fun h ρ r hr => ?_,
      fun _ _ _ _ h => absurd h.isCallable Bool.false_ne_true⟩
    · obtain ⟨hf, hargs⟩ := Bool.and_eq_true_iff.mp hfo
      exact Bool.and_eq_true_iff.mpr ⟨ihf.firstOrder hf, (ihargs hargs).1⟩
    · obtain ⟨hf, hargs⟩ := hopened
      exact .mk (ihf.function hf) (ihargs hargs).1
    · cases hr with
      | app hactuals hcall =>
        rcases h with hfo | hopened
        · obtain ⟨hf, hargs⟩ := Bool.and_eq_true_iff.mp hfo
          exact .app ((ihargs hargs).2 _ _ hactuals) (ihf.call (.inl hf) _ _ _ hcall)
        · obtain ⟨hf, hargs⟩ := hopened
          exact .app ((ihargs hargs).2 _ _ hactuals) (ihf.call (.inr hf) _ _ _ hcall)
  | list _ ih =>
    refine .of_operation rfl rfl (fun hfo => (ih hfo).1) fun hfo ρ r h => ?_
    cases h with
    | listOf hty hnames hxs => exact .listOf hty hnames ((ih hfo).2 _ _ hxs)
  | bind _ ih =>
    refine ⟨id, ?_, nofun, fun _ _ _ h => (by cases h), fun h ws ρ r hr => ?_⟩
    · rintro ⟨hf⟩
      exact .mk (ih hf).1
    · cases hr with
      | abs henter hbody =>
        obtain ⟨hf⟩ := h.resolve_left nofun
        obtain ⟨b', henter', hbody'⟩ := (ih hf).2 _ _ _ _ _ henter hbody
        exact .abs henter' hbody'
  | nil => exact fun _ => ⟨rfl, fun _ _ h => h⟩
  | cons _ _ ihx ihxs =>
    intro hfo
    obtain ⟨hx, hxs⟩ := Bool.and_eq_true_iff.mp hfo
    refine ⟨Bool.and_eq_true_iff.mpr ⟨ihx.firstOrder hx, (ihxs hxs).1⟩, fun ρ r h => ?_⟩
    cases h with
    | cons hx' hxs' => exact .cons (ihx.value (.inl hx) _ _ hx') ((ihxs hxs).2 _ _ hxs')
  | fields => exact fun _ => ⟨rfl, fun _ _ _ _ _ h => nomatch h⟩
  | returns _ _ => exact fun _ => ⟨rfl, fun _ _ _ _ _ h => nomatch h⟩
  | runs _ _ _ ih =>
    intro hfo
    refine ⟨(ih hfo).1, fun ρ ws ρ' b o henter hbody => ?_⟩
    cases ws with
    | nil =>
      cases henter
      exact ⟨_, rfl, (ih hfo).2 _ _ hbody⟩
    | cons => cases henter
  | arg _ _ _ ih =>
    intro hfo
    refine ⟨(ih hfo).1, fun ρ ws ρ' b o henter hbody => ?_⟩
    cases ws with
    | nil => cases henter
    | cons w ws => exact (ih hfo).2 _ ws _ _ _ henter hbody
  | @unfold stack t g call u c hunfold _ hstuck ih =>
    obtain ⟨hcallable, hopened⟩ := Term.not_isOpened_of_unfolding? hunfold
    -- the result is kept only if no abstraction is applied in it, so that it is first-order
    have hu : call.IsOpened → u.isFirstOrder := by
      intro h
      refine (ih.opened h).resolve_right fun hu => ?_
      rw [hu.isStuck] at hstuck
      cases hstuck
    refine .of_value hcallable hopened (fun ht => ?_) fun ht ρ r hr => ?_
    · exact hu (Term.unfolding?_sound henv hunfold ht).1
    · obtain ⟨hcall, hkeeps⟩ := Term.unfolding?_sound henv hunfold ht
      exact ih.value (.inr hcall) _ _ (hkeeps _ _ hr)
  | keep => exact .refl _
  | bodyAgain _ _ _ stmts again =>
    intro hfo
    obtain ⟨hfo₁, h₁⟩ := stmts (isFirstOrderBody_dropUnreachable _ hfo)
    obtain ⟨hfo₂, h₂⟩ := pruneStmts_sound env hfo₁
    obtain ⟨hfo₃, h₃⟩ := again hfo₂
    exact ⟨hfo₃, fun ρ o h => h₃ _ _ (h₂ (h₁ _ _ (gives_dropUnreachable _ h)))⟩
  | bodyDone _ _ stmts =>
    intro hfo
    obtain ⟨hfo₁, h₁⟩ := stmts (isFirstOrderBody_dropUnreachable _ hfo)
    obtain ⟨hfo₂, h₂⟩ := pruneStmts_sound env hfo₁
    exact ⟨hfo₂, fun ρ o h => h₂ (h₁ _ _ (gives_dropUnreachable _ h))⟩
  | stmtsNil => exact fun _ => ⟨rfl, fun _ _ h => h⟩
  | stmtsStop _ _ ih =>
    intro hfo
    obtain ⟨hs, hrest⟩ := Bool.and_eq_true_iff.mp hfo
    refine ⟨Bool.and_eq_true_iff.mpr ⟨(ih hs).1, hrest⟩, fun ρ o h => ?_⟩
    cases h with
    | stop h => exact .stop ((ih hs).2 _ _ h)
    | next h hafter => exact .next ((ih hs).2 _ _ h) hafter
  | stmtsNext _ _ _ ihs ihrest =>
    intro hfo
    obtain ⟨hs, hrest⟩ := Bool.and_eq_true_iff.mp hfo
    refine ⟨Bool.and_eq_true_iff.mpr ⟨(ihs hs).1, (ihrest hrest).1⟩, fun ρ o h => ?_⟩
    cases h with
    | stop h => exact .stop ((ihs hs).2 _ _ h)
    | next h hafter => exact .next ((ihs hs).2 _ _ h) ((ihrest hrest).2 _ _ hafter)
  | stmtCall _ ih =>
    refine fun hfo => ⟨ih.firstOrder hfo, fun ρ o h => ?_⟩
    cases h with
    | stmtCall hx => exact .stmtCall (ih.value (.inl hfo) _ _ hx)
  | ifThen _ _ ihcond ihyes =>
    intro hfo
    obtain ⟨hcond, hyes⟩ := Bool.and_eq_true_iff.mp hfo
    refine ⟨Bool.and_eq_true_iff.mpr ⟨ihcond.firstOrder hcond, (ihyes hyes).1⟩, fun ρ o h => ?_⟩
    cases h with
    | ifThen hc hb => exact .ifThen (ihcond.value (.inl hcond) _ _ hc) ((ihyes hyes).2 _ _ hb)
    | skip hc => exact .skip (ihcond.value (.inl hcond) _ _ hc)
  | ifElse _ _ _ ihcond ihyes ihno =>
    intro hfo
    obtain ⟨hfo, hno⟩ := Bool.and_eq_true_iff.mp hfo
    obtain ⟨hcond, hyes⟩ := Bool.and_eq_true_iff.mp hfo
    refine ⟨Bool.and_eq_true_iff.mpr ⟨Bool.and_eq_true_iff.mpr
      ⟨ihcond.firstOrder hcond, (ihyes hyes).1⟩, (ihno hno).1⟩, fun ρ o h => ?_⟩
    cases h with
    | ifElse b hc hb =>
      refine .ifElse b (ihcond.value (.inl hcond) _ _ hc) ?_
      cases b with
      | true => exact (ihyes hyes).2 _ _ hb
      | false => exact (ihno hno).2 _ _ hb
  | ret _ ih =>
    refine fun hfo => ⟨ih.firstOrder hfo, fun ρ o h => ?_⟩
    cases h with
    | ret hx => exact .ret (ih.value (.inl hfo) _ _ hx)
  | retUnit => exact fun _ => ⟨rfl, fun _ _ h => h⟩
  | impossible => exact nofun
  | impossibleBy _ _ => exact nofun

end DependentCore
