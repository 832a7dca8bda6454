import DependentCore.Proofs.Globals.Root
import DependentCore.Proofs.Globals.References
import DependentCore.Proofs.Reduction.Addressed
import DependentCore.Proofs.Typing.Addressed
import DependentCore.Proofs.Typing.Returned

/-!
# Only variables are addressed

The operand of an address is written as a variable, but nothing keeps a call from replacing the
variable. If a function without effects addresses its argument, a call of it with a number is
reduced to the address of the number; and the same happens to a type that addresses an argument
(`numbers_are_addressed`). Where no argument that may be replaced is addressed, nothing but
variables ever is.

* `Item.SparesArguments`: nothing is addressed in structs, signatures and functions without effects;
  a function with effects may address its arguments, since its calls are not unfolded,
* `Env.ShowsEffects`: a reference to a function with effects shows that it has some,
* `only_variables_are_addressed`: then only variables are addressed, in what is checked and in its
  normal form.
-/

namespace DependentCore

variable {p : Phase} {env : Env} {fuel : Nat}

/-! ## Items -/

/-- Nothing is addressed in structs, signatures and functions without effects. In the body of a
function with effects any variables are, but for the arguments of abstractions in it. -/
def Item.AddressesWithEffect : Item p → Prop
  | .defined f => f.signature.AddressesIn (fun _ => False) ∧
      ∀ b, f.body? = some b → AddressesInBody (fun _ => f.mutability = .yes) b
  | item => item.AddressesIn fun _ => False

/-- No argument that may be replaced is addressed. In the body of a function, the arguments of
abstractions are also none of the variables that their types address. -/
structure Item.SparesArguments (item : Item .written) : Prop where
  addresses : item.AddressesWithEffect
  apart : ∃ K : Var → Prop, ∀ f b, item = .defined f → f.body? = some b →
    EverywhereBody (Term.BindsApart K) b

theorem Item.AddressesWithEffect.interface {item : Item p} (h : item.AddressesWithEffect) :
    item.interface.AddressesIn fun _ => False := by
  cases item with
  | defined f => exact h.1
  | integer | struct | declared | external => exact h

theorem Tele.addressesNothing_of_bare {k : Binder} {t : Tele p k}
    (hbare : t.bare.AddressesIn fun _ => False)
    (hbody : ∀ b, t.body? = some b → AddressesInBody (fun _ => False) b) :
    t.AddressesIn fun _ => False := by
  induction k, t using Tele.args_induction with
  | fields | returns => exact hbare
  | runs _ _ body => exact ⟨hbare, hbody body rfl⟩
  | arg _ _ _ _ _ _ ih =>
    exact ⟨hbare.1, (ih (hbare.2.mono fun _ hy => hy.2) hbody).mono fun _ => False.elim⟩

theorem Env.plain_of_all (h : env.All Item.AddressesWithEffect) : env.Plain :=
  fun _ _ hget => (h.of_get? hget).interface

/-- What spares its arguments is checked to an item that addresses variables in bodies with effects
only. -/
theorem establishes_addressesWithEffect (fuel : Nat) :
    Establishes fuel Item.SparesArguments Item.AddressesWithEffect := by
  intro env loc item item' hall hitem hcheck
  have henv := Env.plain_of_all hall
  cases Item.accepts_of_checkItem hcheck with
  | integer => trivial
  | struct h => exact h.addressesNothing henv .empty hitem.addresses
  | declared h | external h =>
    exact h.addressesNothing henv Context.AddressesIn.empty hitem.addresses
  | @defined f f' h =>
    obtain ⟨hsig, hbody⟩ := hitem.addresses
    have hmut : f'.mutability = f.mutability := congrArg Prod.snd h.outline_eq
    have hapart : ∃ K : Var → Prop, (∀ y, K y → f.mutability = .yes) ∧
        ∀ b, f.body? = some b → EverywhereBody (Term.BindsApart K) b := by
      cases hm : f.mutability with
      | yes =>
        obtain ⟨K, hK⟩ := hitem.apart
        exact ⟨K, fun _ _ => rfl, fun b hb => hK f b rfl hb⟩
      | no =>
        refine ⟨fun _ => False, nofun, fun b hb => AddressesInBody.bindsApart ?_⟩
        exact (hbody b hb).mono fun _ hyes => by cases hm.symm.trans hyes
    obtain ⟨K, hK, hbinds⟩ := hapart
    refine ⟨h.bare.addressesNothing henv Context.AddressesIn.empty hsig, ?_⟩
    rw [hmut]
    exact h.body_addressesIn henv Context.AddressesIn.empty hsig hK
      fun b hb => ⟨hbody b hb, hbinds b hb⟩

theorem Env.Built.addressesWithEffect (h : env.Built Item.SparesArguments) :
    env.All Item.AddressesWithEffect :=
  h.all establishes_addressesWithEffect fun _ hf => ⟨hf.addresses.1, fun _ => False, nofun⟩

theorem Item.AddressesWithEffect.everywhere {item : Item .checked} (h : item.AddressesWithEffect) :
    item.Everywhere Term.AddressesVariable := by
  cases item with
  | integer => trivial
  | struct fs => exact Tele.AddressesIn.everywhere (t := fs) h
  | declared s | external s => exact Tele.AddressesIn.everywhere (t := s) h
  | defined f =>
    exact Tele.everywhere_of_bare h.1.everywhere fun b hb => AddressesInBody.everywhere (h.2 b hb)

/-! ## References -/

theorem Tele.mutability_signature (f : Function p) : f.signature.mutability = f.mutability :=
  congrArg Prod.snd f.outline_bare

/-- The references in what an environment holds show effects. -/
def Env.ShowsEffects (env : Env) : Prop :=
  ∀ g e, env.get? g = some e → e.item.Everywhere (Term.References env.ShowsEffect)

theorem Env.showsEffect_of_assignGlobal {ctx : Context} {loc : Location} {g : GlobalName}
    {t : Checked} (h : assignGlobal env ctx loc g = .ok t) :
    t.References env.ShowsEffect := by
  unfold assignGlobal at h
  split at h
  · next e hget =>
    split at h
    · next s hs =>
      cases h
      intro f hf hmut
      obtain ⟨_, _, hget'⟩ := Env.get?_of_function? hf
      cases hget.symm.trans hget'
      cases hs
      exact decide_eq_true (f.mutability_signature.trans hmut)
    · next hs =>
      cases h
      intro f hf _
      obtain ⟨_, _, hget'⟩ := Env.get?_of_function? hf
      cases hget.symm.trans hget'
      cases hs
  · next hnone =>
    split at h
    · cases h
      intro f hf _
      obtain ⟨_, _, hget⟩ := Env.get?_of_function? hf
      cases hnone.symm.trans hget
    · cases h

/-- The references in what is checked show effects too. -/
theorem nodeInvariant_showsEffect (h : env.ShowsEffects) :
    NodeInvariant env (Term.References env.ShowsEffect) :=
  nodeInvariant_references (substitutive_showsEffect env)
    (fun _ _ _ _ => Env.showsEffect_of_assignGlobal) h

/-- A reference that resolves shows effects, unless it was to the function `slice` that is built
in and refers to another one now. -/
theorem Env.Resolves.showsEffect (hslice : env.get? sliceName = none) {g : GlobalName}
    {note : Note .checked Checked} (h : env.Resolves SameOutline g note) :
    env.ShowsEffect g note := by
  intro f hf hmut
  obtain ⟨_, _, hget⟩ := Env.get?_of_function? hf
  cases h with
  | type hget' hs =>
    cases hget.symm.trans hget'
    cases hs
  | function hget' hs houtline =>
    cases hget.symm.trans hget'
    cases hs
    have hshown : _ = f.signature.mutability := congrArg Prod.snd houtline
    exact decide_eq_true (hshown.trans (f.mutability_signature.trans hmut))
  | builtin hg =>
    rw [hg, hslice] at hget
    cases hget

/-- In the root module references show effects, as long as no function is named `slice`. -/
theorem Env.BuiltAtRoot.showsEffects (h : env.BuiltAtRoot) (hslice : env.get? sliceName = none) :
    env.ShowsEffects := by
  intro g e hget
  have hitem : e.item.Everywhere (Term.References (env.Resolves SameOutline)) :=
    h.stored (fun _ => unitInvariant_everywhere) hget
  exact hitem.mono fun _ ht => ht.mono fun _ _ hnote => hnote.showsEffect hslice

/-! ## Normal forms -/

theorem Env.showsEffect_of_modules_eq {limits : Env} (h : limits.modules = env.modules) :
    limits.ShowsEffect = env.ShowsEffect := by
  have hget (g : GlobalName) : limits.get? g = env.get? g := by rw [Env.get?, h, Env.get?]
  unfold Env.ShowsEffect Env.function?
  simp only [hget]

theorem Env.ShowsEffects.of_modules_eq {limits : Env} (hshown : env.ShowsEffects)
    (h : limits.modules = env.modules) : limits.ShowsEffects := by
  intro g e hget
  rw [Env.get?, h] at hget
  rw [Env.showsEffect_of_modules_eq h]
  exact hshown g e hget

/-- Functions without effects address nothing, and others are not unfolded. -/
theorem Env.Built.unfoldsPlain (h : env.Built Item.SparesArguments) (hshown : env.ShowsEffects) :
    env.UnfoldsPlain where
  plain {_ f} hf hmut := by
    obtain ⟨hsig, hbody⟩ : Item.AddressesWithEffect (.defined f) :=
      h.addressesWithEffect.of_function? hf
    refine Tele.addressesNothing_of_bare hsig fun b hb => (hbody b hb).mono fun _ hyes => ?_
    cases hmut.symm.trans hyes
  shows hf := by
    obtain ⟨_, _, hget⟩ := Env.get?_of_function? hf
    exact hshown _ _ hget

theorem Env.UnfoldsPlain.addressesIn_of_normalize? (henv : env.UnfoldsPlain) {S : Var → Prop}
    {n : Nat} {t u : Checked} (hu : env.normalize? n t = some u) (ht : t.AddressesIn S)
    (href : t.Everywhere (Term.References env.ShowsEffect)) : u.AddressesIn S := by
  obtain ⟨⟨r, left⟩, hr, rfl⟩ := Option.map_eq_some_iff.mp hu
  exact ((rewrites_of_run env n).1 [] t _ _ _ hr).addressesIn henv href ht

theorem Env.UnfoldsPlain.addressesIn_of_normalizeBody? (henv : env.UnfoldsPlain) {S : Var → Prop}
    {n : Nat} {stack : List GlobalName} {b u : Body .checked}
    (hu : env.normalizeBody? n stack b = some u) (hb : AddressesInBody S b)
    (href : EverywhereBody (Term.References env.ShowsEffect) b) : AddressesInBody S u := by
  obtain ⟨_, hrewrites⟩ := Env.rewrites_of_normalizeBody? hu
  exact hrewrites.addressesIn henv href hb

/-- Only the bodies of functions are rewritten. -/
theorem Env.UnfoldsPlain.addressesWithEffect_of_normalizeEntry? (henv : env.UnfoldsPlain) {n : Nat}
    {e e' : Entry .checked} (he' : env.normalizeEntry? n e = some e')
    (he : e.item.AddressesWithEffect)
    (href : e.item.Everywhere (Term.References env.ShowsEffect)) :
    e'.item.AddressesWithEffect := by
  rcases Env.normalizeEntry?_cases he' with
    ⟨rfl, -⟩ | ⟨f, f', b, b', c, hf, hf', hbare, hb, hb', hrewrites⟩
  · exact he
  · rw [hf] at he href
    rw [hf']
    have hmut : f'.mutability = f.mutability := by
      rw [← f'.mutability_signature, Tele.signature, hbare]
      exact f.mutability_signature
    refine ⟨show f'.bare.AddressesIn _ from hbare ▸ he.1, fun _ h => ?_⟩
    cases hb'.symm.trans h
    rw [hmut]
    exact hrewrites.addressesIn henv (Tele.Everywhere.body? href hb) (he.2 b hb)

/-! ## Main results -/

/-- Consider an environment that is built from items where no argument that may be replaced is
addressed, and whose references show effects, as they do in the root module. Terms and bodies are
checked in a context where types address variables of a set `K`. They do not address the arguments
of abstractions and types in their scope, and these arguments are not in `K`. Then nothing but a
variable is addressed in what they are checked to, in the items of the environment and of units that
are checked, and in the normal forms of all these, with any limits on unfolding. -/
theorem only_variables_are_addressed {env limits : Env} (hbuilt : env.Built Item.SparesArguments)
    (hshown : env.ShowsEffects) (hlimits : limits.modules = env.modules) :
    (∀ fuel ctx e t K, env.Opens ctx → ctx.AddressesIn K → e.AddressesIn (fun _ => True) →
      e.Everywhere (Term.BindsApart K) →
      (env.assign fuel ctx e = .ok t ∨ env.checkType fuel ctx e = .ok t ∨
        ∃ ty, env.Returns ty ∧ ty.AddressesIn (fun _ => True) ∧ env.check fuel ctx e ty = .ok t) →
      t.Everywhere Term.AddressesVariable ∧
        ∀ n u, limits.normalize? n t = some u → u.Everywhere Term.AddressesVariable) ∧
    (∀ fuel ctx b ret b' K, env.Opens ctx → ctx.AddressesIn K → AddressesInBody (fun _ => True) b →
      EverywhereBody (Term.BindsApart K) b → env.Returns ret → ret.AddressesIn (fun _ => True) →
      env.checkBody fuel ctx b ret = .ok b' →
      EverywhereBody Term.AddressesVariable b' ∧
        ∀ n stack u, limits.normalizeBody? n stack b' = some u →
          EverywhereBody Term.AddressesVariable u) ∧
    (∀ g e, env.get? g = some e → e.item.Everywhere Term.AddressesVariable ∧
      ∀ n e', limits.normalizeEntry? n e = some e' → e'.item.Everywhere Term.AddressesVariable) ∧
    (∀ start fuel entries es, start.Built Item.SparesArguments →
      (∀ e ∈ entries, e.item.SparesArguments) →
      (checkUnit fuel entries).run.run start = (.ok es, env) →
      ∀ e ∈ es, e.item.Everywhere Term.AddressesVariable ∧
        (start.BuiltAtRoot → env.get? sliceName = none → ∀ n e',
          limits.normalizeEntry? n e = some e' → e'.item.Everywhere Term.AddressesVariable)) := by
  have hplain := Env.plain_of_all hbuilt.addressesWithEffect
  have hP := nodeInvariant_showsEffect hshown
  have hunfolds : limits.UnfoldsPlain :=
    Env.Built.unfoldsPlain (hbuilt.limits hlimits) (hshown.of_modules_eq hlimits)
  have hsame := Env.showsEffect_of_modules_eq hlimits
  refine ⟨fun fuel ctx e t K hopens hctx he hb ht => ?_,
    fun fuel ctx b ret b' K hopens hctx hb hbinds hret hret' hb' => ?_, fun g e hget => ?_,
    fun start fuel entries es hstart hentries hunit e he => ?_⟩
  · obtain ⟨mode, hmode, hmode', ht⟩ : ∃ mode : Mode, mode.AddressesIn (fun _ => True) ∧
        mode.Everywhere (Term.References env.ShowsEffect) ∧
        e.elaborate fuel env ctx mode = .ok t := by
      rcases ht with ht | ht | ⟨ty, hty, hty', ht⟩
      · exact ⟨.assign, .assign, .assign, ht⟩
      · exact ⟨.type, .type, hP.mode_type, ht⟩
      · exact ⟨.check ty, .check hty', .check (hty.everywhere hP), ht⟩
    have haccepts := Term.accepts_of_elaborate e ht
    have haddresses := haccepts.addressesIn hplain hctx (fun _ _ => trivial) hmode he hb
    have href := haccepts.everywhere hP (hopens.everywhere hP) hmode'
    refine ⟨haddresses.everywhere, fun n u hu => ?_⟩
    exact (hunfolds.addressesIn_of_normalize? hu haddresses (hsame ▸ href)).everywhere
  · have haccepts := acceptsBody_of_elaborate b hb'
    have haddresses :=
      haccepts.addressesIn hplain hctx.newScope (fun _ _ => trivial) hret' hb hbinds
    have href := Env.everywhere_checkBody hP (hopens.everywhere hP) (hret.everywhere hP) hb'
    refine ⟨AddressesInBody.everywhere haddresses, fun n stack u hu => ?_⟩
    exact AddressesInBody.everywhere
      (hunfolds.addressesIn_of_normalizeBody? hu haddresses (hsame ▸ href))
  · have hitem := hbuilt.addressesWithEffect.of_get? hget
    refine ⟨hitem.everywhere, fun n e' he' => ?_⟩
    exact (hunfolds.addressesWithEffect_of_normalizeEntry? he' hitem
      (hsame ▸ hshown g e hget)).everywhere
  · have hkeeps := (checkUnit_keeps (establishes_addressesWithEffect fuel)
      (fun f hf => ⟨hf.addresses.1, fun _ => False, nofun⟩) hentries start
      hstart.addressesWithEffect).2 es (by rw [hunit])
    refine ⟨(hkeeps e he).everywhere, fun hroot hslice n e' he' => ?_⟩
    have href : e.item.Everywhere (Term.References (env.Resolves SameOutline)) :=
      hroot.checked (fun _ => unitInvariant_everywhere) hunit e he
    have href' := href.mono fun _ ht => ht.mono fun _ _ hnote => hnote.showsEffect hslice
    exact (hunfolds.addressesWithEffect_of_normalizeEntry? he' (hkeeps e he)
      (hsame ▸ href')).everywhere

/-- The functions `twice(u64 x) -> u64 { return x + x; }` and
`peek(u64 x) mutable -> u64 { return deref(addressof(x)); }`. -/
def peekUnit : List (Entry .written) :=
  let at0 (form : Form .written) : Written := .mk (.place {} rfl) form
  let u64 := at0 (.atom (.int .u64))
  let x := at0 (.var { name := "x" })
  [⟨{}, "twice", .defined (.arg {} .many u64 (some { name := "x" })
      (.runs .no u64 [.ret {} (at0 (.binary (.arith .plus) x x))]))⟩,
    ⟨{}, "peek", .defined (.arg {} .many u64 (some { name := "x" })
      (.runs .yes u64 [.ret {} (at0 (.unary .deref (at0 (.unary .addressOf x))))]))⟩]

/-- The environment in the end. -/
def peekEnv : Env :=
  ((checkUnit 16 peekUnit).run.run {}).2

/-- The written type `array_t(u8, deref(addressof(y)))`. -/
def bytesAt : Written :=
  let at0 (form : Form .written) : Written := .mk (.place {} rfl) form
  let y := at0 (.var { name := "y" })
  at0 (.binary .arrayT (at0 (.atom (.int ⟨.unsigned, .w8⟩)))
    (at0 (.unary .deref (at0 (.unary .addressOf y)))))

/-- The address of a number as checked. -/
def addressAs (x : Checked) : Checked :=
  Checked.term (Checked.type (.binary .refT Checked.u64 (Checked.scopeOf x))) (.unary .addressOf x)

/-- The number at the address of a number. -/
def derefOf (x : Checked) : Checked :=
  Checked.term Checked.u64 (.unary .deref (addressAs x))

/-- The type `array_t(u8, deref(addressof(x)))` as checked. -/
def bytesAtAs (x : Checked) : Checked :=
  Checked.type (.binary .arrayT (Checked.type (.atom (.int ⟨.unsigned, .w8⟩))) (derefOf x))

/-- The variable `y` as checked. -/
def yAs : Checked :=
  Checked.term Checked.u64 (.var { name := "y" })

/-- A context with a number `y` and an array `a` of as many bytes, in code with effects. -/
def bytesContext : Context :=
  ((Context.newScopeOf {} .yes).withDecl { name := "y" } ⟨none, .term .many Checked.u64⟩).withDecl
    { name := "a" } ⟨none, .term .many (bytesAtAs yAs)⟩

/-- The call of `(u64 z, array_t(u8, deref(addressof(y))) b) mutable -> u64` with the body
`return peek(twice(3)) + z;` for `deref(addressof(y))` and `a`. -/
def peekCall : Written :=
  let at0 (form : Form .written) : Written := .mk (.place {} rfl) form
  let var (name : String) := at0 (.var { name := name })
  let call (name : String) (x : Written) := at0 (.app (at0 (.atom (.global { name := name }))) [x])
  let u64 := at0 (.atom (.int .u64))
  let sum := at0 (.binary (.arith .plus) (call "peek" (call "twice" (at0 (.atom (.num 3)))))
    (var "z"))
  let f := at0 (.bind .abs (.arg {} .many u64 (some { name := "z" })
    (.arg {} .many bytesAt (some { name := "b" }) (.runs .yes u64 [.ret {} sum]))))
  at0 (.app f [at0 (.unary .deref (at0 (.unary .addressOf (var "y")))), var "a"])

/-- The sum `peek(6) + deref(addressof(y))` as checked. -/
def peekSum : Checked :=
  let s : Signature .checked :=
    .arg () .many Checked.u64 (some { name := "x" }) (.returns .yes Checked.u64)
  let peek := Checked.term (Checked.pi s) (.atom (.global { name := "peek" }))
  let call := Checked.term Checked.u64 (.app peek [Checked.term Checked.u64 (.atom (.num 6))])
  Checked.term Checked.u64 (.binary (.arith .plus) call (derefOf yAs))

theorem sparesArguments_of_mem_peekUnit : ∀ e ∈ peekUnit, e.item.SparesArguments := by
  intro e he
  simp only [peekUnit, List.mem_cons, List.not_mem_nil, or_false] at he
  rcases he with rfl | rfl
  all_goals
    refine ⟨?_, fun _ => False, ?_⟩
    · simp [Item.AddressesWithEffect, Tele.signature, Tele.bare, Tele.body?, Tele.mutability,
        Tele.AddressesIn, Term.AddressesIn, Note.AddressesIn, Form.AddressesIn, AddressesInBody,
        Stmt.AddressesIn, Term.form, Form.AddressableIn]
    · rintro f b ⟨⟩ ⟨⟩
      simp [EverywhereBody, Stmt.Everywhere, Term.Everywhere, Note.Everywhere, Form.Everywhere,
        Term.BindsApart]

theorem peekEnv_opens_bytesContext : peekEnv.Opens bytesContext := by
  have hu64 : peekEnv.checkType 16 {} (.mk (.place {} rfl) (.atom (.int .u64)))
      = .ok Checked.u64 := by decide +kernel
  let ctx := (Context.newScopeOf {} .yes).withDecl { name := "y" } ⟨none, .term .many Checked.u64⟩
  have hctx : peekEnv.Opens ctx := .declareTerm (.newScope .yes .empty) (.checkType .empty hu64) rfl
  have hbytes : peekEnv.checkType 16 ctx bytesAt = .ok (bytesAtAs yAs) := by
    decide +kernel +zetaReduce
  have hdeclare : ctx.declare { name := "a" } ⟨none, .term .many (bytesAtAs yAs)⟩
      = .ok bytesContext := rfl
  exact .declareTerm hctx (.checkType hctx hbytes) hdeclare

theorem bytesContext_addressesIn : bytesContext.AddressesIn (· = { name := "y" }) := by
  refine Context.AddressesIn.withDecl (Context.AddressesIn.withDecl .empty _ ?_) _ ?_
  · exact ⟨⟨trivial, trivial⟩, trivial⟩
  · simp [Meaning.AddressesIn, bytesAtAs, derefOf, addressAs, yAs, Checked.u64, Checked.type,
      Checked.term, Checked.typename, Checked.scopeOf, Checked.scope, Term.AddressesIn,
      Note.AddressesIn, Form.AddressesIn, Term.form, Form.AddressableIn]

/-- The argument of `peek` is addressed in its body, and `y` in the type of `a` and of an argument.
The call of the abstraction is reduced and `twice` is unfolded, but `peek` is not. -/
theorem only_variables_are_addressed_peek :
    peekEnv.Built Item.SparesArguments ∧ peekEnv.ShowsEffects ∧ peekEnv.Opens bytesContext ∧
      ∃ t, peekEnv.assign 16 bytesContext peekCall = .ok t ∧
        t.Everywhere Term.AddressesVariable ∧ peekEnv.normalize? 32 t = some peekSum ∧
        peekSum.Everywhere Term.AddressesVariable := by
  have hbuilt : peekEnv.Built Item.SparesArguments :=
    Env.Built.checkUnit (.empty rfl) sparesArguments_of_mem_peekUnit
  have hroot : peekEnv.BuiltAtRoot := .check (.empty rfl) rfl
  have hshown := hroot.showsEffects (by decide +kernel)
  have hcall : peekCall.AddressesIn fun _ => True := by
    simp [peekCall, bytesAt, Term.AddressesIn, Note.AddressesIn, Form.AddressesIn, Tele.AddressesIn,
      AddressesInList, AddressesInBody, Stmt.AddressesIn, Term.form, Form.AddressableIn]
  have hbinds : peekCall.Everywhere (Term.BindsApart (· = { name := "y" })) := by
    simp [peekCall, bytesAt, Term.Everywhere, Note.Everywhere, Form.Everywhere, Tele.Everywhere,
      EverywhereList, EverywhereBody, Stmt.Everywhere, Term.BindsApart, Tele.BindsApart,
      Term.AddressesIn, Note.AddressesIn, Form.AddressesIn, Term.form, Form.AddressableIn]
  have hassign : ∃ t, peekEnv.assign 16 bytesContext peekCall = .ok t ∧
      peekEnv.normalize? 32 t = some peekSum := by decide +kernel
  obtain ⟨t, ht, hnormal⟩ := hassign
  obtain ⟨hterms, -⟩ := only_variables_are_addressed hbuilt hshown rfl
  obtain ⟨haddresses, hnormals⟩ := hterms 16 bytesContext peekCall t (· = { name := "y" })
    peekEnv_opens_bytesContext bytesContext_addressesIn hcall hbinds (.inl ht)
  exact ⟨hbuilt, hshown, peekEnv_opens_bytesContext, t, ht, haddresses, hnormal,
    hnormals 32 peekSum hnormal⟩

/-! ## Where an argument is addressed -/

/-- The function `name(u64 x) -> ret { return result; }`, with effects or not. -/
def numberFunction (name : String) (m : Mutability) (ret result : Written) : Entry .written :=
  let u64 : Written := .mk (.place {} rfl) (.atom (.int .u64))
  ⟨{}, name, .defined (.arg {} .many u64 (some { name := "x" }) (.runs m ret [.ret {} result]))⟩

/-- If an argument that may be replaced is addressed, a number comes to be addressed.

* A function without effects: `at(u64 x) -> ref_t(u64, scopeof(x)) { return addressof(x); }`, where
  the normal form of `at(5)` is `addressof(5)`.
* A signature: `bytes: (u64 x) -> array_t(u8, deref(addressof(x)))`, where the type of `bytes(5)` is
  `array_t(u8, deref(addressof(5)))`.
* An argument with the name of a variable that the type of `a` addresses: the normal form of the
  call of `(u64 y) -> u8 { return a[0]; }` for `5` is `a[0]`, where `a` has that type now.
* A function `f` without effects that is called in `g` as `f(5)`, and later a function `f` with
  effects in an inner module, which addresses its argument: the normal form of `g` there addresses
  the number. -/
theorem numbers_are_addressed :
    let at0 (form : Form .written) : Written := .mk (.place {} rfl) form
    let u64 := at0 (.atom (.int .u64))
    let u8 := at0 (.atom (.int ⟨.unsigned, .w8⟩))
    let x := at0 (.var { name := "x" })
    let callFive (f : Form .written) := at0 (.app (at0 f) [at0 (.atom (.num 5))])
    let callOf (name : String) := callFive (.atom (.global { name := name }))
    let deref := at0 (.unary .deref (at0 (.unary .addressOf x)))
    let five := Checked.term Checked.u64 (.atom (.num 5))
    let after (start : Env) (entries : List (Entry .written)) :=
      ((checkUnit 16 entries).run.run start).2
    (∀ v, five.form ≠ .var v) ∧
    (let atFunction := numberFunction "at" .no (at0 (.binary .refT u64 (at0 (.unary .scopeOf x))))
        (at0 (.unary .addressOf x))
      let env := after {} [atFunction]
      ∃ t, env.assign 16 {} (callOf "at") = .ok t ∧ env.normalize? 16 t = some (addressAs five)) ∧
    (let bytes : Entry .written := ⟨{}, "bytes", .external (.arg {} .many u64 (some { name := "x" })
        (.returns .no (at0 (.binary .arrayT u8 deref))))⟩
      ∃ t, (after {} [bytes]).assign 16 {} (callOf "bytes") = .ok t ∧
        t.sort? = some (bytesAtAs five)) ∧
    (let first := at0 (.binary .subscript (at0 (.var { name := "a" })) (at0 (.atom (.num 0))))
      let call := callFive
        (.bind .abs (.arg {} .many u64 (some { name := "y" }) (.runs .no u8 [.ret {} first])))
      ∃ t u, peekEnv.assign 16 bytesContext call = .ok t ∧ peekEnv.normalize? 16 t = some u ∧
        u.form = .binary .subscript (Checked.term (bytesAtAs five) (.var { name := "a" }))
          (Checked.term Checked.u64 (.atom (.num 0)))) ∧
    (let g : Entry .written := ⟨{}, "g", .defined (.runs .no u64 [.ret {} (callOf "f")])⟩
      let env := after {} [numberFunction "f" .no u64 x, g]
      let env' := after (env.enter ["m"]) [numberFunction "f" .yes u64 deref]
      ∃ e, env.get? { name := "g" } = some e ∧ (env'.normalizeEntry? 32 e).map (·.item) =
        some (.defined (.runs .no Checked.u64 [.ret () (derefOf five)]))) := by
  intro at0 u64 u8 x callFive callOf deref five after
  refine ⟨by rintro v ⟨⟩, by decide +kernel +zetaReduce, by decide +kernel +zetaReduce, ?_,
    by decide +kernel +zetaReduce⟩
  intro first call
  have hcall : ∃ t, peekEnv.assign 16 bytesContext call = .ok t ∧
      ∃ u, peekEnv.normalize? 16 t = some u ∧
        u.form = .binary .subscript (Checked.term (bytesAtAs five) (.var { name := "a" }))
          (Checked.term Checked.u64 (.atom (.num 0))) := by
    decide +kernel +zetaReduce
  obtain ⟨t, ht, u, hu, hform⟩ := hcall
  exact ⟨t, u, ht, hu, hform⟩

end DependentCore
