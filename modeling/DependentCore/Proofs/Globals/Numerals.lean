import DependentCore.Proofs.Globals.References
import DependentCore.Proofs.Globals.Root
import DependentCore.Proofs.Integers
import DependentCore.Proofs.Reduction.Everywhere
import DependentCore.Proofs.Typing.Returned

/-!
# Numbers are in the range of their type

A number is checked against the type that is asked for, and arithmetic is folded at the type of its
node, wrapping around. Numbers are then moved from place to place by substitution, inlining and the
selection from lists, and they carry their type along.

* `Term.NumeralFits`: if a node is a number, its sort is an integer type that contains it,
* `nodeInvariant_numeralFits`, `rewriteInvariant_numeralFits`: the checker and normalisation
  maintain that numbers fit,
* `numerals_fit`: so they do in everything that is checked, and in normal forms.
-/

namespace DependentCore

/-- If a node is a number, its sort is an integer type, aliases resolved, that contains the
number. -/
def Term.NumeralFits (env : Env) (t : Checked) : Prop :=
  ∀ n, t.form = .atom (.num n) →
    ∃ ty it, t.sort? = some ty ∧ env.intType? ty = some it ∧ it.contains n

/-! ## Integer types -/

section
variable {env env' : Env}

/-- Which integer type a type stands for depends on its head only. -/
theorem Env.intType?_congr {ty ty' : Checked} (h : ty'.form.head = ty.form.head) :
    env.intType? ty' = env.intType? ty := by
  obtain ⟨_, form⟩ := ty
  obtain ⟨_, form'⟩ := ty'
  cases form with
  | atom a =>
    cases Form.eq_atom_of_head h
    rfl
  | _ =>
    cases form' with
    | atom => cases h
    | _ => rfl

theorem Env.exists_atom_of_intType? {ty : Checked} {it : IntType} (h : env.intType? ty = some it) :
    ∃ a, ty.form = .atom a := by
  unfold Env.intType? at h
  split at h
  · next hform => exact ⟨_, hform⟩
  · next hform => exact ⟨_, hform⟩
  · cases h

/-- Aliases of integer types are not redefined. -/
theorem Env.Grows.intType? {R : Signature .checked → Signature .checked → Prop}
    (hgrows : env.Grows R env') {ty : Checked} {it : IntType} (h : env.intType? ty = some it) :
    env'.intType? ty = some it := by
  unfold Env.intType? at h ⊢
  split at h
  · exact h
  · next g hform =>
    split at h
    · next hget =>
      cases h
      obtain ⟨⟨_, _, item⟩, hget', hitem | ⟨s, f, hs, -⟩⟩ := hgrows g _ hget
      · obtain rfl : item = _ := hitem
        simp only [hget']
      · cases hs
    · cases h
  · cases h

end

/-! ## Numbers that fit -/

section
variable {env env' : Env}

theorem substitutive_numeralFits (env : Env) : Substitutive (Term.NumeralFits env) where
  rename x y t h n hn := by
    have hform : t.form = .atom (.num n) :=
      Form.eq_atom_of_head (by rw [← Term.head_rename x y, hn]; rfl)
    obtain ⟨ty, it, hty, hit, hfits⟩ := h n hform
    refine ⟨ty.rename x y, it, ?_, ?_, hfits⟩
    · rw [Term.sort?_rename, hty, Option.map_some]
    · rw [Env.intType?_congr (Term.head_rename x y ty), hit]
  subst x r t hne h n hn := by
    have hform : t.form = .atom (.num n) :=
      Form.eq_atom_of_head (by rw [← Term.head_subst hne, hn]; rfl)
    obtain ⟨ty, it, hty, hit, hfits⟩ := h n hform
    obtain ⟨a, ha⟩ := Env.exists_atom_of_intType? hit
    have hvar : ty.form ≠ .var x := by rw [ha]; exact nofun
    refine ⟨ty.subst x r, it, ?_, ?_, hfits⟩
    · rw [Term.sort?_subst hne, hty, Option.map_some]
    · rw [Env.intType?_congr (Term.head_subst hvar), hit]

theorem Term.NumeralFits.grow {R : Signature .checked → Signature .checked → Prop}
    (hgrows : env.Grows R env') {t : Checked} (h : t.NumeralFits env) : t.NumeralFits env' := by
  intro n hn
  obtain ⟨ty, it, hty, hit, hfits⟩ := h n hn
  exact ⟨ty, it, hty, hgrows.intType? hit, hfits⟩

/-- The checker puts in a number only if it is in the range of its type. -/
theorem nodeInvariant_numeralFits
    (hstored : ∀ g e, env.get? g = some e → e.item.Everywhere (Term.NumeralFits env)) :
    NodeInvariant env (Term.NumeralFits env) where
  substitutive := substitutive_numeralFits env
  compound t hatom _ n hn := absurd hn (hatom _)
  literal note a _ hnum _ n hn := absurd (Form.atom.inj hn) (hnum n)
  numeral n ty it hit hfits m hm := by
    cases hm
    exact ⟨ty, it, rfl, hit, hfits⟩
  global ctx loc g t ht := by
    obtain ⟨note, rfl, -⟩ := Env.resolves_of_assignGlobal ht
    exact nofun
  stored := hstored

/-- Normalisation puts in a number only after wrapping it around. -/
theorem rewriteInvariant_numeralFits
    (hdefined : ∀ {g f}, env.function? g = some f → f.Everywhere (Term.NumeralFits env)) :
    RewriteInvariant env (Term.NumeralFits env) where
  substitutive := substitutive_numeralFits env
  parts h hhead n hn := by
    refine h n (Form.eq_atom_of_head ?_)
    rw [Term.form] at hn ⊢
    rw [← hhead, hn]
    rfl
  literal _ _ := nofun
  number hn m hm := by
    cases hm
    obtain ⟨ty, it, m, hty, hit, rfl⟩ := arithResult?_eq_some hn
    exact ⟨ty, it, hty, hit, it.contains_wrap m⟩
  list _ := nofun
  function _ := nofun
  signature _ _ := nofun
  unfold _ _ := nofun
  defined := hdefined

theorem unitInvariant_numeralFits (fuel : Nat) : UnitInvariant fuel (fun _ => True) SameOutline
    fun env _ item => item.Everywhere (Term.NumeralFits env) :=
  unitInvariant_of_nodeInvariant nodeInvariant_numeralFits fun hgrows h => h.grow hgrows

end

/-- In an environment that arises by checking units in the root module, every number is in the range
of the integer type that its sort stands for: in what the environment holds, in the terms and bodies
that are checked in it, and in the units that are checked to be added to it. And where all numbers
of a term or body and of the functions of the environment are in range, so are those of the normal
form, with any limits on unfolding. -/
theorem numerals_fit :
    (∀ env : Env, env.BuiltAtRoot →
      (∀ g e, env.get? g = some e → e.item.Everywhere (Term.NumeralFits env)) ∧
      (∀ t, env.Returns t → t.Everywhere (Term.NumeralFits env)) ∧
      (∀ fuel ctx b ret b', env.Opens ctx → env.Returns ret →
        env.checkBody fuel ctx b ret = .ok b' → EverywhereBody (Term.NumeralFits env) b') ∧
      (∀ fuel entries es env', (checkUnit fuel entries).run.run env = (.ok es, env') →
        ∀ e ∈ es, e.item.Everywhere (Term.NumeralFits env'))) ∧
    (∀ env : Env, (∀ g f, env.function? g = some f → f.Everywhere (Term.NumeralFits env)) →
      (∀ fuel stack attempts t u left, t.Everywhere (Term.NumeralFits env) →
        (normalizeTerm env fuel stack t).run attempts = some (u, left) →
          u.result.Everywhere (Term.NumeralFits env)) ∧
      (∀ fuel stack attempts b u left, EverywhereBody (Term.NumeralFits env) b →
        (normalizeBody env fuel stack b).run attempts = some (u, left) →
          EverywhereBody (Term.NumeralFits env) u.result)) := by
  refine ⟨fun env hbuilt => ?_, fun env hdefined => ?_⟩
  · have hP := nodeInvariant_numeralFits fun _ _ he =>
      hbuilt.stored unitInvariant_numeralFits he
    refine ⟨hP.stored, fun t ht => ht.everywhere hP, fun fuel ctx b ret b' hctx hret hb => ?_,
      fun fuel entries es env' hunit => ?_⟩
    · exact Env.everywhere_checkBody hP (hctx.everywhere hP) (hret.everywhere hP) hb
    · exact hbuilt.checked unitInvariant_numeralFits hunit
  · have hP := rewriteInvariant_numeralFits fun hf => hdefined _ _ hf
    exact ⟨fun _ _ _ _ _ _ ht h => everywhere_of_normalizeTerm hP h ht,
      fun _ _ _ _ _ _ hb h => everywhere_of_normalizeBody hP h hb⟩

/-- The call `twice(200)`. -/
def twiceCall : Written :=
  let at0 (form : Form .written) : Written := .mk (.place {} rfl) form
  at0 (.app (at0 (.atom (.global { name := "twice" }))) [at0 (.atom (.num 200))])

def byteType : Checked :=
  Checked.type (.atom (.global { name := "byte" }))

/-- The call as checked. -/
def twiceCallAs : Checked :=
  let s : Signature .checked :=
    .arg () .many byteType (some { name := "y" }) (.returns .no byteType)
  Checked.term byteType
    (.app (Checked.term (Checked.pi s) (.atom (.global { name := "twice" })))
      [Checked.term byteType (.atom (.num 200))])

/-- The number 200 is a byte, and so is 144, which is 400 wrapped around. -/
theorem numerals_fit_twice :
    forwardEnv.BuiltAtRoot ∧ forwardEnv.assign 16 {} twiceCall = .ok twiceCallAs ∧
      twiceCallAs.Everywhere (Term.NumeralFits forwardEnv) ∧
      ∃ u left, (normalizeTerm forwardEnv 16 [] twiceCallAs).run 1 = some (u, left) ∧
        u.result = Checked.term byteType (.atom (.num 144)) ∧
        u.result.Everywhere (Term.NumeralFits forwardEnv) := by
  have hbuilt : forwardEnv.BuiltAtRoot := .check (.empty rfl) rfl
  have hassign : forwardEnv.assign 16 {} twiceCall = .ok twiceCallAs := by
    decide +kernel +zetaReduce
  obtain ⟨hstored, hreturns, -⟩ := numerals_fit.1 forwardEnv hbuilt
  have ht := hreturns twiceCallAs (.assign .empty hassign)
  have hnormal : ∃ r, (normalizeTerm forwardEnv 16 [] twiceCallAs).run 1 = some r ∧
      r.1.result = Checked.term byteType (.atom (.num 144)) := by decide +kernel +zetaReduce
  obtain ⟨⟨u, left⟩, hu, hresult⟩ := hnormal
  refine ⟨hbuilt, hassign, ht, u, left, hu, hresult, ?_⟩
  refine (numerals_fit.2 forwardEnv fun g f hf => ?_).1 16 [] 1 _ u left ht hu
  obtain ⟨_, _, hget⟩ := Env.get?_of_function? hf
  exact hstored g _ hget

end DependentCore
