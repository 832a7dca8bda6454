import DependentCore.Proofs.Globals.References
import DependentCore.Proofs.Globals.Stored
import DependentCore.Proofs.Reduction.Everywhere
import DependentCore.Proofs.Typing.Returned

/-!
# No placeholder survives

A placeholder `auto` is written for an argument that is left to be inferred. The checker puts the
value that it finds in its place, and it rejects a placeholder anywhere else; so what it returns has
none, neither in the terms nor in their sorts, and normalisation adds none.

* `Term.IsFilled`: a node is no placeholder,
* `nodeInvariant_isFilled`, `rewriteInvariant_isFilled`: checking and normalisation maintain this,
* `checked_isFilled`: there are no placeholders in what they return, nor in the environment.
-/

namespace DependentCore

variable {p : Phase}

/-- A node is no placeholder. -/
def Term.IsFilled (t : Term p) : Prop :=
  t.form ≠ .atom .auto

theorem Term.isFilled_iff {t : Term p} : t.IsFilled ↔ t.form.head ≠ .atom .auto :=
  not_congr ⟨fun h => h ▸ rfl, Form.eq_atom_of_head⟩

theorem substitutive_isFilled : Substitutive (Term.IsFilled (p := p)) where
  rename x y t h := by
    rw [Term.isFilled_iff] at h ⊢
    rwa [Term.head_rename]
  subst x r t hne h := by
    rw [Term.isFilled_iff] at h ⊢
    rwa [Term.head_subst hne]

section
variable {env : Env} {fuel : Nat}

/-- Placeholders are not among the nodes that the checker puts in. -/
theorem nodeInvariant_isFilled
    (hstored : ∀ g e, env.get? g = some e → e.item.Everywhere Term.IsFilled) :
    NodeInvariant env Term.IsFilled where
  substitutive := substitutive_isFilled
  compound t hatom _ := hatom .auto
  literal note a hvalue _ _ h := by
    cases h
    cases hvalue
  numeral _ _ _ _ _ := nofun
  global ctx loc g t ht := by
    obtain ⟨note, rfl, -⟩ := Env.resolves_of_assignGlobal ht
    exact nofun
  stored := hstored

/-- Nor are they among those that normalisation puts in. -/
theorem rewriteInvariant_isFilled
    (hdefined : ∀ {g f}, env.function? g = some f → f.Everywhere Term.IsFilled) :
    RewriteInvariant env Term.IsFilled where
  substitutive := substitutive_isFilled
  parts h hhead := by
    rw [Term.isFilled_iff, Term.form] at h ⊢
    rwa [hhead]
  literal _ _ := nofun
  number _ := nofun
  list _ := nofun
  function _ := nofun
  signature _ _ := nofun
  unfold _ _ := nofun
  defined := hdefined

theorem establishes_isFilled : Establishes fuel (fun _ => True) (Item.Everywhere Term.IsFilled) :=
  fun _ _ _ _ hall _ h =>
    (Item.accepts_of_checkItem h).everywhere (nodeInvariant_isFilled fun _ _ he => hall.of_get? he)

/-- In an environment that arises from an empty one by checking entries, there are no placeholders
in what it stores, in what is checked to be added to it and in the normal form of that; nor are
there in the terms and bodies that are checked in it, where the types in scope and the type that is
asked for have none. -/
theorem checked_isFilled (hbuilt : env.Built fun _ => True) :
    env.All (Item.Everywhere Term.IsFilled) ∧
    (∀ fuel entries es env', (checkUnit fuel entries).run.run env = (.ok es, env') →
      (∀ e ∈ es, e.item.Everywhere Term.IsFilled) ∧ env'.All (Item.Everywhere Term.IsFilled) ∧
      ∀ limits : Env, limits.modules = env'.modules →
        ∀ n es', limits.normalizeUnit? n es = some es' →
          ∀ e ∈ es', e.item.Everywhere Term.IsFilled) ∧
    (∀ fuel ctx e t, ctx.Everywhere Term.IsFilled → env.assign fuel ctx e = .ok t →
      t.Everywhere Term.IsFilled) ∧
    (∀ fuel ctx e ty t, ctx.Everywhere Term.IsFilled → ty.Everywhere Term.IsFilled →
      env.check fuel ctx e ty = .ok t → t.Everywhere Term.IsFilled) ∧
    (∀ fuel ctx b ret b', ctx.Everywhere Term.IsFilled → ret.Everywhere Term.IsFilled →
      env.checkBody fuel ctx b ret = .ok b' → EverywhereBody Term.IsFilled b') := by
  have hall : env.All (Item.Everywhere Term.IsFilled) :=
    hbuilt.all (fun _ => establishes_isFilled) fun _ _ => trivial
  have hP := nodeInvariant_isFilled fun _ _ he => hall.of_get? he
  refine ⟨hall, fun fuel entries es env' hunit => ?_, ?_, ?_, ?_⟩
  · have hkeeps : Declaring.Keeps (Env.All (Item.Everywhere Term.IsFilled)) (checkUnit fuel entries)
        fun es => ∀ e ∈ es, e.item.Everywhere Term.IsFilled :=
      checkUnit_keeps establishes_isFilled (fun _ _ => trivial) fun _ _ => trivial
    obtain ⟨hall', hes⟩ := hkeeps env hall
    rw [hunit] at hall' hes
    refine ⟨hes es rfl, hall', fun limits hmodules n es' hnormal => ?_⟩
    have hlimits : limits.All (Item.Everywhere Term.IsFilled) := fun e he =>
      hall' e (hmodules ▸ he)
    exact Env.everywhere_of_normalizeUnit? (rewriteInvariant_isFilled hlimits.of_function?) hnormal
      (hes es rfl)
  · exact fun fuel ctx e t hctx ht => (Term.accepts_of_elaborate e ht).everywhere hP hctx .assign
  · exact fun fuel ctx e ty t hctx hty ht =>
      (Term.accepts_of_elaborate e ht).everywhere hP hctx (.check hty)
  · exact fun fuel ctx b ret b' hctx hret hb => Env.everywhere_checkBody hP hctx hret hb

end

/-- The function `id(0 typename t, t x) -> t { return x; }`, and `main(u64 y) -> u64` that returns
`id(auto, y)`. -/
def identityUnit : List (Entry .written) :=
  let at0 (form : Form .written) : Written := .mk (.place {} rfl) form
  let var (name : String) := at0 (.var { name := name })
  let u64 := at0 (.atom (.int .u64))
  let call := at0 (.app (at0 (.atom (.global { name := "id" }))) [at0 (.atom .auto), var "y"])
  [⟨{}, "id", .defined (.arg {} .zero (at0 (.atom .typename)) (some { name := "t" })
      (.arg {} .many (var "t") (some { name := "x" }) (.runs .no (var "t") [.ret {} (var "x")])))⟩,
    ⟨{}, "main", .defined (.arg {} .many u64 (some { name := "y" })
      (.runs .no u64 [.ret {} call]))⟩]

/-- The unit as checked, where the term that `main` returns is given. -/
def identityUnitAs (result : Checked) : List (Entry .checked) :=
  let t := Checked.type (.var { name := "t" })
  [⟨(), "id", .defined (.arg () .zero Checked.typename (some { name := "t" })
      (.arg () .many t (some { name := "x" })
        (.runs .no t [.ret () (Checked.term t (.var { name := "x" }))])))⟩,
    ⟨(), "main", .defined (.arg () .many Checked.u64 (some { name := "y" })
      (.runs .no Checked.u64 [.ret () result]))⟩]

/-- The variable `y` of `main`. -/
def identityArgument : Checked :=
  Checked.term Checked.u64 (.var { name := "y" })

/-- The call `id(u64, y)`. -/
def identityCall : Checked :=
  let t := Checked.type (.var { name := "t" })
  let s : Signature .checked := .arg () .zero Checked.typename (some { name := "t" })
    (.arg () .many t (some { name := "x" }) (.returns .no t))
  Checked.term Checked.u64 (.app (Checked.term (Checked.pi s) (.atom (.global { name := "id" })))
    [Checked.u64, identityArgument])

/-- The environment in the end. -/
def identityEnv : Env :=
  ((checkUnit 20 identityUnit).run.run {}).2

/-- The placeholder in `main` is filled with `u64`, and there is none in the normal form. -/
theorem checked_isFilled_of_inferred :
    (checkUnit 20 identityUnit).run.run {} = (.ok (identityUnitAs identityCall), identityEnv) ∧
      identityEnv.normalizeUnit? 20 (identityUnitAs identityCall)
        = some (identityUnitAs identityArgument) ∧
      (∀ e ∈ identityUnitAs identityCall, e.item.Everywhere Term.IsFilled) ∧
      identityEnv.All (Item.Everywhere Term.IsFilled) ∧
      ∀ e ∈ identityUnitAs identityArgument, e.item.Everywhere Term.IsFilled := by
  have hchecked : ((checkUnit 20 identityUnit).run.run {}).1
      = .ok (identityUnitAs identityCall) := by decide +kernel
  have hunit : (checkUnit 20 identityUnit).run.run {}
      = (.ok (identityUnitAs identityCall), identityEnv) := Prod.ext hchecked rfl
  have hnormal : identityEnv.normalizeUnit? 20 (identityUnitAs identityCall)
      = some (identityUnitAs identityArgument) := by decide +kernel
  obtain ⟨hes, hall, hunits⟩ := (checked_isFilled (.empty rfl)).2.1 20 identityUnit _ _ hunit
  exact ⟨hunit, hnormal, hes, hall, hunits identityEnv rfl 20 _ hnormal⟩

end DependentCore
