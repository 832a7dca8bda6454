import DependentCore.Proofs.Globals.References
import DependentCore.Proofs.Globals.Rejected

/-!
# Signatures of definitions

While the body of a function is checked, the name of the function stands for a declaration, and
calls of the function in its own body are checked against the signature of that declaration. The
function has this signature in the end, although it is checked a second time, along with the body:
in code that may have effects, and in an environment that knows one more name.

Nothing has to be assumed about the environment. Its entries may even mention the new name before
it is declared: normalisation does the same with a name that stands for nothing as with one that
stands for a declaration.

* `DeclaredFor`: the environment in which the body is checked, and the signature declared there,
* `DeclaredFor.coupled`: this environment differs in one declaration at most, so that
  `signature_eq_of_coupled` applies,
* `definition_has_declared_signature`: the signature of a definition.
-/

namespace DependentCore

variable {fuel : Nat} {env env' : Env}

/-! ## The declaration of a function -/

/-- The environment in which the body of a function is checked, and the signature that the function
is declared with in it: the name refers to a declaration from before, or the signature is declared
under a name that is new. -/
inductive DeclaredFor (fuel : Nat) (env : Env) (loc : Location) (name : String)
    (f : Function .written) : Env → Signature .checked → Prop where
  | before {mark other d} : env.get? { name := name } = some ⟨mark, other, .declared d⟩ →
    DeclaredFor fuel env loc name f env d
  | now {d env₁} : env.get? { name := name } = none →
    f.signature.elaborate fuel env (Context.newScope {}) loc = .ok d →
    env.insert? name ⟨(), name, .declared d⟩ = some env₁ →
    DeclaredFor fuel env loc name f env₁ d

namespace DeclaredFor

variable {loc : Location} {name : String} {f : Function .written} {during : Env}
  {d : Signature .checked}

theorem coupled (h : DeclaredFor fuel env loc name f during d) (hslice : name ≠ "slice") :
    env.Coupled .identity (fun _ => True) during := by
  cases h with
  | before => exact env.coupled_refl
  | now hnew _ hinsert => exact Env.coupled_insert? hslice hnew hinsert

theorem get?_eq (h : DeclaredFor fuel env loc name f during d) :
    ∃ mark other, during.get? { name := name } = some ⟨mark, other, .declared d⟩ := by
  cases h with
  | before hget => exact ⟨_, _, hget⟩
  | now _ _ hinsert => exact ⟨(), name, by rw [Env.get?_insert? hinsert, if_pos rfl]⟩

/-- What the name of the function is in its body. -/
theorem assignGlobal_eq (h : DeclaredFor fuel env loc name f during d) (ctx : Context)
    (place : Location) :
    assignGlobal during ctx place { name := name } =
      .ok (Checked.term (Checked.pi d) (.atom (.global { name := name }))) := by
  obtain ⟨mark, other, hget⟩ := h.get?_eq
  rw [assignGlobal, hget]
  rfl

end DeclaredFor

/-- A definition that is accepted is checked under a declaration of its signature, which it
replaces. -/
theorem declaredFor_of_checkDefinition {loc : Location} {name : String} {f : Function .written}
    {e : Entry .checked} (hold : ∀ old, env.get? { name := name } = some old → old.item.isDeclared)
    (h : (checkDefinition fuel loc name f).run.run env = (.ok e, env')) :
    ∃ during d s f', DeclaredFor fuel env loc name f during d ∧
      checkItem fuel env loc (.declared f.signature) = .ok (.declared s) ∧ d.alphaEq s ∧
      checkItem fuel during loc (.defined f) = .ok (.defined f') ∧
      e = ⟨(), name, .defined f'⟩ ∧ during.insert? name e = some env' := by
  obtain ⟨s, f', hs, he, hcases⟩ := checkDefinition_eq_ok h
  rcases hcases with ⟨_, _, d, hget, halpha, hf, hinsert⟩ | ⟨hnot, during, hdeclare, hf, hinsert⟩
  · -- the declaration may be in a module around the current one, where it remains
    exact ⟨env, d, s, f', .before hget, hs, halpha, hf, he, hinsert⟩
  · have hnew : env.get? { name := name } = none := by
      cases hget : env.get? { name := name } with
      | none => rfl
      | some old =>
        have hdeclared := hold old hget
        obtain ⟨mark, other, item⟩ := old
        cases item with
        | declared d => exact absurd hget (hnot mark other d)
        | _ => cases hdeclared
    obtain ⟨s', hs', hsame⟩ := Check.bind_eq_ok.mp hs
    cases hsame
    exact ⟨during, s, s, f', .now hnew hs' hdeclare, hs, s.alphaEq_refl, hf, he, hinsert⟩

/-- A function has the signature that its recursive calls are checked against. Let the name of a
definition be new, or that of a declaration, and other than `slice`. If the definition is accepted,
its signature is that of the declaration under which the body was checked, up to bound names; in the
body the name of the function has this signature; and afterwards it refers to the definition. -/
theorem definition_has_declared_signature {fuel : Nat} {env env' : Env} {loc : Location}
    {name : String} {f : Function .written} {e : Entry .checked} (hslice : name ≠ "slice")
    (hold : ∀ old, env.get? { name := name } = some old → old.item.isDeclared)
    (h : (checkDefinition fuel loc name f).run.run env = (.ok e, env')) :
    ∃ during d f', DeclaredFor fuel env loc name f during d ∧
      (∀ ctx place, assignGlobal during ctx place { name := name } =
        .ok (Checked.term (Checked.pi d) (.atom (.global { name := name })))) ∧
      f.elaborate fuel during (Context.newScopeOf {} f.mutability) loc = .ok f' ∧
      d.alphaEq f'.signature ∧
      e = ⟨(), name, .defined f'⟩ ∧ env'.get? { name := name } = some e := by
  obtain ⟨during, d, s, f', hdeclared, hs, halpha, hf, he, hinsert⟩ :=
    declaredFor_of_checkDefinition hold h
  obtain ⟨f'', hf', hsame⟩ := Check.bind_eq_ok.mp hf
  cases hsame
  have hsignature : s = f'.signature :=
    signature_eq_of_coupled (hdeclared.coupled hslice) hs hf
  have hget : env'.get? { name := name } = some e := by
    rw [Env.get?_insert? hinsert, if_pos rfl]
  exact ⟨during, d, f', hdeclared, hdeclared.assignGlobal_eq, hf', hsignature ▸ halpha, he, hget⟩

/-- The environment in the module `m`, after the root has declared `f: (u64 a) -> u64`. -/
def submoduleEnv : Env :=
  let u64 : Written := .mk (.place {} rfl) (.atom (.int .u64))
  let signature : Signature .written := .arg {} .many u64 (some { name := "a" }) (.returns .no u64)
  ((checkUnit 8 [⟨{}, "f", .declared signature⟩]).run.run {}).2.enter ["m"]

/-- The function `(u64 b) -> u64 { return f(b); }`. -/
def recursiveFunction : Function .written :=
  let u64 : Written := .mk (.place {} rfl) (.atom (.int .u64))
  let b : Var := { name := "b" }
  let f : Written := .mk (.place {} rfl) (.atom (.global { name := "f" }))
  .arg {} .many u64 (some b)
    (.runs .no u64 [.ret {} (.mk (.place {} rfl) (.app f [.mk (.place {} rfl) (.var b)]))])

/-- The definition of `f` in `m` has the signature that the root declares, with another name for the
argument. -/
theorem recursive_definition_has_declared_signature :
    ∃ old e env', submoduleEnv.get? { name := "f" } = some old ∧ old.item.isDeclared ∧
      (checkDefinition 8 {} "f" recursiveFunction).run.run submoduleEnv = (.ok e, env') ∧
      ∃ during d f', DeclaredFor 8 submoduleEnv {} "f" recursiveFunction during d ∧
        recursiveFunction.elaborate 8 during (Context.newScopeOf {} .no) {} = .ok f' ∧
        d.alphaEq f'.signature ∧ env'.get? { name := "f" } = some ⟨(), "f", .defined f'⟩ := by
  have hget : submoduleEnv.get? { name := "f" } = some _ := rfl
  have hrun : (checkDefinition 8 {} "f" recursiveFunction).run.run submoduleEnv = (.ok _, _) := rfl
  have hold : ∀ old, submoduleEnv.get? { name := "f" } = some old → old.item.isDeclared := by
    intro old h
    cases hget.symm.trans h
    rfl
  obtain ⟨during, d, f', hdeclared, -, hf, halpha, he, hget'⟩ :=
    definition_has_declared_signature (by decide) hold hrun
  exact ⟨_, _, _, hget, rfl, hrun, during, d, f', hdeclared, hf, halpha, he ▸ hget'⟩

end DependentCore
