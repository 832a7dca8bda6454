import DependentCore.Proofs.Globals.Modules
import DependentCore.Proofs.Globals.References
import DependentCore.Proofs.Globals.Rejected
import DependentCore.Proofs.Typing.Locality

/-!
# Names of enclosing modules

A module may define a name that a module around it has too: the new global goes into the table of
the current module, and only this table is asked whether the name is taken. So a definition should
not be affected by globals of its name further out, as long as nothing mentions them. There is one
way in which it is. If the name refers to a declaration, wherever that is, the definition is taken
for the definition that was declared, and it must have the same signature.

* `Env.forget`: the environment in which the open modules have no global of a name,
* `Env.DiffersAt`: two environments that differ in the meaning of one name,
* `checkDefinition_accepts_iff`: when a definition is accepted whose name is mentioned nowhere,
* `definitions_clash_with_enclosing_declarations_only`: what globals of enclosing modules change.
-/

namespace DependentCore

/-! ## Forgetting a name -/

/-- The module without a global. -/
def ModuleTree.forget (name : String) (m : ModuleTree) : ModuleTree :=
  m.setGlobals (m.globals.erase name)

/-- The modules with a name taken out of the tables of all that are open. -/
def Modules.forget (name : String) (ms : Modules) : Modules :=
  { root := ms.root.forget name, opened := ms.opened.map fun m => (m.1, m.2.forget name) }

/-- The environment in which the current module and the modules around it have no global of a
name. -/
def Env.forget (env : Env) (name : String) : Env :=
  { env with modules := env.modules.forget name }

theorem ModuleTree.find?_forget (m : ModuleTree) (name : String) (path : List String)
    (other : String) :
    (m.forget name).find? path other =
      if path = [] ∧ other = name then none else m.find? path other :=
  m.find?_setGlobals _ _ _ fun n => m.globals.get?_erase name n

/-- A name that is forgotten means nothing, and all others mean what they did. -/
theorem Modules.get?_forget (name : String) (g : GlobalName) : ∀ ms : Modules,
    ModuleContext.get? (ms.forget name) g
      = if g = { name := name } then none else ModuleContext.get? ms g := by
  obtain ⟨path, other⟩ := g
  rintro ⟨root, opened⟩
  induction opened with
  | nil =>
    show ModuleContext.get? (⟨root.forget name, []⟩ : Modules) _ = _
    simp only [get?_nil, ModuleTree.find?_forget, GlobalName.mk.injEq]
  | cons inner outer ih =>
    obtain ⟨child, m⟩ := inner
    show ModuleContext.get? (⟨root.forget name, (child, m.forget name) :: _⟩ : Modules) _ = _
    rw [get?_cons, get?_cons, ModuleTree.find?_forget]
    simp only [Modules.forget] at ih
    rw [ih]
    simp only [GlobalName.mk.injEq]
    split <;> rfl

theorem Modules.current_forget (ms : Modules) (name : String) :
    (ms.forget name).current = ms.current.forget name := by
  obtain ⟨root, _ | ⟨inner, outer⟩⟩ := ms <;> rfl

/-! ## Environments that differ in one name -/

/-- Two environments give the same meaning to all names but one. -/
structure Env.DiffersAt (name : String) (env env' : Env) : Prop where
  same : ∀ g, g ≠ { name := name } → env.get? g = env'.get? g
  unfoldLimit : env.unfoldLimit = env'.unfoldLimit
  unfoldFuel : env.unfoldFuel = env'.unfoldFuel
  inlineGlobals : env.inlineGlobals = env'.inlineGlobals

/-- No global of an environment mentions a name, except perhaps the one of that name. -/
def Env.Unmentioned (env : Env) (name : String) : Prop :=
  ∀ g e, g ≠ { name := name } → env.get? g = some e →
    e.item.Everywhere (Term.RefersInto (· ≠ { name := name }))

section
variable {fuel : Nat} {env env' : Env} {name : String} {loc : Location}

theorem Env.DiffersAt.refl (env : Env) (name : String) : env.DiffersAt name env :=
  ⟨fun _ _ => rfl, rfl, rfl, rfl⟩

theorem Env.differsAt_forget (env : Env) (name : String) :
    env.DiffersAt name (env.forget name) where
  same g hg := by
    show _ = ModuleContext.get? (env.modules.forget name) g
    rw [Modules.get?_forget, if_neg hg]
    rfl
  unfoldLimit := rfl
  unfoldFuel := rfl
  inlineGlobals := rfl

theorem Env.differsAt_insert? {e : Entry .checked} (h : env.insert? name e = some env') :
    env.DiffersAt name env' := by
  have hget := Env.get?_insert? h
  obtain ⟨-, rfl⟩ := Env.insert?_eq_some.mp h
  exact ⟨fun g hg => by rw [hget, if_neg hg], rfl, rfl, rfl⟩

theorem Env.DiffersAt.agreeOn (h : env.DiffersAt name env') (hstored : env.Unmentioned name) :
    env.AgreeOn (· ≠ { name := name }) env' :=
  ⟨h.same, fun g e hg => hstored g e hg, h.unfoldLimit, h.unfoldFuel, h.inlineGlobals⟩

theorem Env.Unmentioned.differsAt (hstored : env.Unmentioned name) (h : env.DiffersAt name env') :
    env'.Unmentioned name :=
  fun g e hg hget => hstored g e hg ((h.same g hg).trans hget)

variable {f : Function .written} (hf : f.Everywhere (Term.RefersInto (· ≠ { name := name })))
include hf

/-- A function that does not mention a name is checked to the same whatever the name means. -/
theorem Env.DiffersAt.checkItem_defined_iff (h : env.DiffersAt name env')
    (hstored : env.Unmentioned name) {f' : Function .checked} :
    checkItem fuel env loc (.defined f) = .ok (.defined f') ↔
      checkItem fuel env' loc (.defined f) = .ok (.defined f') := by
  rw [checkItem_defined_eq_ok, checkItem_defined_eq_ok]
  exact ((h.agreeOn hstored).elaborate hf f.mutability).eq_ok_iff

theorem Env.DiffersAt.checkItem_declared_iff (h : env.DiffersAt name env')
    (hstored : env.Unmentioned name) {s : Signature .checked} :
    checkItem fuel env loc (.declared f.signature) = .ok (.declared s) ↔
      checkItem fuel env' loc (.declared f.signature) = .ok (.declared s) := by
  have hsignature : f.signature.Everywhere (Term.RefersInto (· ≠ { name := name })) :=
    Tele.Everywhere.bare hf
  rw [checkItem_declared_eq_ok, checkItem_declared_eq_ok]
  exact ((h.agreeOn hstored).elaborate hsignature .no).eq_ok_iff

end

/-! ## Definitions -/

section
variable {fuel : Nat} {env : Env} {name : String} {loc : Location} {f : Function .written}
  {s : Signature .checked} {f' : Function .checked}

/-- A name that the current module does not have can be given to any global. -/
theorem Env.exists_insert? (habsent : env.modules.current.globals.get? name = none)
    (e : Entry .checked) : ∃ env', env.insert? name e = some env' := by
  have hglobals : (ModuleContext.globals env.modules).get? name = none := habsent
  rw [Env.insert?, hglobals]
  exact ⟨_, rfl⟩

theorem run_register {e : Entry .checked} {env' : Env} (h : env.insert? e.name e = some env') :
    (register e).run.run env = (.ok (), env') := by
  refine Declaring.bind_eq_ok.mpr ⟨env, env, rfl, ?_⟩
  rw [h]
  rfl

theorem run_checkFunction (hf : checkItem fuel env loc (.defined f) = .ok (.defined f')) :
    (checkFunction fuel loc f).run.run env = (.ok f', env) := by
  refine Declaring.bind_eq_ok.mpr ⟨env, env, rfl, ?_⟩
  rw [checkItem_defined_eq_ok.mp hf]
  rfl

/-- Let the current module not have the name of a definition, and let the definition be acceptable
whatever the name means. It is accepted if a declaration that the name refers to has the same
signature. -/
theorem run_checkDefinition (habsent : env.modules.current.globals.get? name = none)
    (hs : checkItem fuel env loc (.declared f.signature) = .ok (.declared s))
    (hf : ∀ env', env.DiffersAt name env' →
      checkItem fuel env' loc (.defined f) = .ok (.defined f'))
    (hdeclared : ∀ mark other d, env.get? { name := name } = some ⟨mark, other, .declared d⟩ →
      d.alphaEq s) :
    ∃ env', (checkDefinition fuel loc name f).run.run env =
      (.ok ⟨(), name, .defined f'⟩, env') := by
  have hsignature : (Declaring.ofCheck (f.signature.elaborate fuel env (Context.newScope {})
      loc)).run.run env = (.ok s, env) := by
    rw [checkItem_declared_eq_ok.mp hs]
    rfl
  unfold checkDefinition
  by_cases hfound : ∃ mark other d, env.get? { name := name } = some ⟨mark, other, .declared d⟩
  · obtain ⟨mark, other, d, hget⟩ := hfound
    obtain ⟨env', hinsert⟩ := Env.exists_insert? habsent ⟨(), name, .defined f'⟩
    refine ⟨env', ?_⟩
    refine Declaring.bind_eq_ok.mpr ⟨env, env, rfl, ?_⟩
    refine Declaring.bind_eq_ok.mpr ⟨s, env, hsignature, ?_⟩
    rw [hget]
    dsimp only
    rw [if_pos (hdeclared mark other d hget)]
    refine Declaring.bind_eq_ok.mpr ⟨f', env, run_checkFunction (hf env (.refl env name)), ?_⟩
    exact Declaring.bind_eq_ok.mpr ⟨(), env', run_register hinsert, rfl⟩
  · -- the signature is declared for the time in which the body is checked
    obtain ⟨during, hinsert⟩ := Env.exists_insert? habsent ⟨(), name, .declared s⟩
    obtain ⟨env', hreplace⟩ := Option.isSome_iff_exists.mp ((Env.insert?_declared hinsert).2 f')
    have hbody := run_checkFunction (hf during (Env.differsAt_insert? hinsert))
    refine ⟨env', ?_⟩
    refine Declaring.bind_eq_ok.mpr ⟨env, env, rfl, ?_⟩
    refine Declaring.bind_eq_ok.mpr ⟨s, env, hsignature, ?_⟩
    split
    · next hget => exact absurd ⟨_, _, _, hget⟩ hfound
    · refine Declaring.bind_eq_ok.mpr ⟨(), during, run_register hinsert, ?_⟩
      refine Declaring.bind_eq_ok.mpr ⟨f', during, ?_, ?_⟩
      · rw [ExceptT.run_tryCatch, StateT.run_bind, hbody]
        rfl
      · exact Declaring.bind_eq_ok.mpr ⟨(), env', run_register hreplace, rfl⟩

/-- When a definition is accepted whose name the current module does not have and that is mentioned
nowhere: its signature and its body are accepted, and a declaration that the name refers to has its
signature. -/
theorem checkDefinition_accepts_iff (habsent : env.modules.current.globals.get? name = none)
    (hf : f.Everywhere (Term.RefersInto (· ≠ { name := name }))) (hstored : env.Unmentioned name)
    {e : Entry .checked} :
    (∃ env', (checkDefinition fuel loc name f).run.run env = (.ok e, env')) ↔
      ∃ s f', checkItem fuel env loc (.declared f.signature) = .ok (.declared s) ∧
        checkItem fuel env loc (.defined f) = .ok (.defined f') ∧
        e = ⟨(), name, .defined f'⟩ ∧
        ∀ mark other d, env.get? { name := name } = some ⟨mark, other, .declared d⟩ →
          d.alphaEq f'.signature := by
  constructor
  · rintro ⟨env', h⟩
    obtain ⟨s, f', hs, he, hcases⟩ := checkDefinition_eq_ok h
    have hsame (hdefined : checkItem fuel env loc (.defined f) = .ok (.defined f')) :
        s = f'.signature := signature_eq_of_coupled env.coupled_refl hs hdefined
    rcases hcases with ⟨mark, other, d, hget, halpha, hdefined, -⟩ | ⟨hnot, during, hinsert,
      hdefined, -⟩
    · refine ⟨s, f', hs, hdefined, he, fun mark' other' d' hget' => ?_⟩
      cases hget.symm.trans hget'
      exact hsame hdefined ▸ halpha
    · have hdiffers : env.DiffersAt name during := Env.differsAt_insert? hinsert
      rw [← hdiffers.checkItem_defined_iff hf hstored] at hdefined
      exact ⟨s, f', hs, hdefined, he, fun mark other d hget => absurd hget (hnot mark other d)⟩
  · rintro ⟨s, f', hs, hdefined, rfl, hdeclared⟩
    have hsame : s = f'.signature := signature_eq_of_coupled env.coupled_refl hs hdefined
    refine run_checkDefinition habsent hs (fun env' hdiffers => ?_) (hsame ▸ hdeclared)
    exact (hdiffers.checkItem_defined_iff hf hstored).mp hdefined

end

/-- Globals of enclosing modules clash with a definition only if its name refers to a declaration of
another signature. Let a definition have a name that the current module does not have and that
neither the definition nor any other global mentions. It is accepted, with a given result, if and
only if it is accepted with this result where the name is taken out of all open modules, and a
declaration that the name refers to has the signature of the result, up to bound names. -/
theorem definitions_clash_with_enclosing_declarations_only {fuel : Nat} {env : Env}
    {loc : Location} {name : String} {f : Function .written}
    (habsent : env.modules.current.globals.get? name = none)
    (hf : f.Everywhere (Term.RefersInto (· ≠ { name := name }))) (hstored : env.Unmentioned name)
    (e : Entry .checked) :
    (∃ env', (checkDefinition fuel loc name f).run.run env = (.ok e, env')) ↔
      (∃ env', (checkDefinition fuel loc name f).run.run (env.forget name) = (.ok e, env')) ∧
        ∀ mark other d, env.get? { name := name } = some ⟨mark, other, .declared d⟩ →
          ∃ f', e = ⟨(), name, .defined f'⟩ ∧ d.alphaEq f'.signature := by
  have hdiffers := env.differsAt_forget name
  have habsent' : (env.forget name).modules.current.globals.get? name = none := by
    show (env.modules.forget name).current.globals.get? name = none
    rw [Modules.current_forget]
    show (Table.erase _ name).get? name = none
    rw [Table.get?_erase, if_pos rfl]
  have hforgotten : (env.forget name).get? { name := name } = none := by
    show ModuleContext.get? (env.modules.forget name) _ = none
    rw [Modules.get?_forget, if_pos rfl]
  rw [checkDefinition_accepts_iff habsent hf hstored,
    checkDefinition_accepts_iff habsent' hf (hstored.differsAt hdiffers), hforgotten]
  simp only [hdiffers.checkItem_defined_iff hf hstored, hdiffers.checkItem_declared_iff hf hstored]
  constructor
  · rintro ⟨s, f', hs, hdefined, rfl, hdeclared⟩
    exact ⟨⟨s, f', hs, hdefined, rfl, nofun⟩, fun mark other d hget =>
      ⟨f', rfl, hdeclared mark other d hget⟩⟩
  · rintro ⟨⟨s, f', hs, hdefined, rfl, -⟩, hdeclared⟩
    refine ⟨s, f', hs, hdefined, rfl, fun mark other d hget => ?_⟩
    obtain ⟨f'', he, halpha⟩ := hdeclared mark other d hget
    cases he
    exact halpha

/-- The environment in the module `m`, after the root has declared `f` with a signature. -/
def declaredAbove (s : Signature .written) : Env :=
  ((checkUnit 8 [⟨{}, "f", .declared s⟩]).run.run {}).2.enter ["m"]

/-- The function `(u64 x) -> u64 { return x; }`. -/
def identityFunction : Function .written :=
  let u64 : Written := .mk (.place {} rfl) (.atom (.int .u64))
  let x : Var := { name := "x" }
  .arg {} .many u64 (some x) (.runs .no u64 [.ret {} (.mk (.place {} rfl) (.var x))])

theorem identityFunction_everywhere (S : GlobalName → Prop) :
    identityFunction.Everywhere (Term.RefersInto S) := by
  simp [identityFunction, Tele.Everywhere, Term.Everywhere, Form.Everywhere, Note.Everywhere,
    EverywhereBody, Stmt.Everywhere, Term.RefersInto, Term.References]

/-- An environment that has a single global does not mention it. -/
theorem Env.unmentioned_of_forget {env : Env} {name : String}
    (h : ∀ g, (env.forget name).get? g = none) : env.Unmentioned name := by
  intro g e hg hget
  rw [(env.differsAt_forget name).same g hg, h g] at hget
  cases hget

/-- The modules that are left when the only global is forgotten. -/
theorem get?_forgotten (g : GlobalName) :
    ModuleContext.get? (⟨.empty, [("m", .empty)]⟩ : Modules) g = none := by
  rw [Modules.get?_cons, Modules.get?_nil, ModuleTree.find?_empty]
  rfl

/-- In a module below one that declares `f: (u64 a) -> u64`, the definition of `f` as
`(u64 x) -> u64 { return x; }` is accepted, as it is where there is no such declaration. -/
theorem definition_agrees_with_enclosing_declaration :
    let u64 : Written := .mk (.place {} rfl) (.atom (.int .u64))
    let env := declaredAbove (.arg {} .many u64 (some { name := "a" }) (.returns .no u64))
    env.modules.current.globals.get? "f" = none ∧ env.Unmentioned "f" ∧
      (∃ old, env.get? { name := "f" } = some old ∧ old.item.isDeclared) ∧
      ∃ e, (∃ env', (checkDefinition 8 {} "f" identityFunction).run.run env = (.ok e, env')) ∧
        ∃ env', (checkDefinition 8 {} "f" identityFunction).run.run (env.forget "f") =
          (.ok e, env') := by
  intro u64 env
  have hstored : env.Unmentioned "f" := Env.unmentioned_of_forget get?_forgotten
  have hrun : (checkDefinition 8 {} "f" identityFunction).run.run env = (.ok _, _) := rfl
  have hboth := (definitions_clash_with_enclosing_declarations_only rfl
    (identityFunction_everywhere _) hstored _).mp ⟨_, hrun⟩
  exact ⟨rfl, hstored, ⟨_, rfl, rfl⟩, _, ⟨_, hrun⟩, hboth.1⟩

/-- In a module below one that declares `f: () -> u64`, the same definition is rejected, although
nothing mentions `f`. -/
theorem definition_clashes_with_enclosing_declaration :
    let u64 : Written := .mk (.place {} rfl) (.atom (.int .u64))
    let env := declaredAbove (.returns .no u64)
    env.modules.current.globals.get? "f" = none ∧
      identityFunction.Everywhere (Term.RefersInto (· ≠ { name := "f" })) ∧
      (∀ g old, env.get? g = some old → g = { name := "f" } ∧
        old.item.Everywhere (Term.RefersInto (· ≠ { name := "f" }))) ∧
      (∃ e env', (checkDefinition 8 {} "f" identityFunction).run.run (env.forget "f") =
        (.ok e, env')) ∧
      ∃ ctx expected env', (checkDefinition 8 {} "f" identityFunction).run.run env =
        (.error (.rejected ⟨.declarationMismatch "f", some {}, ctx, expected⟩), env') := by
  intro u64 env
  refine ⟨rfl, identityFunction_everywhere _, ?_, ⟨_, _, rfl⟩, ⟨_, _, _, rfl⟩⟩
  intro g old hget
  by_cases hg : g = { name := "f" }
  · subst hg
    have hold : env.get? { name := "f" } = some _ := rfl
    cases hold.symm.trans hget
    exact ⟨rfl, trivial, ⟨trivial, trivial, trivial⟩, trivial⟩
  · rw [(env.differsAt_forget "f").same g hg] at hget
    cases (get?_forgotten g).symm.trans hget

end DependentCore
