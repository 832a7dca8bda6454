import DependentCore.Proofs.Globals.Rejected
import DependentCore.Proofs.Globals.Stored

/-!
# Environments built in one module

An environment that arises by checking units, some of which may be rejected half-way, is one that
arises by checking accepted entries, since rejected ones leave no trace.

* `Env.BuiltAtRoot`: the environments that arise by checking units in the root module,
* `Env.BuiltAtRoot.stored`, `Env.BuiltAtRoot.checked`: what checking establishes holds of all that
  such an environment holds, and of the units that are checked in it.
-/

namespace DependentCore

variable {fuel : Nat} {env env' : Env}

/-- The environments that arise from an empty one by checking units in the root module, with or
without success. Limits may be changed at any time. -/
inductive Env.BuiltAtRoot : Env → Prop where
  | empty {env : Env} : env.modules = {} → BuiltAtRoot env
  | check {fuel : Nat} {env env' : Env} {entries outcome} : BuiltAtRoot env →
    (checkUnit fuel entries).run.run env = (outcome, env') → BuiltAtRoot env'
  | limits {env env' : Env} : BuiltAtRoot env → env'.modules = env.modules → BuiltAtRoot env'

/-- A change of limits changes the meaning of no name. -/
theorem Env.Grows.of_modules_eq {R : Signature .checked → Signature .checked → Prop}
    (h : env'.modules = env.modules) : env.Grows R env' := by
  intro g e he
  refine ⟨e, ?_, .inl rfl⟩
  rw [Env.get?, h]
  exact he

theorem Env.Satisfies.of_modules_eq {W : Entry .written → Prop}
    {R : Signature .checked → Signature .checked → Prop}
    {I : Env → Item .written → Item .checked → Prop} (hI : UnitInvariant fuel W R I)
    (henv : env.Satisfies I) (h : env'.modules = env.modules) : env'.Satisfies I := by
  refine ⟨⟨by rw [h, henv.flat.opened], by rw [h, henv.flat.children]⟩, fun g e he => ?_⟩
  rw [Env.get?, h] at he
  obtain ⟨item, hitem⟩ := henv.stored g e he
  exact ⟨item, hI.grow (.of_modules_eq h) hitem⟩

/-- What checking establishes, and what is kept when the environment grows, holds of everything that
such an environment holds. -/
theorem Env.BuiltAtRoot.satisfies {R : Signature .checked → Signature .checked → Prop}
    {I : Env → Item .written → Item .checked → Prop}
    (hI : ∀ fuel, UnitInvariant fuel (fun _ => True) R I) (h : env.BuiltAtRoot) :
    env.Satisfies I := by
  induction h with
  | empty hempty => exact Env.satisfies_of_modules_eq_empty hempty
  | @check fuel _ _ _ _ _ hrun ih =>
    obtain ⟨_, _, _, -, haccepts⟩ := acceptsUnit_of_run hrun
    exact (haccepts.invariant (hI fuel) ih fun _ _ => trivial).2.1
  | limits _ hmodules ih => exact ih.of_modules_eq (hI 0) hmodules

section
variable {R : Signature .checked → Signature .checked → Prop} {Q : Env → Item .checked → Prop}

theorem Env.BuiltAtRoot.stored
    (hQ : ∀ fuel, UnitInvariant fuel (fun _ => True) R fun env _ item => Q env item)
    (h : env.BuiltAtRoot) {g : GlobalName} {e : Entry .checked} (he : env.get? g = some e) :
    Q env e.item := by
  obtain ⟨_, hitem⟩ := (h.satisfies hQ).stored g e he
  exact hitem

/-- The same holds of a unit that is checked in it. -/
theorem Env.BuiltAtRoot.checked
    (hQ : ∀ fuel, UnitInvariant fuel (fun _ => True) R fun env _ item => Q env item)
    (h : env.BuiltAtRoot) {entries : List (Entry .written)} {es : List (Entry .checked)}
    (hunit : (checkUnit fuel entries).run.run env = (.ok es, env')) : ∀ e ∈ es, Q env' e.item := by
  obtain ⟨-, -, hall⟩ :=
    (acceptsUnit_of_checkUnit hunit).invariant (hQ fuel) (h.satisfies hQ) fun _ _ => trivial
  intro e he
  obtain ⟨i, hi, rfl⟩ := List.mem_iff_getElem.mp he
  exact hall.get (hall.length_eq ▸ hi) hi

end

end DependentCore
