import DependentCore.Proofs.Reduction.Agreement
import DependentCore.Proofs.Typing.Runs
import DependentCore.Proofs.Typing.Scoping

/-!
# What checking looks up

Checking looks a name up only if the program mentions it, or if the meaning of a name that was
looked up before does. So in two environments that agree on a closed set of names, a program that
mentions names of the set only has the same outcome. The rest of the environments may differ in any
way, and so may the meaning of names that are built in.

If the second environment has declarations of functions that the first one does not know, a program
may mention them and be rejected in the first environment. But what is accepted there is accepted in
the second, too, and checked to the same; also if effects are allowed only in the second run.

* `Env.AgreeOn.elaborate`: a telescope is checked alike in environments that agree,
* `Env.Coupled.elaborate`: a telescope that is accepted is accepted with more declarations and
  effects.
-/

namespace DependentCore

variable {k : Binder} {fuel : Nat} {loc : Location} {t : Tele .written k}

/-- The scopes of two functions that stand on their own correspond, if both allow the same effects,
or the first allows none and only what it accepts is compared. -/
theorem Coupling.contexts_newScopeOf_empty (c : Coupling) {m m' : Mutability}
    (h : m' = m ∨ c.strict ∧ m = .no) (V : Var → Prop) :
    c.Contexts V (Context.newScopeOf {} m) (Context.newScopeOf {} m') where
  mutability := h
  lookup _ _ := rfl
  assumptions := rfl
  everywhere := Context.Everywhere.empty.newScopeOf m
  facts := trivial

/-- A telescope that mentions names of both runs only is compared with itself. -/
theorem Coupling.telesAlike_self {c : Coupling} (hσ : c.σ = .identity)
    (ht : t.Everywhere (Term.RefersInto c.Mentions)) : c.TelesAlike (fun _ => True) t t := by
  have hknown : t.Known (.ofVars fun _ => True) := Tele.known_ofVars_iff.mpr fun _ _ => trivial
  refine telesAlike ?_
  rw [hσ]
  exact Tele.relabels_self hknown ht

/-! ## Environments that agree -/

section
variable {S : GlobalName → Prop} {env₁ env₂ : Env} (h : env₁.AgreeOn S env₂)

/-- Two runs in environments that agree on a set of names. -/
def Env.AgreeOn.coupling (fuel : Nat) : Coupling where
  env := env₁
  env' := env₂
  fuel
  fuel' := fuel
  σ := .identity
  names := S
  early := False
  strict := False
  coupled := h.coupled
  enough := enough_refl False fuel

include h

/-- What stands on its own and mentions names of the set only is checked alike in both
environments. -/
theorem Env.AgreeOn.elaborate (ht : t.Everywhere (Term.RefersInto S)) (m : Mutability) :
    Check.Mirrors Eq (t.elaborate fuel env₁ (Context.newScopeOf {} m) loc)
      (t.elaborate fuel env₂ (Context.newScopeOf {} m) loc) := by
  let c := h.coupling fuel
  have hmentions (g : GlobalName) (hg : S g) : c.Mentions g :=
    ⟨hg, fun _ => Checked.slice.relabel_identity, .inr fun hnone => (h.same g hg).symm.trans hnone⟩
  have halike : c.TelesAlike (fun _ => True) t t :=
    Coupling.telesAlike_self rfl (ht.mono fun _ => Term.RefersInto.mono hmentions)
  have hcontexts : c.Contexts (fun _ => True) (Context.newScopeOf {} m) (Context.newScopeOf {} m) :=
    c.contexts_newScopeOf_empty (.inl rfl) _
  refine (halike loc loc hcontexts (fun _ => rfl) False.elim).mirrors.mono ?_
  rintro t' _ ⟨rfl, -⟩
  exact t'.relabel_identity.symm

end

/-! ## More declarations and effects -/

section
variable {env env' : Env} (h : env.Coupled .identity (fun _ => True) env')

/-- Two runs of which the second may accept more. -/
def Env.Coupled.coupling (fuel : Nat) : Coupling where
  env
  env'
  fuel
  fuel' := fuel
  σ := .identity
  names _ := True
  early := False
  strict := True
  coupled := h
  enough := enough_refl False fuel

include h

/-- What stands on its own and is accepted without effects is checked to the same in an environment
that has more declarations, whether effects are allowed or not. -/
theorem Env.Coupled.elaborate {t' : Tele .checked k}
    (ht : t.elaborate fuel env (Context.newScopeOf {} .no) loc = .ok t') (m : Mutability) :
    t.elaborate fuel env' (Context.newScopeOf {} m) loc = .ok t' := by
  let c := h.coupling fuel
  have hmentions (g : GlobalName) : c.Mentions g :=
    ⟨trivial, fun _ => Checked.slice.relabel_identity, .inl trivial⟩
  have halike : c.TelesAlike (fun _ => True) t t :=
    Coupling.telesAlike_self rfl (t.everywhere_of_forall (Term.refersInto_of_forall hmentions))
  have hcontexts : c.Contexts (fun _ => True) (Context.newScopeOf {} .no)
      (Context.newScopeOf {} m) := c.contexts_newScopeOf_empty (.inr ⟨trivial, rfl⟩) _
  have hrun := halike loc loc hcontexts (fun _ => rfl) fun _ => ⟨t', ht⟩
  have hsame : Check.Mirrors Eq (t.elaborate fuel env (Context.newScopeOf {} .no) loc)
      (t.elaborate fuel env' (Context.newScopeOf {} m) loc) := by
    refine hrun.mirrors.mono ?_
    rintro u _ ⟨rfl, -⟩
    exact u.relabel_identity.symm
  exact hsame.ok_eq ht

end

end DependentCore
