import DependentCore.Proofs.Reduction.Coupling

/-!
# Normalisation in environments that agree

Normalisation looks into the environment only for the names that occur in what it rewrites, and
puts definitions in the place of names. So two environments that give the same meaning to all names
that can turn up on the way have the same normal forms.

* `Env.AgreeOn`: a closed set of names means the same in two environments,
* `normalizeTerm_agrees`, `normalizeList_agrees`: normalisation runs alike in such environments.
-/

namespace DependentCore

/-- Two environments give the names of a set the same meaning. The set is closed: what its names
stand for mentions no other names. -/
structure Env.AgreeOn (S : GlobalName → Prop) (env₁ env₂ : Env) : Prop where
  same : ∀ g, S g → env₁.get? g = env₂.get? g
  closed : ∀ g e, S g → env₁.get? g = some e → e.item.Everywhere (Term.RefersInto S)
  unfoldLimit : env₁.unfoldLimit = env₂.unfoldLimit
  unfoldFuel : env₁.unfoldFuel = env₂.unfoldFuel
  inlineGlobals : env₁.inlineGlobals = env₂.inlineGlobals

theorem Env.AgreeOn.coupled {S : GlobalName → Prop} {env₁ env₂ : Env} (h : env₁.AgreeOn S env₂) :
    env₁.Coupled .identity S env₂ where
  meaning g hg := by
    rw [← h.same g hg]
    exact .of_unchanged g fun e _ => e.item.relabel_identity
  closed := h.closed
  unfoldLimit := h.unfoldLimit.symm
  unfoldFuel := h.unfoldFuel.symm
  inlineGlobals := h.inlineGlobals.symm

open Rewriting (Coupled)

section
variable {S : GlobalName → Prop} {env₁ env₂ : Env} (h : env₁.AgreeOn S env₂)
include h

/-- A term that mentions names of the set only is normalised alike in both environments. -/
theorem normalizeTerm_agrees (n : Nat) {stack₁ stack₂ : List GlobalName}
    (hstacks : StacksAgree S stack₁ stack₂) {t : Checked}
    (ht : t.Everywhere (Term.RefersInto S)) :
    Coupled False (fun r₁ r₂ => r₁ = r₂ ∧ r₁.result.Everywhere (Term.RefersInto S))
      (normalizeTerm env₁ n stack₁ t) (normalizeTerm env₂ n stack₂ t) := by
  have hrun := (normalize_coupled h.coupled (enough_refl False n)).term hstacks t ht
  rw [t.relabel_identity] at hrun
  refine hrun.mono ?_
  rintro r _ ⟨rfl, hr⟩
  exact ⟨by simp only [Rewritten.map, Term.relabel_identity], hr⟩

theorem normalizeList_agrees (n : Nat) {stack₁ stack₂ : List GlobalName}
    (hstacks : StacksAgree S stack₁ stack₂) {xs : List Checked}
    (hxs : EverywhereList (Term.RefersInto S) xs) :
    Coupled False (fun r₁ r₂ => r₁ = r₂ ∧ EverywhereList (Term.RefersInto S) r₁.result)
      (normalizeList env₁ n stack₁ xs) (normalizeList env₂ n stack₂ xs) := by
  have hrun := (normalize_coupled h.coupled (enough_refl False n)).list hstacks xs hxs
  rw [relabelList_identity] at hrun
  refine hrun.mono ?_
  rintro r _ ⟨rfl, hr⟩
  exact ⟨by simp only [Rewritten.map, relabelList_identity], hr⟩

end

end DependentCore
