import DependentCore.Proofs.Reduction.Rules
import Mathlib.Data.List.Forall2

/-!
# Normalised units

Normalisation of a unit rewrites the bodies of its functions and nothing else.

* `Env.rewrites_of_normalizeBody?`: the normal form of a body is derived by the rules,
* `Env.normalizeEntry?_cases`: a function keeps its signature, and its body is rewritten,
* `Env.forall₂_of_normalizeUnit?`: a unit is normalised entry by entry.
-/

namespace DependentCore

variable {env : Env} {fuel : Nat}

/-- The normal form of a body is derived by the rules. -/
theorem Env.rewrites_of_normalizeBody? {stack : List GlobalName} {b b' : Body .checked}
    (h : env.normalizeBody? fuel stack b = some b') :
    ∃ c, Rewrites env stack (.body b) (.body b') c := by
  obtain ⟨⟨r, left⟩, hr, rfl⟩ := Option.map_eq_some_iff.mp h
  obtain ⟨-, -, -, -, -, hbody, -⟩ := rewrites_of_run env fuel
  exact ⟨_, hbody stack b _ _ _ hr⟩

theorem Tele.ret?_bare {p : Phase} {k : Binder} (t : Tele p k) : t.bare.ret? = t.ret? := by
  induction k, t using Tele.args_induction with
  | fields | returns | runs => rfl
  | arg _ _ _ _ _ _ ih => exact ih

/-- A function that is applied to the body leaves the rest of a telescope as it is. -/
theorem Tele.mapBody?_eq_some {p : Phase} {F : Body p → Option (Body p)} {k : Binder}
    {t t' : Tele p k} (h : t.mapBody? F = some t') :
    t'.bare = t.bare ∧ t'.body? = t.body?.bind F := by
  induction k, t using Tele.args_induction with
  | fields | returns =>
    cases h
    exact ⟨rfl, rfl⟩
  | runs m ret body =>
    obtain ⟨body', hbody, rfl⟩ := Option.map_eq_some_iff.mp h
    exact ⟨rfl, hbody.symm⟩
  | arg k mark qty ty v rest ih =>
    obtain ⟨rest', hrest, rfl⟩ := Option.map_eq_some_iff.mp h
    obtain ⟨hbare, hbody⟩ := ih hrest
    exact ⟨congrArg (Tele.arg mark qty ty v) hbare, hbody⟩

theorem Tele.body?_isSome {p : Phase} {k : Binder} (h : k = .abs) : ∀ t : Tele p k, t.body?.isSome
  | .fields | .returns _ _ => nomatch h
  | .runs _ _ _ => rfl
  | .arg _ _ _ _ rest => rest.body?_isSome h

/-- An entry that defines a function keeps the signature of the function, and its body is rewritten.
All others stay as they are. -/
theorem Env.normalizeEntry?_cases {e e' : Entry .checked}
    (h : env.normalizeEntry? fuel e = some e') :
    e' = e ∧ e.item.isDefined = false ∨
      ∃ f f' b b' c, e.item = .defined f ∧ e'.item = .defined f' ∧ f'.bare = f.bare ∧
        f.body? = some b ∧ f'.body? = some b' ∧
        Rewrites env [{ name := e.name }] (.body b) (.body b') c := by
  unfold Env.normalizeEntry? at h
  split at h
  · next f hf =>
    obtain ⟨f', hf', rfl⟩ := Option.map_eq_some_iff.mp h
    obtain ⟨hbare, hbody⟩ := Tele.mapBody?_eq_some hf'
    obtain ⟨b, hb⟩ := Option.isSome_iff_exists.mp (Tele.body?_isSome rfl f)
    obtain ⟨b', hb'⟩ := Option.isSome_iff_exists.mp (Tele.body?_isSome rfl f')
    rw [hb, hb'] at hbody
    obtain ⟨c, hrewrites⟩ := Env.rewrites_of_normalizeBody? hbody.symm
    exact .inr ⟨f, f', b, b', c, hf, rfl, hbare, hb, hb', hrewrites⟩
  · next hnot =>
    cases h
    refine .inl ⟨rfl, ?_⟩
    cases hitem : e.item with
    | defined f => exact absurd hitem (hnot f)
    | _ => rfl

/-- A unit is normalised entry by entry. -/
theorem Env.forall₂_of_normalizeUnit? {es es' : List (Entry .checked)}
    (h : env.normalizeUnit? fuel es = some es') :
    List.Forall₂ (fun e e' => env.normalizeEntry? fuel e = some e') es es' := by
  unfold Env.normalizeUnit? at h
  induction es generalizing es' with
  | nil =>
    rw [List.mapM_nil] at h
    cases h
    exact .nil
  | cons e es ih =>
    rw [List.mapM_cons] at h
    obtain ⟨e', he, h⟩ := Option.bind_eq_some_iff.mp h
    obtain ⟨es', hes, h⟩ := Option.bind_eq_some_iff.mp h
    cases h
    exact .cons he (ih hes)

end DependentCore
