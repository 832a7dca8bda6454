import DependentCore.Proofs.Globals.Modules
import DependentCore.Proofs.Typing.Erasure
import DependentCore.Typing.Declare
import Mathlib.Data.List.Forall2

/-!
# Rules for entries

How a unit is checked, as a system of rules, and how the environment grows meanwhile.

* `Item.Accepts`, `Entry.Accepts`, `AcceptsUnit`: the rules, one for each way in which an entry is
  checked and added,
* `acceptsUnit_of_checkUnit`: whatever the checker returns is derived by them,
* `Env.get?_insert?`: adding a global changes the meaning of its name only,
* `Env.IsFlat`: there is one module only, so that a name has one meaning,
* `Env.Grows`: a name keeps its meaning, or a function that was declared is defined,
* `AcceptsUnit.invariant`: what checking establishes of an item and of what it is checked to, and
  what is kept when the environment grows, holds of the whole unit in the last environment.
-/

namespace DependentCore

/-! ## Successful checks -/

section
variable {α β : Type} {env env' : Env}

/-- A sequence of two checks succeeds if both do, the second where the first has left off. -/
theorem Declaring.bind_eq_ok {m : Declaring α} {f : α → Declaring β} {b : β} :
    (m >>= f).run.run env = (.ok b, env') ↔
      ∃ a env₁, m.run.run env = (.ok a, env₁) ∧ (f a).run.run env₁ = (.ok b, env') := by
  rw [ExceptT.run_bind, StateT.run_bind]
  generalize m.run.run env = outcome
  obtain ⟨_ | a, env₁⟩ := outcome
  · constructor
    · intro h
      cases h
    · rintro ⟨_, _, h, _⟩
      cases h
  · constructor
    · exact fun h => ⟨a, env₁, rfl, h⟩
    · rintro ⟨_, _, h, h'⟩
      cases h
      exact h'

theorem Declaring.ofCheck_eq_ok {c : Check α} {a : α}
    (h : (Declaring.ofCheck c).run.run env = (.ok a, env')) : c = .ok a ∧ env = env' := by
  cases h
  exact ⟨rfl, rfl⟩

/-- A check whose failure is only cleaned up after has not failed if the whole succeeds. -/
theorem Declaring.of_tryCatch_eq_ok {m : Declaring α} {handle : Failure → Declaring α} {a : α}
    (hh : ∀ failure env₁, (handle failure).run.run env₁ ≠ (.ok a, env'))
    (h : (tryCatch m handle).run.run env = (.ok a, env')) : m.run.run env = (.ok a, env') := by
  rw [ExceptT.run_tryCatch, StateT.run_bind] at h
  generalize m.run.run env = outcome at h ⊢
  obtain ⟨failure | a', env₁⟩ := outcome
  · exact absurd h (hh failure env₁)
  · exact h

end

theorem register_eq_ok {e : Entry .checked} {env env' : Env} {u : Unit}
    (h : (register e).run.run env = (.ok u, env')) : env.insert? e.name e = some env' := by
  unfold register at h
  obtain ⟨_, _, hget, h⟩ := Declaring.bind_eq_ok.mp h
  cases hget
  split at h
  · next hinsert =>
    cases h
    exact hinsert
  · cases h

/-! ## The rules -/

/-- An item is accepted in an environment. -/
inductive Item.Accepts (fuel : Nat) (env : Env) : Item .written → Item .checked → Prop where
  | integer {t} : Item.Accepts fuel env (.integer t) (.integer t)
  | struct {fs fs'} : Tele.Accepts fuel env {} fs fs' →
    Item.Accepts fuel env (.struct fs) (.struct fs')
  | declared {s s'} : Tele.Accepts fuel env (Context.newScope {}) s s' →
    Item.Accepts fuel env (.declared s) (.declared s')
  | external {s s'} : Tele.Accepts fuel env (Context.newScope {}) s s' →
    Item.Accepts fuel env (.external s) (.external s')
  | defined {f f'} : Tele.Accepts fuel env (Context.newScopeOf {} f.mutability) f f' →
    Item.Accepts fuel env (.defined f) (.defined f')

/-- An entry is accepted in an environment, with the environment that it leaves. A function is
declared before its body is checked, unless an earlier entry has declared it. -/
inductive Entry.Accepts (fuel : Nat) (env : Env) :
    Entry .written → Entry .checked → Env → Prop where
  | item {e item env'} : e.item.isDefined = false → checkItem fuel env e.mark e.item = .ok item →
    env.insert? e.name ⟨(), e.name, item⟩ = some env' →
    Entry.Accepts fuel env e ⟨(), e.name, item⟩ env'
  | declaredBefore {loc name f f' mark other d s env'} :
    checkItem fuel env loc (.declared f.signature) = .ok (.declared s) →
    env.get? { name := name } = some ⟨mark, other, .declared d⟩ → d.alphaEq s →
    checkItem fuel env loc (.defined f) = .ok (.defined f') →
    env.insert? name ⟨(), name, .defined f'⟩ = some env' →
    Entry.Accepts fuel env ⟨loc, name, .defined f⟩ ⟨(), name, .defined f'⟩ env'
  | declaredNow {loc name f f' s env₁ env'} :
    checkItem fuel env loc (.declared f.signature) = .ok (.declared s) →
    env.insert? name ⟨(), name, .declared s⟩ = some env₁ →
    checkItem fuel env₁ loc (.defined f) = .ok (.defined f') →
    env₁.insert? name ⟨(), name, .defined f'⟩ = some env' →
    Entry.Accepts fuel env ⟨loc, name, .defined f⟩ ⟨(), name, .defined f'⟩ env'

/-- The entries of a unit are accepted one after the other. -/
inductive AcceptsUnit (fuel : Nat) :
    Env → List (Entry .written) → List (Entry .checked) → Env → Prop where
  | nil {env} : AcceptsUnit fuel env [] [] env
  | cons {env env₁ env' e e' es es'} : e.Accepts fuel env e' env₁ →
    AcceptsUnit fuel env₁ es es' env' → AcceptsUnit fuel env (e :: es) (e' :: es') env'

section
variable {fuel : Nat} {env env' : Env}

theorem Item.accepts_of_checkItem {loc : Location} {item : Item .written} {item' : Item .checked}
    (h : checkItem fuel env loc item = .ok item') : item.Accepts fuel env item' := by
  cases item with
  | integer t =>
    cases h
    exact .integer
  | struct fs =>
    obtain ⟨fs', hfs, h⟩ := Check.bind_eq_ok.mp h
    cases h
    exact .struct (Tele.accepts_of_elaborate fs hfs)
  | declared s =>
    obtain ⟨s', hs, h⟩ := Check.bind_eq_ok.mp h
    cases h
    exact .declared (Tele.accepts_of_elaborate s hs)
  | external s =>
    obtain ⟨s', hs, h⟩ := Check.bind_eq_ok.mp h
    cases h
    exact .external (Tele.accepts_of_elaborate s hs)
  | defined f =>
    obtain ⟨f', hf, h⟩ := Check.bind_eq_ok.mp h
    cases h
    exact .defined (Tele.accepts_of_elaborate f hf)

theorem Item.Accepts.isDefined_eq {item : Item .written} {item' : Item .checked}
    (h : item.Accepts fuel env item') : item'.isDefined = item.isDefined := by
  cases h <;> rfl

theorem checkItem_declared_eq_ok {loc : Location} {s : Signature .written}
    {s' : Signature .checked} :
    checkItem fuel env loc (.declared s) = .ok (.declared s') ↔
      s.elaborate fuel env (Context.newScope {}) loc = .ok s' := by
  constructor
  · intro h
    obtain ⟨s'', hs, h⟩ := Check.bind_eq_ok.mp h
    cases h
    exact hs
  · exact fun h => Check.bind_eq_ok.mpr ⟨s', h, rfl⟩

theorem checkItem_defined_eq_ok {loc : Location} {f : Function .written} {f' : Function .checked} :
    checkItem fuel env loc (.defined f) = .ok (.defined f') ↔
      f.elaborate fuel env (Context.newScopeOf {} f.mutability) loc = .ok f' := by
  constructor
  · intro h
    obtain ⟨f'', hf, h⟩ := Check.bind_eq_ok.mp h
    cases h
    exact hf
  · exact fun h => Check.bind_eq_ok.mpr ⟨f', h, rfl⟩

theorem checkItem_of_checkFunction {loc : Location} {f : Function .written}
    {f' : Function .checked} (h : (checkFunction fuel loc f).run.run env = (.ok f', env')) :
    checkItem fuel env loc (.defined f) = .ok (.defined f') ∧ env = env' := by
  unfold checkFunction at h
  obtain ⟨_, _, hget, h⟩ := Declaring.bind_eq_ok.mp h
  cases hget
  obtain ⟨hf, rfl⟩ := Declaring.ofCheck_eq_ok h
  exact ⟨Check.bind_eq_ok.mpr ⟨f', hf, rfl⟩, rfl⟩

/-- A definition is checked in one of two ways: its name refers to a declaration of the signature,
or the signature is declared for the time in which the body is checked. -/
theorem checkDefinition_eq_ok {loc : Location} {name : String} {f : Function .written}
    {e : Entry .checked}
    (h : (checkDefinition fuel loc name f).run.run env = (.ok e, env')) :
    ∃ s f', checkItem fuel env loc (.declared f.signature) = .ok (.declared s) ∧
      e = ⟨(), name, .defined f'⟩ ∧
      ((∃ mark other d, env.get? { name := name } = some ⟨mark, other, .declared d⟩ ∧
          d.alphaEq s ∧ checkItem fuel env loc (.defined f) = .ok (.defined f') ∧
          env.insert? name e = some env') ∨
        (∀ mark other d, env.get? { name := name } ≠ some ⟨mark, other, .declared d⟩) ∧
          ∃ env₁, env.insert? name ⟨(), name, .declared s⟩ = some env₁ ∧
            checkItem fuel env₁ loc (.defined f) = .ok (.defined f') ∧
            env₁.insert? name e = some env') := by
  unfold checkDefinition at h
  obtain ⟨_, _, hget, h⟩ := Declaring.bind_eq_ok.mp h
  cases hget
  obtain ⟨s, _, hcheck, h⟩ := Declaring.bind_eq_ok.mp h
  obtain ⟨hs, rfl⟩ := Declaring.ofCheck_eq_ok hcheck
  have hsig : checkItem fuel env loc (.declared f.signature) = .ok (.declared s) :=
    Check.bind_eq_ok.mpr ⟨s, hs, rfl⟩
  split at h
  · next mark other declared hdeclared =>
    split at h
    · next halpha =>
      obtain ⟨f', _, hbody, h⟩ := Declaring.bind_eq_ok.mp h
      obtain ⟨hf, rfl⟩ := checkItem_of_checkFunction hbody
      obtain ⟨_, _, hreg, h⟩ := Declaring.bind_eq_ok.mp h
      cases h
      exact ⟨s, f', hsig, rfl,
        .inl ⟨mark, other, declared, hdeclared, halpha, hf, register_eq_ok hreg⟩⟩
    · cases h
  · next hnone =>
    obtain ⟨_, env₁, hreg, h⟩ := Declaring.bind_eq_ok.mp h
    obtain ⟨f', _, hcaught, h⟩ := Declaring.bind_eq_ok.mp h
    have hbody := Declaring.of_tryCatch_eq_ok (by
      intro failure env₂ hfail
      obtain ⟨_, _, _, hfail⟩ := Declaring.bind_eq_ok.mp hfail
      cases hfail) hcaught
    obtain ⟨hf, rfl⟩ := checkItem_of_checkFunction hbody
    obtain ⟨_, _, hreg', h⟩ := Declaring.bind_eq_ok.mp h
    cases h
    exact ⟨s, f', hsig, rfl, .inr ⟨hnone, env₁, register_eq_ok hreg, hf, register_eq_ok hreg'⟩⟩

theorem Entry.accepts_of_checkDefinition {loc : Location} {name : String} {f : Function .written}
    {e : Entry .checked}
    (h : (checkDefinition fuel loc name f).run.run env = (.ok e, env')) :
    Entry.Accepts fuel env ⟨loc, name, .defined f⟩ e env' := by
  obtain ⟨s, f', hs, rfl, ⟨_, _, _, hget, halpha, hf, hinsert⟩ | ⟨-, _, hdeclare, hf, hinsert⟩⟩ :=
    checkDefinition_eq_ok h
  · exact .declaredBefore hs hget halpha hf hinsert
  · exact .declaredNow hs hdeclare hf hinsert

theorem Entry.accepts_of_checkEntry {e : Entry .written} {e' : Entry .checked}
    (h : (checkEntry fuel e).run.run env = (.ok e', env')) : e.Accepts fuel env e' env' := by
  unfold checkEntry at h
  split at h
  · next f hf =>
    obtain ⟨loc, name, item⟩ := e
    cases hf
    exact Entry.accepts_of_checkDefinition h
  · next hnot =>
    obtain ⟨_, _, hget, h⟩ := Declaring.bind_eq_ok.mp h
    cases hget
    obtain ⟨item', _, hcheck, h⟩ := Declaring.bind_eq_ok.mp h
    obtain ⟨hitem, rfl⟩ := Declaring.ofCheck_eq_ok hcheck
    obtain ⟨_, _, hreg, h⟩ := Declaring.bind_eq_ok.mp h
    cases h
    refine .item ?_ hitem (register_eq_ok hreg)
    cases hdefined : e.item with
    | defined f => exact absurd hdefined (hnot f)
    | _ => rfl

theorem acceptsUnit_of_checkUnit : ∀ {es : List (Entry .written)} {es' : List (Entry .checked)}
    {env : Env}, (checkUnit fuel es).run.run env = (.ok es', env') →
      AcceptsUnit fuel env es es' env'
  | [], _, _, h => by
    cases h
    exact .nil
  | e :: es, _, _, h => by
    rw [checkUnit, List.mapM_cons] at h
    obtain ⟨e', env₁, he, h⟩ := Declaring.bind_eq_ok.mp h
    obtain ⟨es', _, hes, h⟩ := Declaring.bind_eq_ok.mp h
    cases h
    exact .cons (Entry.accepts_of_checkEntry he) (acceptsUnit_of_checkUnit hes)

end

/-! ## Adding a global -/

/-- Adding a global gives its name a meaning and changes that of no other name. -/
theorem Env.get?_insert? {env env' : Env} {name : String} {e : Entry .checked}
    (h : env.insert? name e = some env') (g : GlobalName) :
    env'.get? g = if g = { name := name } then some e else env.get? g := by
  obtain ⟨-, rfl⟩ := Env.insert?_eq_some.mp h
  exact Modules.get?_put env.modules name e g

/-- Only a definition may take the place of another global. -/
theorem Env.eq_none_of_mayReplace {old : Option (Entry .checked)} {e : Entry .checked}
    (he : e.item.isDefined = false) (h : Env.mayReplace old e) : old = none := by
  cases old with
  | none => rfl
  | some old =>
    rw [Env.mayReplace, he, Bool.and_false] at h
    cases h

/-! ## Environments with one module -/

/-- The root is the only module. -/
structure Env.IsFlat (env : Env) : Prop where
  opened : env.modules.opened = []
  children : env.modules.root.children = []

section
variable {env env' : Env}

theorem Env.isFlat_of_modules_eq_empty (h : env.modules = {}) : env.IsFlat :=
  ⟨by rw [h], by rw [h]; rfl⟩

/-- Then only names without a path have a meaning, and the table of the root gives it. -/
theorem Env.IsFlat.get?_eq (h : env.IsFlat) (g : GlobalName) :
    env.get? g = if g.path = [] then env.modules.root.globals.get? g.name else none := by
  obtain ⟨path, name⟩ := g
  have hmodules : env.modules = ⟨env.modules.root, []⟩ := by rw [← h.opened]
  rw [Env.get?, hmodules, Modules.get?_nil]
  cases path with
  | nil => rfl
  | cons child path =>
    rw [ModuleTree.find?_cons, h.children]
    rfl

theorem Env.get?_of_modules_eq_empty (h : env.modules = {}) (g : GlobalName) :
    env.get? g = none := by
  rw [(Env.isFlat_of_modules_eq_empty h).get?_eq, h]
  split <;> rfl

theorem Env.IsFlat.insert? (h : env.IsFlat) {name : String} {e : Entry .checked}
    (hinsert : env.insert? name e = some env') :
    env'.IsFlat ∧ Env.mayReplace (env.get? { name := name }) e ∧
      ∀ g, env'.get? g = if g = { name := name } then some e else env.get? g := by
  refine ⟨?_, ?_, Env.get?_insert? hinsert⟩
  · obtain ⟨-, rfl⟩ := Env.insert?_eq_some.mp hinsert
    have hput : ModuleContext.put env.modules name e = { env.modules with
        root := env.modules.root.setGlobals (env.modules.root.globals.insert name e) } := by
      simp [Modules.put_eq, Modules.modifyCurrent, Modules.current, h.opened]
    constructor
    · simp only [hput, h.opened]
    · simp only [hput]
      exact h.children
  · have hcurrent : env.modules.current = env.modules.root := by
      simp [Modules.current, h.opened]
    rw [h.get?_eq, if_pos rfl, ← hcurrent]
    exact (Env.insert?_eq_some.mp hinsert).1

/-- An entry gives a meaning to its own name only. -/
theorem Entry.Accepts.get?_eq {fuel : Nat} {e : Entry .written} {e' : Entry .checked}
    (h : e.Accepts fuel env e' env') (hflat : env.IsFlat) :
    env'.IsFlat ∧ ∀ g, env'.get? g = if g = { name := e.name } then some e' else env.get? g := by
  cases h with
  | item _ _ hinsert | declaredBefore _ _ _ _ hinsert =>
    obtain ⟨hflat', -, hget⟩ := hflat.insert? hinsert
    exact ⟨hflat', hget⟩
  | declaredNow _ hinsert _ hinsert' =>
    obtain ⟨hflat₁, -, hget₁⟩ := hflat.insert? hinsert
    obtain ⟨hflat', -, hget'⟩ := hflat₁.insert? hinsert'
    refine ⟨hflat', fun g => ?_⟩
    rw [hget', hget₁]
    split <;> rfl

/-- A name that is not the name of an entry keeps its meaning. -/
theorem AcceptsUnit.get?_eq {fuel : Nat} {es : List (Entry .written)}
    {es' : List (Entry .checked)} (h : AcceptsUnit fuel env es es' env') (hflat : env.IsFlat)
    {g : GlobalName} (hg : ∀ e ∈ es, g ≠ { name := e.name }) : env'.get? g = env.get? g := by
  induction h with
  | nil => rfl
  | cons he _ ih =>
    obtain ⟨hflat₁, hget⟩ := he.get?_eq hflat
    rw [ih hflat₁ fun e h => hg e (.tail _ h), hget, if_neg (hg _ (.head _))]

end

/-! ## Growth -/

/-- A function that is declared may become defined, with a related signature. -/
def Item.Becomes (R : Signature .checked → Signature .checked → Prop) (old new : Item .checked) :
    Prop :=
  new = old ∨ ∃ s f, old = .declared s ∧ new = .defined f ∧ R s f.signature

/-- Every name that has a meaning keeps it, or refers to a function that has become defined. -/
def Env.Grows (R : Signature .checked → Signature .checked → Prop) (env env' : Env) : Prop :=
  ∀ g e, env.get? g = some e → ∃ e', env'.get? g = some e' ∧ e.item.Becomes R e'.item

section
variable {R : Signature .checked → Signature .checked → Prop} {env env₁ env' : Env}

theorem Env.Grows.refl (env : Env) : env.Grows R env :=
  fun _ e he => ⟨e, he, .inl rfl⟩

/-- What is defined never changes, so nothing is asked of the relation. -/
theorem Env.Grows.trans (h : env.Grows R env₁) (h' : env₁.Grows R env') : env.Grows R env' := by
  intro g e he
  obtain ⟨e₁, he₁, hitem₁⟩ := h g e he
  obtain ⟨e', he', hitem'⟩ := h' g e₁ he₁
  refine ⟨e', he', ?_⟩
  rcases hitem₁ with hsame | ⟨s, f, hs, hf, hR⟩
  · rw [hsame] at hitem'
    exact hitem'
  · rcases hitem' with hsame | ⟨_, _, hdeclared, _⟩
    · exact .inr ⟨s, f, hs, hsame.trans hf, hR⟩
    · rw [hf] at hdeclared
      cases hdeclared

/-- A global that is added is new, or it defines what was declared. -/
theorem Env.IsFlat.grows (h : env.IsFlat) {name : String} {e : Entry .checked}
    (hinsert : env.insert? name e = some env')
    (hR : ∀ old s f, env.get? { name := name } = some old → old.item = .declared s →
      e.item = .defined f → R s f.signature) : env.Grows R env' := by
  obtain ⟨-, hmay, hget⟩ := h.insert? hinsert
  intro g old hold
  rw [hget]
  by_cases hg : g = { name := name }
  · subst hg
    refine ⟨e, if_pos rfl, .inr ?_⟩
    rw [hold, Env.mayReplace, Bool.and_eq_true] at hmay
    obtain ⟨hdeclared, hdefined⟩ := hmay
    cases hs : old.item with
    | declared s =>
      cases hf : e.item with
      | defined f => exact ⟨s, f, rfl, rfl, hR old s f hold hs hf⟩
      | _ =>
        rw [hf] at hdefined
        cases hdefined
    | _ =>
      rw [hs] at hdeclared
      cases hdeclared
  · exact ⟨old, by rw [if_neg hg, hold], .inl rfl⟩

end

/-! ## Invariants of a unit -/

/-- The environment has one module, and all its items are related to written ones. -/
structure Env.Satisfies (I : Env → Item .written → Item .checked → Prop) (env : Env) : Prop where
  flat : env.IsFlat
  stored : ∀ g e, env.get? g = some e → ∃ item, I env item e.item

/-- A relation between written and checked items in an environment that checking establishes and
that is kept when the environment grows. The environment does grow if the entries have the property
`W`: a declaration that agrees with what the signature of a function is checked to is related to the
signature of what the function is checked to, be it declared before or now. -/
structure UnitInvariant (fuel : Nat) (W : Entry .written → Prop)
    (R : Signature .checked → Signature .checked → Prop)
    (I : Env → Item .written → Item .checked → Prop) : Prop where
  establish : ∀ {env loc item item'}, env.Satisfies I → checkItem fuel env loc item = .ok item' →
    I env item item'
  grow : ∀ {env env' item item'}, env.Grows R env' → I env item item' → I env' item item'
  follows : ∀ {env env₁ loc name f s d f'}, W ⟨loc, name, .defined f⟩ → env.Satisfies I →
    checkItem fuel env loc (.declared f.signature) = .ok (.declared s) → d.alphaEq s →
    env₁ = env ∨ env.insert? name ⟨(), name, .declared s⟩ = some env₁ →
    checkItem fuel env₁ loc (.defined f) = .ok (.defined f') → R d f'.signature

section
variable {fuel : Nat} {W : Entry .written → Prop}
  {R : Signature .checked → Signature .checked → Prop}
  {I : Env → Item .written → Item .checked → Prop} {env env' : Env}

theorem Env.satisfies_of_modules_eq_empty (h : env.modules = {}) : env.Satisfies I := by
  refine ⟨Env.isFlat_of_modules_eq_empty h, fun g e he => ?_⟩
  rw [Env.get?_of_modules_eq_empty h] at he
  cases he

theorem Env.Satisfies.insert? (hI : UnitInvariant fuel W R I) (henv : env.Satisfies I)
    {name : String} {e : Entry .checked} (hinsert : env.insert? name e = some env')
    (hgrows : env.Grows R env') {item : Item .written} (he : I env item e.item) :
    env'.Satisfies I := by
  obtain ⟨hflat, -, hget⟩ := henv.flat.insert? hinsert
  refine ⟨hflat, fun g e' he' => ?_⟩
  rw [hget] at he'
  split at he'
  · cases he'
    exact ⟨item, hI.grow hgrows he⟩
  · obtain ⟨item', h⟩ := henv.stored g e' he'
    exact ⟨item', hI.grow hgrows h⟩

/-- One entry: the environment that it leaves satisfies the relation again, and so do the written
and the checked entry. -/
theorem Entry.Accepts.invariant (hI : UnitInvariant fuel W R I) {e : Entry .written}
    {e' : Entry .checked} (h : e.Accepts fuel env e' env') (henv : env.Satisfies I) (he : W e) :
    env.Grows R env' ∧ env'.Satisfies I ∧ I env' e.item e'.item := by
  cases h with
  | item hnot hitem hinsert =>
    have hI' := hI.establish henv hitem
    have hgrows : env.Grows R env' := by
      refine henv.flat.grows hinsert fun _ _ f _ _ hf => ?_
      cases hf
      cases (Item.accepts_of_checkItem hitem).isDefined_eq.trans hnot
    exact ⟨hgrows, henv.insert? hI hinsert hgrows hI', hI.grow hgrows hI'⟩
  | declaredBefore hs hdeclared halpha hf hinsert =>
    have hI' := hI.establish henv hf
    have hgrows : env.Grows R env' := by
      refine henv.flat.grows hinsert fun old d f hold hd hf' => ?_
      rw [hdeclared] at hold
      cases hold
      cases hd
      cases hf'
      exact hI.follows he henv hs halpha (.inl rfl) hf
    exact ⟨hgrows, henv.insert? hI hinsert hgrows hI', hI.grow hgrows hI'⟩
  | @declaredNow _ _ _ _ _ env₁ _ hs hinsert hf hinsert' =>
    -- the declaration is like an entry of its own, which the definition follows
    have hgrows : env.Grows R env₁ :=
      henv.flat.grows hinsert fun _ _ _ _ _ hf' => by cases hf'
    have henv₁ := henv.insert? hI hinsert hgrows (hI.establish henv hs)
    have hI' := hI.establish henv₁ hf
    have hgrows' : env₁.Grows R env' := by
      refine henv₁.flat.grows hinsert' fun old d f hold hd hf' => ?_
      rw [(henv.flat.insert? hinsert).2.2, if_pos rfl] at hold
      cases hold
      cases hd
      cases hf'
      exact hI.follows he henv hs (Tele.alphaEq_refl _) (.inr hinsert) hf
    exact ⟨hgrows.trans hgrows', henv₁.insert? hI hinsert' hgrows' hI', hI.grow hgrows' hI'⟩

/-- All entries: an environment that satisfies the relation does so in the end, and there the
written and the checked unit satisfy it entry by entry. -/
theorem AcceptsUnit.invariant (hI : UnitInvariant fuel W R I) {es : List (Entry .written)}
    {es' : List (Entry .checked)} (h : AcceptsUnit fuel env es es' env') (henv : env.Satisfies I)
    (hes : ∀ e ∈ es, W e) :
    env.Grows R env' ∧ env'.Satisfies I ∧
      List.Forall₂ (fun e e' => I env' e.item e'.item) es es' := by
  induction h with
  | nil => exact ⟨.refl _, henv, .nil⟩
  | cons he _ ih =>
    obtain ⟨hgrows, henv₁, he'⟩ := he.invariant hI henv (hes _ (.head _))
    obtain ⟨hgrows', henv', hes'⟩ := ih henv₁ fun e h => hes e (.tail _ h)
    exact ⟨hgrows.trans hgrows', henv', .cons (hI.grow hgrows' he') hes'⟩

end

end DependentCore
