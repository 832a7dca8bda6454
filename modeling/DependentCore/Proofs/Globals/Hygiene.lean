import DependentCore.Proofs.Globals.Modules
import DependentCore.Proofs.Reduction.Agreement
import DependentCore.Proofs.Reduction.Scalars
import DependentCore.Proofs.Typing.Derivations
import DependentCore.Typing.Declare
import DependentCore.Syntax.Equality

/-!
# Calls from another module

A definition is stored with its names as they were written, and unfolding puts it into the caller,
where the names are looked up again. So a call from another module gives what a call from inside
gives, provided that all names on which the definition depends mean the same in both modules. If one
of them means something else in the calling module, the result of the call can be another one.

* `Env.get?_qualified`: a global of a module, seen from the root,
* `AcceptsArgs.literal_eq`: literal arguments are checked alike,
* `normalizeTerm_sameCall`: the two calls are rewritten side by side.
-/

namespace DependentCore

/-! ## Names in a module and from the root -/

/-- A global of a module is found from the root by its qualified name. -/
theorem Env.get?_qualified {env : Env} {path : List String} {name : String} {e : Entry .checked}
    (h : (env.enter path).modules.current.globals.get? name = some e) :
    (env.enter []).get? { path := path, name := name } = some e := by
  have hglobals : ((ModuleContext.closeAll env.modules).current.tableAt? path).getD []
      = (env.enter path).modules.current.globals :=
    (Modules.globals_foldl_openChild path _).symm
  -- All modules are closed, so that the root is the current one.
  have hroot : ModuleContext.closeAll env.modules
      = ⟨(ModuleContext.closeAll env.modules).root, []⟩ := by
    rw [← Modules.opened_closeUpTo (Nat.le_refl env.modules.opened.length)]
    rfl
  show ModuleContext.get? (ModuleContext.closeAll env.modules) { path := path, name := name } = _
  rw [hroot] at hglobals ⊢
  rw [Modules.get?_nil]
  rw [← hglobals] at h
  show (ModuleTree.descend? path _).bind _ = _
  rw [Modules.current, ModuleTree.tableAt?] at h
  revert h
  cases ModuleTree.descend? path (ModuleContext.closeAll env.modules).root with
  | none =>
    intro h
    cases h
  | some below => exact id

/-! ## Literal arguments -/

section
variable {S : GlobalName → Prop} {env₁ env₂ : Env} {fuel₁ fuel₂ : Nat}

/-- What an initializer list is checked to: its elements are those of an array, or fields. -/
theorem Term.Accepts.of_list {fuel : Nat} {env : Env} {ctx : Context} {ty t : Checked}
    {loc : Location} {hw : Phase.written = .written} {xs : List Written}
    (h : Term.Accepts fuel env ctx (.check ty) (.mk (.place loc hw) (.list xs)) t) :
    ∃ xs', t = Checked.term ty (.list xs') ∧ ((xs = [] ∧ xs' = []) ∨
      (∃ elem size, ty.form = .binary .arrayT elem size ∧
        AcceptsElements fuel env ctx elem xs xs') ∨
      ∃ fs, env.fields? ty = some fs ∧ AcceptsFields fuel env ctx xs fs xs') := by
  cases h with
  | array hty hform _ hxs =>
    cases hty
    exact ⟨_, rfl, .inr (.inl ⟨_, _, hform, hxs⟩)⟩
  | unit hty _ =>
    cases hty
    exact ⟨_, rfl, .inl ⟨rfl, rfl⟩⟩
  | proof hty _ _ =>
    cases hty
    exact ⟨_, rfl, .inl ⟨rfl, rfl⟩⟩
  | struct hty hfs _ hxs =>
    cases hty
    exact ⟨_, rfl, .inr (.inr ⟨_, hfs, hxs⟩)⟩

theorem Term.not_isAuto_of_isValue {e : Written} (h : e.isValue) : ¬e.isAuto := by
  intro hauto
  unfold Term.isAuto at hauto
  split at hauto
  · cases h
  · cases hauto

theorem AcceptsElements.eq_nil {fuel : Nat} {env : Env} {ctx : Context} {ty : Checked}
    {xs : List Checked} (h : AcceptsElements fuel env ctx ty [] xs) : xs = [] := by
  cases h
  rfl

theorem AcceptsFields.eq_nil {fuel : Nat} {env : Env} {ctx : Context} {fs : Fields .checked}
    {xs : List Checked} (h : AcceptsFields fuel env ctx [] fs xs) : xs = [] := by
  cases h <;> rfl

theorem assignAtom_literal_eq {ctx₁ ctx₂ : Context} {loc₁ loc₂ : Location} {a : Atom}
    {t₁ t₂ : Checked} (ha : a.isValue) (h₁ : assignAtom env₁ ctx₁ loc₁ a = .ok t₁)
    (h₂ : assignAtom env₂ ctx₂ loc₂ a = .ok t₂) :
    t₁ = t₂ ∧ t₁.Everywhere (Term.RefersInto S) := by
  cases a with
  | auto | global => cases ha
  | num => cases h₁
  | typename =>
    cases h₁
    cases h₂
    exact ⟨rfl, trivial, trivial, trivial⟩
  | lit | str =>
    cases h₁
    cases h₂
    exact ⟨rfl, trivial, ⟨trivial, ⟨trivial, trivial, trivial⟩, trivial⟩, trivial⟩
  | _ =>
    cases h₁
    cases h₂
    exact ⟨rfl, trivial, ⟨trivial, trivial, trivial⟩, trivial⟩

theorem elaborateNumeral_eq_ok {env : Env} {ctx : Context} {loc : Location} {n : Int}
    {ty t : Checked} (h : elaborateNumeral env ctx loc n ty = .ok t) :
    t = Checked.term ty (.atom (.num n)) := by
  unfold elaborateNumeral at h
  split at h
  · cases h
  · split at h
    · cases h
      rfl
    · cases h

theorem elaborateAtom_literal_eq {ctx₁ ctx₂ : Context} {loc₁ loc₂ : Location} {a : Atom}
    {ty t₁ t₂ : Checked} (ha : a.isValue) (hty : ty.Everywhere (Term.RefersInto S))
    (h₁ : elaborateAtom fuel₁ env₁ ctx₁ loc₁ (.check ty) a = .ok t₁)
    (h₂ : elaborateAtom fuel₂ env₂ ctx₂ loc₂ (.check ty) a = .ok t₂) :
    t₁ = t₂ ∧ t₁.Everywhere (Term.RefersInto S) := by
  have hassign {fuel : Nat} {env : Env} {ctx : Context} {loc : Location} {t : Checked}
      (hnum : ∀ n, a ≠ .num n) (h : elaborateAtom fuel env ctx loc (.check ty) a = .ok t) :
      assignAtom env ctx loc a = .ok t := by
    unfold elaborateAtom at h
    split at h
    · next hmode => cases hmode
    · exact absurd rfl (hnum _)
    · obtain ⟨t', ht', h⟩ := Check.bind_eq_ok.mp h
      obtain ⟨rfl, -⟩ := conclude_eq_ok h
      exact ht'
  cases a with
  | num n =>
    rw [elaborateNumeral_eq_ok h₁, elaborateNumeral_eq_ok h₂]
    exact ⟨rfl, trivial, hty, trivial⟩
  | _ => exact assignAtom_literal_eq ha (hassign nofun h₁) (hassign nofun h₂)

mutual

/-- A literal is checked to the same term in two environments that agree on the names of its
type. -/
theorem Term.Accepts.literal_eq (henv : env₁.AgreeOn S env₂) : ∀ {e : Written}
    {ctx₁ ctx₂ : Context} {ty t₁ t₂ : Checked}, e.isValue → ty.Everywhere (Term.RefersInto S) →
      Term.Accepts fuel₁ env₁ ctx₁ (.check ty) e t₁ →
      Term.Accepts fuel₂ env₂ ctx₂ (.check ty) e t₂ →
      t₁ = t₂ ∧ t₁.Everywhere (Term.RefersInto S)
  | .mk _ (.atom _), _, _, _, _, _, he, hty, h₁, h₂ => by
    cases h₁ with
    | atom h₁ =>
      cases h₂ with
      | atom h₂ => exact elaborateAtom_literal_eq he hty h₁ h₂
  | .mk (.place _ _) (.list xs), _, _, ty, _, _, he, hty, h₁, h₂ => by
    obtain ⟨xs₁, rfl, hxs₁⟩ := h₁.of_list
    obtain ⟨xs₂, rfl, hxs₂⟩ := h₂.of_list
    suffices xs₁ = xs₂ ∧ EverywhereList (Term.RefersInto S) xs₁ from
      ⟨by rw [this.1], trivial, hty, this.2⟩
    rcases hxs₁ with ⟨rfl, rfl⟩ | ⟨elem, size, hform, hxs₁⟩ | ⟨fs, hfs, hxs₁⟩
    · rcases hxs₂ with ⟨-, rfl⟩ | ⟨_, _, -, hxs₂⟩ | ⟨_, -, hxs₂⟩
      · exact ⟨rfl, trivial⟩
      · exact ⟨hxs₂.eq_nil.symm, trivial⟩
      · exact ⟨hxs₂.eq_nil.symm, trivial⟩
    · have helem : (Form.binary .arrayT elem size).Everywhere (Term.RefersInto S) :=
        hform ▸ hty.form
      rcases hxs₂ with ⟨rfl, rfl⟩ | ⟨_, _, hform', hxs₂⟩ | ⟨_, hfs, -⟩
      · exact ⟨hxs₁.eq_nil, hxs₁.eq_nil ▸ trivial⟩
      · rw [hform] at hform'
        cases hform'
        exact AcceptsElements.literal_eq henv he helem.1 hxs₁ hxs₂
      · simp [Env.fields?, Env.structOf?, hform] at hfs
    · rcases hxs₂ with ⟨rfl, rfl⟩ | ⟨_, _, hform, -⟩ | ⟨_, hfs', hxs₂⟩
      · exact ⟨hxs₁.eq_nil, hxs₁.eq_nil ▸ trivial⟩
      · simp [Env.fields?, Env.structOf?, hform] at hfs
      · have hsame := henv.coupled.fields?_eq hty
        simp only [Term.relabel_identity, hfs, Option.map_some, Tele.relabel_identity] at hsame
        rw [hsame] at hfs'
        cases hfs'
        exact AcceptsFields.literal_eq henv he (henv.coupled.everywhere_fields hty hfs) hxs₁ hxs₂

theorem AcceptsElements.literal_eq (henv : env₁.AgreeOn S env₂) : ∀ {xs : List Written}
    {ctx₁ ctx₂ : Context} {ty : Checked} {xs₁ xs₂ : List Checked}, isValueList xs →
      ty.Everywhere (Term.RefersInto S) →
      AcceptsElements fuel₁ env₁ ctx₁ ty xs xs₁ → AcceptsElements fuel₂ env₂ ctx₂ ty xs xs₂ →
      xs₁ = xs₂ ∧ EverywhereList (Term.RefersInto S) xs₁
  | [], _, _, _, _, _, _, _, .nil, .nil => ⟨rfl, trivial⟩
  | _ :: _, _, _, _, _, _, hxs, hty, .cons h₁ hs₁, .cons h₂ hs₂ => by
    obtain ⟨hx, hxs⟩ := Bool.and_eq_true_iff.mp hxs
    obtain ⟨rfl, hx'⟩ := Term.Accepts.literal_eq henv hx hty h₁ h₂
    obtain ⟨rfl, hxs'⟩ := AcceptsElements.literal_eq henv hxs hty hs₁ hs₂
    exact ⟨rfl, hx', hxs'⟩

theorem AcceptsFields.literal_eq (henv : env₁.AgreeOn S env₂) : ∀ {xs : List Written}
    {ctx₁ ctx₂ : Context} {fs : Fields .checked} {xs₁ xs₂ : List Checked}, isValueList xs →
      fs.Everywhere (Term.RefersInto S) → AcceptsFields fuel₁ env₁ ctx₁ xs fs xs₁ →
      AcceptsFields fuel₂ env₂ ctx₂ xs fs xs₂ →
      xs₁ = xs₂ ∧ EverywhereList (Term.RefersInto S) xs₁
  | [], _, _, _, _, _, _, _, h₁, h₂ => ⟨h₁.eq_nil.trans h₂.eq_nil.symm, h₁.eq_nil ▸ trivial⟩
  | _ :: _, _, _, .fields, _, _, _, _, .fields, .fields => ⟨rfl, trivial⟩
  | _ :: _, _, _, .arg _ _ _ v _, _, _, hxs, hfs, .cons h₁ hs₁, .cons h₂ hs₂ => by
    obtain ⟨hx, hxs⟩ := Bool.and_eq_true_iff.mp hxs
    obtain ⟨rfl, hx'⟩ := Term.Accepts.literal_eq henv hx hfs.1 h₁ h₂
    have hrest := hfs.2.instantiate (substitutive_refersInto S) v hx'
    obtain ⟨rfl, hxs'⟩ := AcceptsFields.literal_eq henv hxs hrest hs₁ hs₂
    exact ⟨rfl, hx', hxs'⟩

end

/-- Literal arguments are checked alike, and the same is left of the signature. -/
theorem AcceptsArgs.literal_eq (henv : env₁.AgreeOn S env₂) : ∀ {xs : List Written}
    {ctx₁ ctx₂ : Context} {s : Signature .checked} {xs₁ xs₂ : List Checked}
    {rest₁ rest₂ : Signature .checked}, isValueList xs → s.Everywhere (Term.RefersInto S) →
      AcceptsArgs fuel₁ env₁ ctx₁ xs s xs₁ rest₁ → AcceptsArgs fuel₂ env₂ ctx₂ xs s xs₂ rest₂ →
      xs₁ = xs₂ ∧ rest₁ = rest₂ ∧ EverywhereList (Term.RefersInto S) xs₁ ∧
        rest₁.Everywhere (Term.RefersInto S)
  | [], _, _, s, _, _, _, _, _, hs, h₁, h₂ => by
    cases h₁ <;> cases h₂ <;> exact ⟨rfl, rfl, trivial, hs⟩
  | _ :: _, _, _, .returns _ _, _, _, _, _, _, hs, .returns, .returns => ⟨rfl, rfl, trivial, hs⟩
  | x :: _, _, _, .arg _ _ _ v _, _, _, _, _, hxs, hs, h₁, h₂ => by
    obtain ⟨hx, hxs⟩ := Bool.and_eq_true_iff.mp hxs
    cases h₁ with
    | auto hauto _ _ => exact absurd hauto (Term.not_isAuto_of_isValue hx)
    | cons _ h₁ hs₁ =>
      cases h₂ with
      | auto hauto _ _ => exact absurd hauto (Term.not_isAuto_of_isValue hx)
      | cons _ h₂ hs₂ =>
        obtain ⟨rfl, hx'⟩ := h₁.literal_eq henv hx hs.1 h₂
        have hrest := hs.2.instantiate (substitutive_refersInto S) v hx'
        obtain ⟨rfl, rfl, hxs', hleft⟩ := AcceptsArgs.literal_eq henv hxs hrest hs₁ hs₂
        exact ⟨rfl, rfl, ⟨hx', hxs'⟩, hleft⟩

end

/-! ## Calls -/

/-- A call of a global as written. -/
def writtenCall (loc floc : Location) (g : GlobalName) (args : List Written) : Written :=
  .mk (.place loc rfl) (.app (.mk (.place floc rfl) (.atom (.global g))) args)

/-- A call of a global as checked. -/
def checkedCall (note fnote : Note .checked Checked) (g : GlobalName) (args : List Checked) :
    Checked :=
  .mk note (.app (.mk fnote (.atom (.global g))) args)

/-- What a call of a function is checked to. -/
theorem checkedCall_of_assign {fuel : Nat} {env : Env} {ctx : Context} {loc floc : Location}
    {g : GlobalName} {args : List Written} {t : Checked} {e : Entry .checked}
    {s : Signature .checked} (hget : env.get? g = some e) (hs : e.item.signature? = some s)
    (h : env.assign fuel ctx (writtenCall loc floc g args) = .ok t) :
    ∃ args' rest, AcceptsArgs fuel env ctx args s args' rest ∧
      t = checkedCall (.sort rest.ret rfl) (.sort (Checked.pi s) rfl) g args' := by
  cases Term.accepts_of_elaborate _ h with
  | app hf hpi _ _ hargs _ =>
    cases hf with
    | atom hf =>
      simp only [elaborateAtom, assignAtom, assignGlobal, hget, hs] at hf
      cases hf
      cases hpi
      exact ⟨_, _, hargs, rfl⟩

/-- Two terms are equal and mention only names of a set, or they are calls of two functions with the
same arguments, which mention only such names. -/
inductive SameCall (S : GlobalName → Prop) (g₁ g₂ : GlobalName) : Checked → Checked → Prop where
  | same {t} : t.Everywhere (Term.RefersInto S) → SameCall S g₁ g₂ t t
  | call {note fnote args} : note.Everywhere (Term.RefersInto S) →
    fnote.Everywhere (Term.RefersInto S) → EverywhereList (Term.RefersInto S) args →
    SameCall S g₁ g₂ (checkedCall note fnote g₁ args) (checkedCall note fnote g₂ args)

/-- A term that mentions only names of a set is no call of a function whose name is not in it. -/
theorem Term.alphaEq_checkedCall {S : GlobalName → Prop} {t : Checked}
    (ht : t.Everywhere (Term.RefersInto S)) {g : GlobalName} (hg : ¬S g)
    (note fnote : Note .checked Checked) (args : List Checked) :
    t.alphaEq (checkedCall note fnote g args) = false := by
  obtain ⟨_, form⟩ := t
  cases form with
  | app f xs =>
    obtain ⟨_, fform⟩ := f
    cases fform with
    | atom a =>
      have hne : a ≠ .global g := by
        rintro rfl
        exact hg ht.2.2.1.1
      simp [Term.alphaEq, checkedCall, Term.alphaEqUnder, Form.alphaEqUnder, hne]
    | _ => rfl
  | _ => rfl

/-! ## Rewriting two calls -/

open Rewriting (Coupled)

/-- Two passes report alike, and their results are the same or are the two calls. -/
def SameOutcome (S : GlobalName → Prop) (g₁ g₂ : GlobalName) (r₁ r₂ : Rewritten Checked) : Prop :=
  SameCall S g₁ g₂ r₁.result r₂.result ∧ r₁.changed = r₂.changed

theorem normalizeTerm_atom_related (env₁ env₂ : Env) (n : Nat) (note : Note .checked Checked)
    (a₁ a₂ : Atom) :
    Coupled False
      (fun r₁ r₂ => r₁ = ⟨.mk note (.atom a₁), false⟩ ∧ r₂ = ⟨.mk note (.atom a₂), false⟩)
      (normalizeTerm env₁ n [] (.mk note (.atom a₁)))
      (normalizeTerm env₂ n [] (.mk note (.atom a₂))) := by
  match n with
  | 0 => exact .failure
  | 1 => exact .failure
  | n + 2 =>
    rw [normalizeTerm_atom, normalizeTerm_atom]
    exact .pure ⟨rfl, rfl⟩

/-- A call of a defined function is nothing that folding evaluates. -/
theorem Term.fold?_checkedCall {env : Env} {g : GlobalName} {f : Function .checked}
    (hf : env.function? g = some f) (note fnote : Note .checked Checked) (args : List Checked) :
    (checkedCall note fnote g args).fold? env = none := by
  have hslice : env.isBuiltinSlice g = false := by
    unfold Env.function? at hf
    split at hf
    · next he => simp [Env.isBuiltinSlice, he]
    · cases hf
  simp [Term.fold?, checkedCall, hslice]

/-- Whether a call is unfolded outside of all definitions depends on the settings, and on the sort
of the function and the arguments. -/
theorem Term.unfolding?_checkedCall {env : Env} {g : GlobalName} {f : Function .checked}
    (hf : env.function? g = some f) (note fnote : Note .checked Checked) (args : List Checked) :
    (checkedCall note fnote g args).unfolding? env [] =
      if env.inlineGlobals && !(checkedCall note fnote g args).hasEffect && 0 < env.unfoldLimit then
        some (g, .mk note (.app (.mk fnote (.bind .abs f)) args))
      else none := by
  simp [checkedCall, Term.unfolding?, hf]

section
variable {S : GlobalName → Prop} {env₁ env₂ : Env} {g₁ g₂ : GlobalName} {f : Function .checked}
  (henv : env₁.AgreeOn S env₂) (hg₁ : ¬S g₁) (hg₂ : ¬S g₂)
  (hf₁ : env₁.function? g₁ = some f) (hf₂ : env₂.function? g₂ = some f)

include henv in
theorem normalizeParts_checkedCall (n : Nat) {note fnote : Note .checked Checked}
    {args : List Checked} (hargs : EverywhereList (Term.RefersInto S) args) :
    Coupled False (fun r₁ r₂ => ∃ args' changed, EverywhereList (Term.RefersInto S) args' ∧
        r₁ = ⟨checkedCall note fnote g₁ args', changed⟩ ∧
        r₂ = ⟨checkedCall note fnote g₂ args', changed⟩)
      (normalizeParts env₁ n [] (checkedCall note fnote g₁ args))
      (normalizeParts env₂ n [] (checkedCall note fnote g₂ args)) := by
  cases n with
  | zero => exact .failure
  | succ n =>
    refine (normalizeTerm_atom_related env₁ env₂ n fnote _ _).bind ?_
    rintro _ _ ⟨rfl, rfl⟩
    refine (normalizeList_agrees henv n .nil hargs).bind ?_
    rintro r _ ⟨rfl, hr⟩
    exact .pure ⟨r.result, _, hr, rfl, rfl⟩

include hg₁ hg₂ in
theorem StacksAgree.of_fresh : StacksAgree S [g₁] [g₂] where
  length := rfl
  contains g hg := by
    have h₁ : g ≠ g₁ := by
      rintro rfl
      exact hg₁ hg
    have h₂ : g ≠ g₂ := by
      rintro rfl
      exact hg₂ hg
    simp [h₁, h₂]

include henv hg₁ hg₂ hf₁ hf₂ in
/-- Both calls are unfolded to the same, or neither is. -/
theorem unfoldCall_checkedCall (hf : f.Everywhere (Term.RefersInto S)) (n : Nat)
    {note fnote : Note .checked Checked} {args : List Checked}
    (hnote : note.Everywhere (Term.RefersInto S)) (hfnote : fnote.Everywhere (Term.RefersInto S))
    (hargs : EverywhereList (Term.RefersInto S) args) :
    Coupled False (SameOutcome S g₁ g₂) (unfoldCall env₁ n [] (checkedCall note fnote g₁ args))
      (unfoldCall env₂ n [] (checkedCall note fnote g₂ args)) := by
  have hkeep : SameCall S g₁ g₂ (checkedCall note fnote g₁ args) (checkedCall note fnote g₂ args) :=
    .call hnote hfnote hargs
  cases n with
  | zero => exact .failure
  | succ n =>
    rw [unfoldCall, unfoldCall, Term.unfolding?_checkedCall hf₁, Term.unfolding?_checkedCall hf₂,
      ← henv.inlineGlobals, ← henv.unfoldLimit]
    refine Coupled.get.bind ?_
    rintro attempts _ rfl
    have heffect : (checkedCall note fnote g₂ args).hasEffect
        = (checkedCall note fnote g₁ args).hasEffect := rfl
    rw [heffect]
    by_cases hopen : env₁.inlineGlobals && !(checkedCall note fnote g₁ args).hasEffect
        && 0 < env₁.unfoldLimit
    · rw [if_pos hopen, if_pos hopen]
      cases attempts with
      | zero => exact .pure ⟨hkeep, rfl⟩
      | succ attempts =>
        refine (Coupled.set attempts).bind fun _ _ _ => ?_
        -- the definition mentions neither of the two names, so both stacks do the same
        have hcall : Term.Everywhere (Term.RefersInto S)
            (.mk note (.app (.mk fnote (.bind .abs f)) args)) :=
          ⟨trivial, hnote, ⟨trivial, hfnote, hf⟩, hargs⟩
        refine (normalizeTerm_agrees henv n (.of_fresh hg₁ hg₂) hcall).bind ?_
        rintro u _ ⟨rfl, hu⟩
        simp only [Term.alphaEq_checkedCall hu hg₁, Term.alphaEq_checkedCall hu hg₂]
        exact .ite (.pure ⟨hkeep, rfl⟩) (.pure ⟨.same hu, rfl⟩)
    · rw [if_neg hopen, if_neg hopen]
      exact .pure ⟨hkeep, rfl⟩

include henv hg₁ hg₂ hf₁ hf₂ in
/-- The two calls are rewritten side by side. -/
theorem normalizeTerm_sameCall (hf : f.Everywhere (Term.RefersInto S)) : ∀ (n : Nat)
    {t₁ t₂ : Checked}, SameCall S g₁ g₂ t₁ t₂ →
      Coupled False (SameOutcome S g₁ g₂) (normalizeTerm env₁ n [] t₁)
        (normalizeTerm env₂ n [] t₂) := by
  intro n
  induction n with
  | zero => exact fun _ => .failure
  | succ n ih =>
    intro t₁ t₂ h
    cases h with
    | same ht =>
      refine (normalizeTerm_agrees henv (n + 1) .nil ht).mono ?_
      rintro r _ ⟨rfl, hr⟩
      exact ⟨.same hr, rfl⟩
    | @call note fnote args hnote hfnote hargs =>
      rw [normalizeTerm, normalizeTerm]
      refine (normalizeParts_checkedCall henv n hargs).bind ?_
      rintro _ _ ⟨args', changed, hargs', rfl, rfl⟩
      have hbeta : ∀ g, (checkedCall note fnote g args').beta? = none := fun _ => rfl
      simp only [hbeta, Rewritten.ofStep, Term.fold?_checkedCall hf₁, Term.fold?_checkedCall hf₂]
      refine (unfoldCall_checkedCall henv hg₁ hg₂ hf₁ hf₂ hf n hnote hfnote hargs').bind ?_
      rintro r₁ r₂ ⟨hsame, hchanged⟩
      rw [hchanged]
      refine .ite ((ih hsame).bind ?_) (.pure ⟨hsame, rfl⟩)
      rintro _ _ ⟨hagain, -⟩
      exact .pure ⟨hagain, rfl⟩

include henv hg₁ hg₂ hf₁ hf₂ in
/-- The normal forms of the two calls are the same, or are still the two calls. -/
theorem normalize?_sameCall (hf : f.Everywhere (Term.RefersInto S)) (n : Nat) {t₁ t₂ : Checked}
    (h : SameCall S g₁ g₂ t₁ t₂) :
    Option.Rel (SameCall S g₁ g₂) (env₁.normalize? n t₁) (env₂.normalize? n t₂) := by
  have hrun := normalizeTerm_sameCall henv hg₁ hg₂ hf₁ hf₂ hf n h env₁.unfoldFuel
  rw [Env.normalize?, Env.normalize?, ← henv.unfoldFuel]
  generalize (normalizeTerm env₁ n [] t₁).run env₁.unfoldFuel = r₁,
    (normalizeTerm env₂ n [] t₂).run env₁.unfoldFuel = r₂ at hrun ⊢
  cases hrun.resolve_left fun hearly => hearly.1 with
  | none => exact .none
  | some hr => exact .some hr.1.1

end

/-- A literal is none of the two calls. -/
theorem SameCall.value_iff {S : GlobalName → Prop} {g₁ g₂ : GlobalName} {t₁ t₂ v : Checked}
    (h : SameCall S g₁ g₂ t₁ t₂) (hv : v.isValue) : t₁ = v ↔ t₂ = v := by
  cases h with
  | same => rfl
  | call =>
    constructor
    · rintro rfl
      cases hv
    · rintro rfl
      cases hv

theorem Env.function?_of_get? {env : Env} {g : GlobalName} {e : Entry .checked}
    {f : Function .checked} (hget : env.get? g = some e) (he : e.item = .defined f) :
    env.function? g = some f := by
  obtain ⟨mark, name, item⟩ := e
  cases he
  rw [Env.function?, hget]

/-- Let `f` be defined in a module `m`, and let a closed set of names hold all names that the
definition mentions. If the names of the set mean the same inside of `m` and in the root, and `f` is
not among them, neither by its own name nor by the qualified one, then the call of `f` inside of `m`
and the qualified call from the root normalise to the same literals, for all literal arguments. -/
theorem qualified_call_normalizes_alike {env : Env} {m : List String} {name : String}
    {e : Entry .checked} {f : Function .checked} {S : GlobalName → Prop}
    (hdef : (env.enter m).modules.current.globals.get? name = some e) (he : e.item = .defined f)
    (hagree : (env.enter m).AgreeOn S (env.enter [])) (hf : f.Everywhere (Term.RefersInto S))
    (hname : ¬S { name := name }) (hqualified : ¬S { path := m, name := name })
    {args : List Written} (hargs : isValueList args) {fuel₁ fuel₂ : Nat} {ctx₁ ctx₂ : Context}
    {loc floc : Location} {t₁ t₂ : Checked}
    (h₁ : (env.enter m).assign fuel₁ ctx₁ (writtenCall loc floc { name := name } args) = .ok t₁)
    (h₂ : (env.enter []).assign fuel₂ ctx₂
      (writtenCall loc floc { path := m, name := name } args) = .ok t₂)
    (n : Nat) {v : Checked} (hv : v.isValue) :
    (env.enter m).normalize? n t₁ = some v ↔ (env.enter []).normalize? n t₂ = some v := by
  have hget₁ : (env.enter m).get? { name := name } = some e := Modules.get?_of_current hdef
  have hget₂ := Env.get?_qualified hdef
  have hsignature : e.item.signature? = some f.signature := by rw [he, Item.signature?]
  have hs : f.signature.Everywhere (Term.RefersInto S) := hf.bare
  -- both calls have the same arguments, and the same types
  obtain ⟨args₁, rest, hargs₁, rfl⟩ := checkedCall_of_assign hget₁ hsignature h₁
  obtain ⟨args₂, rest₂, hargs₂, rfl⟩ := checkedCall_of_assign hget₂ hsignature h₂
  obtain ⟨rfl, rfl, hargs', hrest⟩ := AcceptsArgs.literal_eq hagree hargs hs hargs₁ hargs₂
  have hcall : SameCall S { name := name } { path := m, name := name }
      (checkedCall (.sort rest.ret rfl) (.sort (Checked.pi f.signature) rfl) _ args₁)
      (checkedCall (.sort rest.ret rfl) (.sort (Checked.pi f.signature) rfl) _ args₁) :=
    .call hrest.ret ⟨trivial, ⟨trivial, trivial, trivial⟩, hs⟩ hargs'
  have hnormal := normalize?_sameCall hagree hname hqualified (Env.function?_of_get? hget₁ he)
    (Env.function?_of_get? hget₂ he) hf n hcall
  generalize (env.enter m).normalize? n _ = r₁, (env.enter []).normalize? n _ = r₂ at hnormal ⊢
  cases hnormal with
  | none => simp
  | some hsame => simpa using hsame.value_iff hv

/-! ## A name that is hidden -/

/-- The environment with a unit added to the module at a path. -/
def Env.withUnit (env : Env) (path : List String) (entries : List (Entry .written)) : Env :=
  ((checkUnit 16 entries).run.run (env.enter path)).2

/-- A number of type `u64`. -/
def number (n : Int) : Checked :=
  Checked.term Checked.u64 (.atom (.num n))

/-- The function `h` without arguments that returns a number. -/
def constantEntry (n : Int) : Entry .written :=
  let u64 : Written := .mk (.place {} rfl) (.atom (.int .u64))
  ⟨{}, "h", .defined (.runs .no u64 [.ret {} (.mk (.place {} rfl) (.atom (.num n)))])⟩

/-- The function `f` that adds the result of `h` to its argument. -/
def addingEntry : Entry .written :=
  let u64 : Written := .mk (.place {} rfl) (.atom (.int .u64))
  let x : Written := .mk (.place {} rfl) (.var { name := "x" })
  let sum : Written :=
    .mk (.place {} rfl) (.binary (.arith .plus) x (writtenCall {} {} { name := "h" } []))
  ⟨{}, "f", .defined (.arg {} .many u64 (some { name := "x" }) (.runs .no u64 [.ret {} sum]))⟩

/-- The argument list of the calls below. -/
def onlyThree : List Written :=
  [.mk (.place {} rfl) (.atom (.num 3))]

/-- The call of a function like `f` with the argument `3`. -/
def callOfThree (g : GlobalName) : Checked :=
  let s : Signature .checked :=
    .arg () .many Checked.u64 (some { name := "x" }) (.returns .no Checked.u64)
  checkedCall (.sort Checked.u64 rfl) (.sort (Checked.pi s) rfl) g [number 3]

/-- The module `m` defines `h` and `f`, and the root another `h`: the call `f(3)` inside of `m` is
`5`, and the call `m::f(3)` from the root is `4`. -/
theorem qualified_call_finds_other_function :
    let f : GlobalName := { name := "f" }
    let mf : GlobalName := { path := ["m"], name := "f" }
    let env := (({} : Env).withUnit ["m"] [constantEntry 2, addingEntry]).withUnit []
      [constantEntry 1]
    (env.enter ["m"]).assign 16 {} (writtenCall {} {} f onlyThree) = .ok (callOfThree f) ∧
      (env.enter []).assign 16 {} (writtenCall {} {} mf onlyThree) = .ok (callOfThree mf) ∧
      (env.enter ["m"]).normalize? 32 (callOfThree f) = some (number 5) ∧
      (env.enter []).normalize? 32 (callOfThree mf) = some (number 4) := by
  refine ⟨?_, ?_, ?_, ?_⟩
  all_goals decide +kernel +zetaReduce

/-- The root defines `h`, and the module `m` defines `f`. -/
def rootEnv : Env :=
  (({} : Env).withUnit [] [constantEntry 2]).withUnit ["m"] [addingEntry]

/-- The function `h` of the root as checked. -/
def constantFunction : Function .checked :=
  .runs .no Checked.u64 [.ret () (number 2)]

/-- The function `f` as checked. -/
def addingFunction : Function .checked :=
  let x := Checked.term Checked.u64 (.var { name := "x" })
  let h := checkedCall (.sort Checked.u64 rfl) (.sort (Checked.pi (.returns .no Checked.u64)) rfl)
    { name := "h" } []
  .arg () .many Checked.u64 (some { name := "x" })
    (.runs .no Checked.u64 [.ret () (Checked.term Checked.u64 (.binary (.arith .plus) x h))])

theorem rootEnv_get? : (rootEnv.enter ["m"]).get? { name := "h" }
    = some ⟨(), "h", .defined constantFunction⟩ :=
  rfl

theorem rootEnv_enter_get? : (rootEnv.enter []).get? { name := "h" }
    = some ⟨(), "h", .defined constantFunction⟩ :=
  rfl

/-- The name `h` means the same in the module `m` and in the root. -/
theorem rootEnv_agreeOn :
    (rootEnv.enter ["m"]).AgreeOn (· = { name := "h" }) (rootEnv.enter []) := by
  refine ⟨?_, ?_, rfl, rfl, rfl⟩
  · rintro _ rfl
    rw [rootEnv_get?, rootEnv_enter_get?]
  · rintro _ e rfl he
    rw [rootEnv_get?] at he
    cases he
    simp [Item.Everywhere, constantFunction, Tele.Everywhere, EverywhereBody, Stmt.Everywhere,
      number, Checked.u64, Checked.type, Checked.term, Checked.typename, Term.Everywhere,
      Note.Everywhere, Form.Everywhere, Term.RefersInto, Term.References]

theorem addingFunction_everywhere :
    addingFunction.Everywhere (Term.RefersInto (· = { name := "h" })) := by
  simp [addingFunction, Tele.Everywhere, EverywhereBody, Stmt.Everywhere, checkedCall,
    EverywhereList, Checked.pi, Checked.u64, Checked.type, Checked.term, Checked.typename,
    Term.Everywhere, Note.Everywhere, Form.Everywhere, Term.RefersInto, Term.References]

/-- If only the root defines `h`, the calls `f(3)` and `m::f(3)` agree. -/
theorem qualified_call_finds_same_function :
    (rootEnv.enter ["m"]).normalize? 32 (callOfThree { name := "f" }) = some (number 5) ∧
      (rootEnv.enter []).normalize? 32 (callOfThree { path := ["m"], name := "f" })
        = some (number 5) := by
  have hdef : (rootEnv.enter ["m"]).modules.current.globals.get? "f"
      = some ⟨(), "f", .defined addingFunction⟩ := by decide +kernel
  have h₁ : (rootEnv.enter ["m"]).assign 16 {} (writtenCall {} {} { name := "f" } onlyThree)
      = .ok (callOfThree { name := "f" }) := by decide +kernel
  have h₂ : (rootEnv.enter []).assign 16 {}
      (writtenCall {} {} { path := ["m"], name := "f" } onlyThree)
      = .ok (callOfThree { path := ["m"], name := "f" }) := by decide +kernel
  have hinside : (rootEnv.enter ["m"]).normalize? 32 (callOfThree { name := "f" })
      = some (number 5) := by decide +kernel
  refine ⟨hinside, ?_⟩
  exact (qualified_call_normalizes_alike hdef rfl rootEnv_agreeOn addingFunction_everywhere
    (by decide) (by decide) rfl h₁ h₂ 32 rfl).mp hinside

end DependentCore
