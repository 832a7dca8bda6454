import DependentCore.Proofs.Binding.Addressed
import DependentCore.Proofs.Binding.Outline
import DependentCore.Proofs.Reduction.Everywhere
import DependentCore.Proofs.Reduction.NormalForms

/-!
# What a normal form addresses

Beta reduction puts the arguments of a call for those of an abstraction, and unfolding puts a
definition for its name. So normalisation keeps what is addressed if no argument of an abstraction
is addressed in its scope, and nothing in the definitions that are unfolded. A definition with
effects is not unfolded: there the arguments may be addressed, as long as references show that it
has effects.

* `Env.ShowsEffect`: a reference that was checked as one without effects is still one,
* `Term.Steps.addressesIn`: a step at the root addresses nothing new,
* `Rewrites.addressesIn`: so do all passes of normalisation.
-/

namespace DependentCore

variable {env : Env} {stack : List GlobalName} {S : Var → Prop}

/-! ## Statements -/

mutual

theorem Stmt.addressesIn_iff_terms : ∀ {s : Stmt .checked},
    s.AddressesIn S ↔ ∀ t ∈ s.terms, t.AddressesIn S
  | .call _ _ | .ret _ _ | .impossibleBy _ _ => by simp [Stmt.AddressesIn, Stmt.terms]
  | .ifThen _ _ _ => by simp [Stmt.AddressesIn, Stmt.terms, addressesInBody_iff_terms]
  | .ifElse _ _ _ _ => by
    simp [Stmt.AddressesIn, Stmt.terms, addressesInBody_iff_terms, or_imp, forall_and]
  | .retUnit _ | .impossible _ => by simp [Stmt.AddressesIn, Stmt.terms]

theorem addressesInBody_iff_terms : ∀ {b : List (Stmt .checked)},
    AddressesInBody S b ↔ ∀ t ∈ bodyTerms b, t.AddressesIn S
  | [] => by simp [AddressesInBody, bodyTerms]
  | _ :: _ => by
    simp [AddressesInBody, bodyTerms, Stmt.addressesIn_iff_terms, addressesInBody_iff_terms, or_imp,
      forall_and]

end

theorem AddressesInBody.of_terms_subset {b c : Body .checked} (hb : AddressesInBody S b)
    (h : bodyTerms c ⊆ bodyTerms b) : AddressesInBody S c :=
  addressesInBody_iff_terms.mpr fun t ht => addressesInBody_iff_terms.mp hb t (h ht)

/-! ## Arguments -/

theorem AddressesInList.except_new {args : List Checked} (h : AddressesInList S args) {x : Var}
    (hx : maxIndexList args < x.index) : AddressesInList (fun y => some x ≠ some y ∧ S y) args := by
  refine h.congr fun y hy hS => ⟨?_, hS⟩
  rintro ⟨⟩
  exact absurd (index_le_maxIndexList args hy) (by omega)

/-- The arguments of a telescope are renamed to new variables before any is supplied. -/
theorem Tele.AddressesIn.supply {floor : Nat} {k : Binder} : ∀ {args : List Checked}
    {S : Var → Prop} {t : Tele .checked k}, AddressesInList S args → maxIndexList args ≤ floor →
      t.AddressesIn S → (t.supply floor args).AddressesIn S
  | _ :: args, _, .arg _ _ _ (some v) rest, hargs, hfloor, ht => by
    have hfloor' : maxIndexList args ≤ floor := by
      rw [maxIndexList] at hfloor
      omega
    have hnew : floor < (rest.refresh v floor).1.index := rest.floor_lt_fresh v floor
    have hargs' := hargs.except_new (Nat.lt_of_le_of_lt hfloor hnew)
    have hrest := Tele.AddressesIn.supply hargs'.2 hfloor' (ht.2.refresh floor)
    exact ⟨ht.1, hrest.subst (fun y hy => ⟨fun h => hy.1 (congrArg some h.symm), hy⟩) hargs'.1⟩
  | _ :: args, S, .arg _ _ _ none _, hargs, hfloor, ht => by
    have hfloor' : maxIndexList args ≤ floor := by
      rw [maxIndexList] at hfloor
      omega
    have hargs' : AddressesInList (fun y => none ≠ some y ∧ S y) args :=
      hargs.2.congr fun y _ hS => ⟨(Option.some_ne_none y).symm, hS⟩
    exact ⟨ht.1, Tele.AddressesIn.supply hargs' hfloor' ht.2⟩
  | _ :: _, _, .fields, _, _, ht | _ :: _, _, .returns _ _, _, _, ht
  | _ :: _, _, .runs _ _ _, _, _, ht => ht
  | [], _, t, _, _, ht => by cases t <;> exact ht

theorem Tele.AddressesIn.dropArgs : ∀ {k : Binder} {S : Var → Prop} {t : Tele .checked k},
    t.AddressesIn S → t.dropArgs.AddressesIn S
  | _, _, .fields, h | _, _, .returns _ _, h | _, _, .runs _ _ _, h => h
  | _, _, .arg _ _ _ _ _, h => (h.2.mono fun _ hy => hy.2).dropArgs

theorem Tele.AddressesIn.apply {f : Function .checked} (hf : f.AddressesIn S)
    {args : List Checked} (hargs : AddressesInList S args) : (f.apply args).AddressesIn S :=
  (hf.supply hargs (Nat.le_refl _)).dropArgs

/-! ## Steps -/

theorem Term.Steps.addressesIn {t u : Checked} (h : Term.Steps env t u) (ht : t.AddressesIn S) :
    u.AddressesIn S := by
  cases h with
  | because => exact ht.2.1
  | @supply note fnote f args =>
    obtain ⟨hnote, ⟨hfnote, hf⟩, hargs⟩ := ht
    have happly := Tele.AddressesIn.apply hf hargs
    refine ⟨hnote, ⟨?_, happly⟩, trivial⟩
    cases fnote with
    | place | kind => trivial
    | sort ty =>
      have hty : ty.AddressesIn S := hfnote
      exact ⟨hty.note, happly.bare⟩
  | ret hbody => exact (Tele.AddressesIn.body? ht.2.1.2 hbody).1
  | not | logic | compare | arith => exact ⟨ht.1, trivial⟩
  | member hu =>
    obtain ⟨xs, _, _, _, hform, -, -, -, hget⟩ := selectMember?_eq_some hu
    have hx := ht.2.2.form
    rw [hform] at hx
    exact addressesInList_iff.mp hx u (List.mem_of_getElem? hget)
  | element hu =>
    obtain ⟨xs, _, _, hform, -, -, hget⟩ := selectElement?_eq_some hu
    have hx := ht.2.1.form
    rw [hform] at hx
    exact addressesInList_iff.mp hx u (List.mem_of_getElem? hget)
  | slice _ hxs =>
    obtain ⟨_, ys, hys, hsub⟩ := dropElements?_eq_some hxs
    have hlist : AddressesInList S ys := (addressesInList_iff.mp ht.2.2 _ hys).2
    exact ⟨ht.1, addressesInList_iff.mpr fun x hx =>
      addressesInList_iff.mp hlist x (hsub.subset hx)⟩

/-! ## References -/

/-- A reference to a function with effects shows that it has some: a reference that was checked as
one without effects does not refer to such a function now. -/
def Env.ShowsEffect (env : Env) (g : GlobalName) (note : Note .checked Checked) : Prop :=
  ∀ f, env.function? g = some f → f.mutability = .yes →
    (Term.mk note (.atom (.global g))).hasMutableSort

theorem substitutive_showsEffect (env : Env) : Substitutive (Term.References env.ShowsEffect) := by
  refine substitutive_references ?_ ?_
  · intro g note x y h f hf hmut
    exact (Term.hasMutableSort_rename x y (.mk note (.atom (.global g)))).trans (h f hf hmut)
  · intro g note x r h f hf hmut
    have hshown := h f hf hmut
    have hpi : (Term.mk note (.atom (.global g))).piSort?.isSome := by
      unfold Term.hasMutableSort at hshown
      split at hshown
      · next hs => rw [hs]; rfl
      · cases hshown
    have hsubst := Term.hasMutableSort_subst (x := x) (r := r) rfl hpi
    rw [Term.subst_atom] at hsubst
    exact hsubst.trans hshown

/-- What can be unfolded addresses nothing, and the references in it show effects. -/
structure Env.UnfoldsPlain (env : Env) : Prop where
  plain : ∀ {g f}, env.function? g = some f → f.mutability = .no → f.AddressesIn fun _ => False
  shows : ∀ {g f}, env.function? g = some f → f.Everywhere (Term.References env.ShowsEffect)

theorem Env.UnfoldsPlain.rewriteInvariant (henv : env.UnfoldsPlain) :
    RewriteInvariant env (Term.References env.ShowsEffect) where
  toStepInvariant := stepInvariant_references env (substitutive_showsEffect env)
  unfold _ _ := trivial
  defined := henv.shows

/-! ## Normalisation -/

/-- Only a definition without effects is unfolded. -/
theorem Term.AddressesIn.unfolding (henv : env.UnfoldsPlain) {t call : Checked} {g : GlobalName}
    (h : t.unfolding? env stack = some (g, call))
    (href : t.Everywhere (Term.References env.ShowsEffect)) (ht : t.AddressesIn S) :
    call.AddressesIn S := by
  unfold Term.unfolding? at h
  split at h
  · next note fnote g' args =>
    split at h
    · next f hf =>
      split at h
      · next hcond =>
        cases h
        have hmut : f.mutability = .no := by
          cases hm : f.mutability with
          | no => rfl
          | yes =>
            have hshown : Term.hasMutableSort _ := href.2.2.1.1 f hf hm
            simp [Term.hasEffect, Form.hasEffect, hshown] at hcond
        exact ⟨ht.1, ⟨ht.2.1.1, (henv.plain hf hmut).of_false⟩, ht.2.2⟩
      · cases h
    · cases h
  · cases h

/-- A variable is not rewritten. -/
theorem Rewrites.eq_of_var {t u : Checked} {v : Var} {c : Bool} (ht : t.form = .var v)
    (h : Rewrites env stack (.term t) (.term u) c) : u = t := by
  obtain ⟨note, form⟩ := t
  obtain rfl : form = .var v := ht
  have hcall {t₁ t₂ c₁ c₂} (h₁ : Rewrites env stack (.parts (.mk note (.var v))) (.parts t₁) c₁)
      (h₂ : Rewrites env stack (.call (t₁.reduce env).result) (.call t₂) c₂) :
      t₂ = .mk note (.var v) ∧ (c₁ || (t₁.reduce env).changed || c₂) = false := by
    cases h₁
    cases h₂ with
    | unfold hunfold => cases hunfold
    | keep => exact ⟨rfl, rfl⟩
  cases h with
  | again h₁ h₂ hchanged =>
    rw [(hcall h₁ h₂).2] at hchanged
    cases hchanged
  | done h₁ h₂ => exact (hcall h₁ h₂).1

/-- What is addressed in what a pass rewrites are variables of a set. -/
def Subject.AddressesIn (S : Var → Prop) : Subject → Prop
  | .term t | .parts t | .call t => t.AddressesIn S
  | .list xs => AddressesInList S xs
  | .tele t => t.AddressesIn S
  | .body b | .stmts b => AddressesInBody S b
  | .stmt s => s.AddressesIn S

/-- All passes of normalisation address nothing new. -/
theorem Rewrites.addressesIn (henv : env.UnfoldsPlain) {a a' : Subject} {c : Bool}
    (h : Rewrites env stack a a' c) : a.Everywhere (Term.References env.ShowsEffect) →
      ∀ {S : Var → Prop}, a.AddressesIn S → a'.AddressesIn S := by
  have hP := henv.rewriteInvariant
  -- after the parts of a term come a step of beta reduction and one of folding at its root
  have hreduce {t : Checked} {S : Var → Prop} (ht : t.AddressesIn S) :
      (t.reduce env).result.AddressesIn S :=
    Term.reduce_induction (fun _ _ ht hstep => hstep.addressesIn ht) ht
  have hreduce' {t : Checked} (ht : t.Everywhere (Term.References env.ShowsEffect)) :
      (t.reduce env).result.Everywhere (Term.References env.ShowsEffect) :=
    Term.reduce_induction (fun _ _ ht hstep => hstep.everywhere hP.toStepInvariant ht) ht
  induction h with
  | again h₁ h₂ _ _ hparts hcall hterm =>
    intro href S h
    have href₁ := hreduce' (h₁.everywhere hP href)
    exact hterm (h₂.everywhere hP href₁) (hcall href₁ (hreduce (hparts href h)))
  | done h₁ _ _ hparts hcall =>
    intro href S h
    exact hcall (hreduce' (h₁.everywhere hP href)) (hreduce (hparts href h))
  | atom | var | nil | fields | keep | stmtsNil | retUnit | impossible => exact fun _ _ h => h
  | unary hx ih =>
    intro href S h
    refine ⟨h.1, fun hop => ?_, ih href.2.2 h.2.2⟩
    obtain ⟨v, hv, hS⟩ := (h.2.1 hop).exists_var
    rw [hx.eq_of_var hv]
    exact h.2.1 hop
  | list _ ih => exact fun href _ h => ⟨h.1, ih href.2.2 h.2⟩
  | binary _ _ ihx ihy | app _ _ ihx ihy =>
    exact fun href _ h => ⟨h.1, ihx href.2.2.1 h.2.1, ihy href.2.2.2 h.2.2⟩
  | bind _ ih => exact fun href _ h => ⟨h.1, ih href.2.2 h.2⟩
  | returns _ ih | stmtCall _ ih | ret _ ih | impossibleBy _ ih => exact fun href _ h => ih href h
  | cons _ _ ih₁ ih₂ | runs _ _ ih₁ ih₂ | arg _ _ ih₁ ih₂ | ifThen _ _ ih₁ ih₂
  | stmtsNext _ _ _ ih₁ ih₂ => exact fun href _ h => ⟨ih₁ href.1 h.1, ih₂ href.2 h.2⟩
  | unfold hunfold _ _ ih =>
    exact fun href _ h => ih (Term.Everywhere.unfolding hP hunfold href)
      (Term.AddressesIn.unfolding henv hunfold href h)
  | bodyAgain h₁ _ _ hstmts hbody =>
    intro href S h
    have href' := dropUnreachable_everywhere href
    have hrest := hstmts href' (h.of_terms_subset (bodyTerms_dropUnreachable_subset _))
    exact hbody (pruneStmts_everywhere (h₁.everywhere hP href'))
      (AddressesInBody.of_terms_subset hrest (bodyTerms_pruneStmts_subset _))
  | bodyDone h₁ _ hstmts =>
    intro href S h
    have hrest := hstmts (dropUnreachable_everywhere href)
      (h.of_terms_subset (bodyTerms_dropUnreachable_subset _))
    exact AddressesInBody.of_terms_subset hrest (bodyTerms_pruneStmts_subset _)
  | stmtsStop _ _ ih => exact fun href _ h => ⟨ih href.1 h.1, h.2⟩
  | ifElse _ _ _ ih₁ ih₂ ih₃ =>
    exact fun href _ h => ⟨ih₁ href.1 h.1, ih₂ href.2.1 h.2.1, ih₃ href.2.2 h.2.2⟩

end DependentCore
