import DependentCore.Proofs.Binding.Outline
import DependentCore.Proofs.Globals.Entries
import DependentCore.Proofs.Typing.Locality
import DependentCore.Syntax.Equality

/-!
# References keep their meaning

A checked term carries, at each reference to a global, what the global was when the term was
checked: a type, or a function with its signature. Later entries may define what was only declared,
so the question is whether references still mean the same when the whole unit is checked.

* `Env.Resolves`: a name refers to what a note says, where the two signatures are related,
* `Tele.Accepts.outline_eq`: the outline of a signature, which is all that substitution keeps of the
  signature in a note, is that of the written one,
* `signature_eq_of_coupled`: the signature of a function is checked twice, once for its declaration
  and once with its body, and the outcome is the same,
* `checked_references_resolve`: types remain types and functions remain functions of the same
  outline; and at the nodes of the syntax the signatures are equal up to bound names.

There are two gaps. The function `slice` is built in only until the unit defines its own, and then
references that were checked before refer to the new one (`references_change_meaning`). And a
function that is found for a placeholder carries a signature in which substitution may have confused
two variables.
-/

namespace DependentCore

variable {p : Phase}

/-! ## Outlines -/

theorem Tele.Accepts.outline_eq {fuel : Nat} {env : Env} {ctx : Context} {k : Binder}
    {t : Tele .written k} {t' : Tele .checked k} (h : Tele.Accepts fuel env ctx t t') :
    t'.outline = t.outline := by
  induction k, t using Tele.args_induction generalizing ctx with
  | fields | returns | runs =>
    cases h
    rfl
  | arg _ _ _ _ _ _ ih =>
    cases h with
    | arg _ _ h => rw [Tele.outline_arg, Tele.outline_arg, ih h]

/-! ## Names and notes -/

/-- A name refers to what a note says: to a type, or to a function whose signature is related to the
one in the note. The note may also say that the name is the function `slice` that is built in. -/
inductive Env.Resolves (R : Signature .checked → Signature .checked → Prop) (env : Env)
    (g : GlobalName) : Note .checked Checked → Prop where
  | type {e} : env.get? g = some e → e.item.signature? = none →
    env.Resolves R g (.sort Checked.typename rfl)
  | function {e s s'} : env.get? g = some e → e.item.signature? = some s' → R s s' →
    env.Resolves R g (.sort (Checked.pi s) rfl)
  | builtin {s} : g = sliceName → R s Checked.slice → env.Resolves R g (.sort (Checked.pi s) rfl)

section
variable {R R₁ R₂ : Signature .checked → Signature .checked → Prop} {env env' : Env}
  {g : GlobalName}

/-- A reference is given the sort that its name has at the time. -/
theorem Env.resolves_of_assignGlobal {ctx : Context} {loc : Location} {t : Checked}
    (h : assignGlobal env ctx loc g = .ok t) :
    ∃ note, t = .mk note (.atom (.global g)) ∧ env.Resolves Eq g note := by
  unfold assignGlobal at h
  split at h
  · next e hget =>
    split at h
    · next s hs =>
      cases h
      exact ⟨_, rfl, .function hget hs rfl⟩
    · next hs =>
      cases h
      exact ⟨_, rfl, .type hget hs⟩
  · split at h
    · next hslice =>
      cases h
      rw [Env.isBuiltinSlice, Bool.and_eq_true, decide_eq_true_eq] at hslice
      exact ⟨_, rfl, .builtin hslice.1 rfl⟩
    · cases h

theorem Env.Resolves.mono {note : Note .checked Checked} (hR : ∀ s s', R₁ s s' → R₂ s s')
    (h : env.Resolves R₁ g note) : env.Resolves R₂ g note := by
  cases h with
  | type hget hs => exact .type hget hs
  | function hget hs h => exact .function hget hs (hR _ _ h)
  | builtin hg h => exact .builtin hg (hR _ _ h)

/-- A name goes on referring to a type or to a function, whose signature changes as allowed. -/
theorem Env.Resolves.grow {note : Note .checked Checked} (hgrows : env.Grows R env')
    (hsame : ∀ s s', R₁ s s' → R₂ s s') (hR : ∀ s s' s'', R₁ s s' → R s' s'' → R₂ s s'')
    (h : env.Resolves R₁ g note) : env'.Resolves R₂ g note := by
  cases h with
  | type hget hs =>
    obtain ⟨e', hget', hitem | ⟨d, f, hd, hf, -⟩⟩ := hgrows g _ hget
    · exact .type hget' (by rw [hitem, hs])
    · rw [hd] at hs
      cases hs
  | function hget hs h =>
    obtain ⟨e', hget', hitem | ⟨d, f, hd, hf, hdf⟩⟩ := hgrows g _ hget
    · exact .function hget' (by rw [hitem, hs]) (hsame _ _ h)
    · rw [hd] at hs
      cases hs
      exact .function hget' (by rw [hf]; rfl) (hR _ _ _ h hdf)
  | builtin hg h => exact .builtin hg (hsame _ _ h)

end

/-- Two signatures have the same outline. -/
def SameOutline (s s' : Signature .checked) : Prop :=
  s.outline = s'.outline

/-- Two signatures are equal up to bound names. -/
def SameSignature (s s' : Signature .checked) : Prop :=
  s.alphaEq s'

instance (s s' : Signature .checked) : Decidable (SameSignature s s') :=
  inferInstanceAs (Decidable (s.alphaEq s' = true))

/-! ## Every node -/

section
variable {env env' : Env} {fuel : Nat}

theorem Checked.subst_pi (s : Signature .checked) (x : Var) (r : Checked) :
    (Checked.pi s).subst x r = Checked.pi (s.subst x r) := by
  rw [Checked.pi, Checked.type, Checked.term, Term.subst_bind]
  rfl

theorem substitutive_resolves (env : Env) :
    Substitutive (Term.References (env.Resolves SameOutline)) := by
  refine substitutive_references ?_ ?_
  · rintro g _ x y (⟨hget, hs⟩ | ⟨hget, hs, h⟩ | ⟨hg, h⟩)
    · exact .type hget hs
    · exact .function hget hs ((Tele.outline_rename x y _).trans h)
    · exact .builtin hg ((Tele.outline_rename x y _).trans h)
  · rintro g _ x r (⟨hget, hs⟩ | ⟨hget, hs, h⟩ | ⟨hg, h⟩)
    · exact .type hget hs
    · rw [Note.map, Checked.subst_pi]
      exact .function hget hs ((Tele.outline_subst x r _).trans h)
    · rw [Note.map, Checked.subst_pi]
      exact .builtin hg ((Tele.outline_subst x r _).trans h)

/-- A property of references holds of what is checked if references are given it and substitution
keeps it. -/
theorem nodeInvariant_references {Q : GlobalName → Note .checked Checked → Prop}
    (hsubst : Substitutive (Term.References Q))
    (hglobal : ∀ ctx loc g t, assignGlobal env ctx loc g = .ok t → t.References Q)
    (hstored : ∀ g e, env.get? g = some e → e.item.Everywhere (Term.References Q)) :
    NodeInvariant env (Term.References Q) where
  substitutive := hsubst
  compound t hform _ := by
    obtain ⟨note, form⟩ := t
    cases form with
    | atom a => exact absurd rfl (hform a)
    | _ => trivial
  literal note a ha _ _ := by
    cases a with
    | global => cases ha
    | _ => trivial
  numeral _ _ _ _ _ := trivial
  global := hglobal
  stored := hstored

/-- An item is checked to one in which a property of nodes holds everywhere. -/
theorem Item.Accepts.everywhere {P : Checked → Prop} (hP : NodeInvariant env P)
    {item : Item .written} {item' : Item .checked} (h : item.Accepts fuel env item') :
    item'.Everywhere P := by
  cases h with
  | integer => trivial
  | struct h | declared h | external h | defined h => exact h.everywhere hP Context.Everywhere.empty

theorem Item.Everywhere.mono {P P' : Term p → Prop} (h : ∀ t, P t → P' t) {item : Item p}
    (hitem : item.Everywhere P) : item.Everywhere P' := by
  cases item with
  | integer => trivial
  | struct | declared | external | defined => exact Tele.Everywhere.mono h hitem

theorem Term.References.mono {Q Q' : GlobalName → Note p (Term p) → Prop}
    (h : ∀ g note, Q g note → Q' g note) {t : Term p} (ht : t.References Q) : t.References Q' := by
  unfold Term.References at ht ⊢
  split
  · exact h _ _ ht
  · trivial

/-- In an environment whose references resolve, the references of what is checked do. -/
theorem nodeInvariant_resolves
    (hstored : ∀ g e, env.get? g = some e →
      e.item.Everywhere (Term.References (env.Resolves SameOutline))) :
    NodeInvariant env (Term.References (env.Resolves SameOutline)) := by
  refine nodeInvariant_references (substitutive_resolves env) ?_ hstored
  intro ctx loc g t ht
  obtain ⟨note, rfl, hnote⟩ := Env.resolves_of_assignGlobal ht
  exact hnote.mono fun _ _ heq => congrArg Tele.outline heq

theorem Term.References.grow {R : Signature .checked → Signature .checked → Prop}
    (hR : ∀ s s', R s s' → SameOutline s s') (hgrows : env.Grows R env') {t : Checked}
    (h : t.References (env.Resolves SameOutline)) : t.References (env'.Resolves SameOutline) := by
  refine h.mono fun _ _ hnote => hnote.grow hgrows (fun _ _ h => h) ?_
  exact fun s s' s'' h h' => h.trans (hR s' s'' h')

/-- A property of nodes that the checker maintains, and that is kept when the environment grows,
holds everywhere in the items of a unit. -/
theorem unitInvariant_of_nodeInvariant {P : Env → Checked → Prop}
    (hnode : ∀ {env : Env}, (∀ g e, env.get? g = some e → e.item.Everywhere (P env)) →
      NodeInvariant env (P env))
    (hgrow : ∀ {env env' : Env} {t : Checked}, env.Grows SameOutline env' → P env t → P env' t) :
    UnitInvariant fuel (fun _ => True) SameOutline fun env _ item => item.Everywhere (P env) where
  establish henv h := by
    refine (Item.accepts_of_checkItem h).everywhere (hnode fun g e he => ?_)
    obtain ⟨_, he⟩ := henv.stored g e he
    exact he
  grow hgrows h := h.mono fun _ => hgrow hgrows
  follows {_ _ _ _ f s d f'} _ _ hs halpha _ hf := by
    cases Item.accepts_of_checkItem hs with
    | declared hs =>
      cases Item.accepts_of_checkItem hf with
      | defined hf =>
        calc d.outline = s.outline := Tele.outline_of_alphaEqUnder halpha
          _ = Tele.outline _ := hs.outline_eq
          _ = f'.signature.outline := hf.bare.outline_eq.symm

/-- References resolve to a type or to a function of the same outline, in the sorts as well. -/
theorem unitInvariant_everywhere : UnitInvariant fuel (fun _ => True) SameOutline
    fun env _ item => item.Everywhere (Term.References (env.Resolves SameOutline)) :=
  unitInvariant_of_nodeInvariant nodeInvariant_resolves
    fun hgrows h => h.grow (fun _ _ h => h) hgrows

/-! ## Nodes of the syntax -/

/-- What a written term is checked to resolves, if it is a reference. -/
theorem Term.Accepts.references {ctx : Context} {mode : Mode} {e : Written} {t : Checked}
    (h : Term.Accepts fuel env ctx mode e t) : t.References (env.Resolves Eq) := by
  cases h with
  | @atom _ _ loc _ a _ h =>
    cases a with
    | global g =>
      obtain ⟨u, hu, h⟩ := Check.bind_eq_ok.mp h
      obtain ⟨rfl, -⟩ := conclude_eq_ok h
      obtain ⟨note, rfl, hnote⟩ := Env.resolves_of_assignGlobal hu
      exact hnote
    | _ =>
      obtain ⟨note, form⟩ := t
      cases form_of_elaborateAtom h
      trivial
  | var h =>
    obtain ⟨note, form⟩ := t
    cases form_of_assignVar h
    trivial
  | _ => trivial

theorem Item.Accepts.nodes {item : Item .written} {item' : Item .checked}
    (h : item.Accepts fuel env item') : AllComeFrom fuel env item.nodes item'.nodes := by
  cases h with
  | integer => exact .nil
  | struct h | declared h | external h | defined h => exact h.nodes

/-! ## Signatures of definitions -/

/-- Any environment may be extended by the declaration of a function with a new name. -/
theorem Env.coupled_insert? {name : String} (hslice : name ≠ "slice")
    (hnew : env.get? { name := name } = none) {s : Signature .checked}
    (hinsert : env.insert? name ⟨(), name, .declared s⟩ = some env') :
    env.Coupled .identity (fun _ => True) env' := by
  have hmeaning (g : GlobalName) : SameMeaning .identity g (env.get? g) (env'.get? g) := by
    rw [Env.get?_insert? hinsert]
    by_cases hg : g = { name := name }
    · subst hg
      rw [if_pos rfl, hnew]
      exact .declared fun h => hslice (congrArg GlobalName.name h)
    · rw [if_neg hg]
      exact .of_unchanged g fun e _ => e.item.relabel_identity
  obtain ⟨-, rfl⟩ := Env.insert?_eq_some.mp hinsert
  exact ⟨fun g _ => hmeaning g, fun _ e _ _ => e.item.everywhere_refersInto_true, rfl, rfl, rfl⟩

theorem Tele.elaborate_bare {k : Binder} {t : Tele .written k} {ctx : Context} {loc : Location}
    {t' : Tele .checked k} (h : t.elaborate fuel env ctx loc = .ok t') :
    t.bare.elaborate fuel env ctx loc = .ok t'.bare := by
  induction k, t using Tele.args_induction generalizing ctx with
  | fields =>
    cases h
    rfl
  | returns m ret =>
    obtain ⟨ret', hret, h⟩ := Check.bind_eq_ok.mp h
    cases h
    exact Check.bind_eq_ok.mpr ⟨ret', hret, rfl⟩
  | runs m ret body =>
    obtain ⟨ret', hret, h⟩ := Check.bind_eq_ok.mp h
    obtain ⟨body', hbody, h⟩ := Check.bind_eq_ok.mp h
    split at h
    · cases h
      exact Check.bind_eq_ok.mpr ⟨ret', hret, rfl⟩
    · cases h
  | arg _ mark qty ty v rest ih =>
    obtain ⟨ty', hty, h⟩ := Check.bind_eq_ok.mp h
    obtain ⟨ctx', hdeclare, h⟩ := Check.bind_eq_ok.mp h
    obtain ⟨rest', hrest, h⟩ := Check.bind_eq_ok.mp h
    cases h
    exact Check.bind_eq_ok.mpr ⟨ty', hty,
      Check.bind_eq_ok.mpr ⟨ctx', hdeclare, Check.bind_eq_ok.mpr ⟨_, ih hrest, rfl⟩⟩⟩

/-- A function is checked to one with the signature that it was declared with, since its signature
is checked a second time with the same outcome. -/
theorem signature_eq_of_coupled (henv : env.Coupled .identity (fun _ => True) env')
    {loc : Location}
    {f : Function .written} {s : Signature .checked} {f' : Function .checked}
    (hs : checkItem fuel env loc (.declared f.signature) = .ok (.declared s))
    (hf : checkItem fuel env' loc (.defined f) = .ok (.defined f')) : s = f'.signature := by
  have hsecond : f.signature.elaborate fuel env' (Context.newScopeOf {} f.mutability) loc = .ok s :=
    henv.elaborate (checkItem_declared_eq_ok.mp hs) f.mutability
  have hdefined := Tele.elaborate_bare (checkItem_defined_eq_ok.mp hf)
  exact Except.ok.inj (hsecond.symm.trans hdefined)

/-- A function whose signature has no placeholders is checked to one with the signature that it was
declared with up to the sorts, whatever the environments. -/
theorem alphaEq_signature_of_explicit {f : Function .written} (h : Explicit f.signature.nodes)
    {loc : Location} {s d : Signature .checked} {f' : Function .checked}
    (hs : checkItem fuel env loc (.declared f.signature) = .ok (.declared s))
    (hf : checkItem fuel env' loc (.defined f) = .ok (.defined f')) (halpha : d.alphaEq s) :
    d.alphaEq f'.signature := by
  cases Item.accepts_of_checkItem hs with
  | declared hs =>
    cases Item.accepts_of_checkItem hf with
    | defined hf =>
      have herase : s.erase = f'.signature.erase :=
        (hs.erase_eq h).trans (hf.bare.erase_eq h).symm
      rw [← Tele.alphaEq_congr herase]
      exact halpha

/-- The nodes of an item carry what their names meant in an environment that has since grown. -/
theorem unitInvariant_nodes :
    UnitInvariant fuel
      (fun e => e.name = "slice" → ∀ f, e.item = .defined f → Explicit f.signature.nodes)
      SameSignature fun env item item' =>
        item'.Everywhere (Term.References (env.Resolves SameOutline)) ∧
          ∃ env₁ : Env, env₁.Grows SameSignature env ∧ ∀ t ∈ item'.nodes,
            t.References (env₁.Resolves Eq) ∨ ¬Explicit item.nodes ∧ t.IsInferred fuel env₁ where
  establish {env _ _ _} henv h := by
    have haccepts := Item.accepts_of_checkItem h
    refine ⟨haccepts.everywhere (nodeInvariant_resolves fun g e he => ?_), env, .refl env,
      fun t ht => ?_⟩
    · obtain ⟨_, he, -⟩ := henv.stored g e he
      exact he
    · obtain ⟨e, he, ⟨_, _, haccepts⟩ | ⟨hauto, hinferred⟩⟩ := haccepts.nodes t ht
      · exact .inl haccepts.references
      · refine .inr ⟨fun hexplicit => ?_, hinferred⟩
        rw [hexplicit e he] at hauto
        cases hauto
  grow := by
    rintro env env' item item' hgrows ⟨hdeep, env₁, hgrows₁, h⟩
    refine ⟨hdeep.mono fun _ ht => ht.grow ?_ hgrows, env₁, hgrows₁.trans hgrows, h⟩
    exact fun _ _ h => Tele.outline_of_alphaEqUnder h
  follows {env env₁ _ name _ s d f'} hW henv hs halpha hdeclares hf := by
    by_cases hname : name = "slice"
    · exact alphaEq_signature_of_explicit (hW hname _ rfl) hs hf halpha
    · have hextended : env.Coupled .identity (fun _ => True) env₁ := by
        rcases hdeclares with rfl | hinsert
        · exact env₁.coupled_refl
        · have hmay := (henv.flat.insert? hinsert).2.1
          exact Env.coupled_insert? hname (Env.eq_none_of_mayReplace rfl hmay) hinsert
      cases signature_eq_of_coupled hextended hs hf
      exact halpha

end

/-! ## Units -/

/-- In a unit that is checked from an empty environment, every reference resolves to what it was
typed as: to a type, to a function of the outline that its sort shows, or to the function `slice`
that is built in. For the nodes of the syntax the signature is even the one in the sort up to bound
names, except for references that are inferred for a placeholder of the entry; if the unit defines a
function `slice`, its signature must have no placeholders for this. The function `slice` remains the
one that is built in unless an entry has its name. -/
theorem checked_references_resolve {fuel : Nat} {start env : Env} {entries : List (Entry .written)}
    {es : List (Entry .checked)} (hstart : start.modules = {})
    (hunit : (checkUnit fuel entries).run.run start = (.ok es, env)) :
    (∀ e ∈ es, e.item.Everywhere (Term.References (env.Resolves SameOutline))) ∧
      ((∀ e ∈ entries, e.name = "slice" → ∀ f, e.item = .defined f →
          Explicit f.signature.nodes) →
        List.Forall₂ (fun e e' => ∀ t ∈ e'.item.nodes, t.References (env.Resolves SameSignature) ∨
          ¬Explicit e.item.nodes ∧
            ∃ env₁ : Env, env₁.Grows SameSignature env ∧ t.IsInferred fuel env₁) entries es) ∧
      ((∀ e ∈ entries, e.name ≠ "slice") → env.get? sliceName = none) := by
  have haccepts := acceptsUnit_of_checkUnit hunit
  refine ⟨?_, fun hexplicit => ?_, fun hslice => ?_⟩
  · obtain ⟨-, -, hall⟩ := haccepts.invariant unitInvariant_everywhere
      (Env.satisfies_of_modules_eq_empty hstart) fun _ _ => trivial
    intro e' he'
    obtain ⟨i, hi, rfl⟩ := List.mem_iff_getElem.mp he'
    exact hall.get (hall.length_eq ▸ hi) hi
  · obtain ⟨-, -, hall⟩ := haccepts.invariant unitInvariant_nodes
      (Env.satisfies_of_modules_eq_empty hstart) hexplicit
    refine hall.imp fun e e' ⟨_, env₁, hgrows, hnodes⟩ t ht => ?_
    refine (hnodes t ht).imp (fun href => ?_) fun hinferred =>
      ⟨hinferred.1, env₁, hgrows, hinferred.2⟩
    refine href.mono fun _ _ hnote => hnote.grow hgrows ?_ ?_
    · rintro s _ rfl
      exact Tele.alphaEq_refl s
    · rintro s _ s'' rfl h
      exact h
  · rw [haccepts.get?_eq (Env.isFlat_of_modules_eq_empty hstart),
      Env.get?_of_modules_eq_empty hstart]
    intro e he hname
    exact hslice e he (congrArg GlobalName.name hname).symm

/-- A unit where `main` calls `twice` before it is defined: the type `byte`, the declaration
`twice(byte x) -> byte`, the function `main() -> byte { return twice(3); }`, and the definition
`twice(byte y) -> byte { return y + y; }`. -/
def forwardUnit : List (Entry .written) :=
  let at0 (form : Form .written) : Written := .mk (.place {} rfl) form
  let global (name : String) := at0 (.atom (.global { name := name }))
  let byte := global "byte"
  let y := at0 (.var { name := "y" })
  let call := at0 (.app (global "twice") [at0 (.atom (.num 3))])
  [⟨{}, "byte", .integer ⟨.unsigned, .w8⟩⟩,
    ⟨{}, "twice", .declared (.arg {} .many byte (some { name := "x" }) (.returns .no byte))⟩,
    ⟨{}, "main", .defined (.runs .no byte [.ret {} call])⟩,
    ⟨{}, "twice", .defined (.arg {} .many byte (some { name := "y" })
      (.runs .no byte [.ret {} (at0 (.binary (.arith .plus) y y))]))⟩]

/-- The environment in the end. -/
def forwardEnv : Env :=
  ((checkUnit 16 forwardUnit).run.run {}).2

/-- The call in `main` still refers to a function of the signature that it was checked against. -/
theorem forward_references_resolve : ∃ es env,
    (checkUnit 16 forwardUnit).run.run {} = (.ok es, env) ∧
      (∀ e ∈ es, e.item.Everywhere (Term.References (env.Resolves SameOutline))) ∧
      (∀ e ∈ es, ∀ t ∈ e.item.nodes, t.References (env.Resolves SameSignature)) ∧
      env.get? sliceName = none := by
  have hok : ((checkUnit 16 forwardUnit).run.run {}).1.isOk := by decide +kernel
  obtain ⟨es, env, hunit⟩ : ∃ es env, (checkUnit 16 forwardUnit).run.run {} = (.ok es, env) := by
    generalize (checkUnit 16 forwardUnit).run.run {} = outcome at hok
    obtain ⟨_ | es, env⟩ := outcome
    · cases hok
    · exact ⟨es, env, rfl⟩
  have hexplicit : ∀ e ∈ forwardUnit, Explicit e.item.nodes := by
    unfold Explicit
    decide
  have hslice : ∀ e ∈ forwardUnit, e.name ≠ "slice" := by decide
  obtain ⟨hsorts, hnodes, hbuiltin⟩ := checked_references_resolve rfl hunit
  have hall := hnodes fun e he hname => absurd hname (hslice e he)
  refine ⟨es, env, hunit, hsorts, fun e he t ht => ?_, hbuiltin hslice⟩
  obtain ⟨i, hi, rfl⟩ := List.mem_iff_getElem.mp he
  have hi' : i < forwardUnit.length := hall.length_eq ▸ hi
  exact (hall.get hi' hi t ht).resolve_right fun h => h.1 (hexplicit _ (List.get_mem _ _))

/-! ## References that change their meaning -/

/-- The nodes of a checked unit in order. -/
def checkedNodes : Except Failure (List (Entry .checked)) → List Checked
  | .ok es => es.flatMap (·.item.nodes)
  | .error _ => []

/-- The function `f` that returns `slice(u8, 3, {1, 2, 3}, 1, {})`, and after it a function `slice`
with the arguments of the one that is built in, which returns `7`. -/
def slicingUnit : List (Entry .written) :=
  let at0 (form : Form .written) : Written := .mk (.place {} rfl) form
  let num (n : Int) := at0 (.atom (.num n))
  let var (name : String) := at0 (.var { name := name })
  let u8 := at0 (.atom (.int ⟨.unsigned, .w8⟩))
  let u64 := at0 (.atom (.int .u64))
  let call := at0 (.app (at0 (.atom (.global sliceName)))
    [u8, num 3, at0 (.list [num 1, num 2, num 3]), num 1, at0 (.list [])])
  [⟨{}, "f", .defined (.runs .no (at0 (.binary .arrayT u8 (num 2))) [.ret {} call])⟩,
    ⟨{}, "slice", .defined
      (.arg {} .zero (at0 (.atom .typename)) (some { name := "t" }) <|
        .arg {} .many u64 (some { name := "n" }) <|
        .arg {} .many (at0 (.binary .arrayT (var "t") (var "n"))) (some { name := "xs" }) <|
        .arg {} .many u64 (some { name := "k" }) <|
        .arg {} .zero (at0 (.unary .trueT (at0 (.binary (.compare .lte) (var "k") (var "n")))))
          none <|
        .runs .no u64 [.ret {} (num 7)])⟩]

/-- The outcome of checking it. -/
def slicingOutcome : Except Failure (List (Entry .checked)) × Env :=
  (checkUnit 16 slicingUnit).run.run {}

/-- A unit where a placeholder stands for an array whose size is the result of a call of `h`: the
functions `h(u64 y) -> array_t(u64, y)`, `sized(u64 y₁) -> array_t(u64, h(y₁)[0])` and
`id(0 typename t, t x) -> u64`, and a function that returns `id(auto, sized(y))`. -/
def inferringUnit : List (Entry .written) :=
  let at0 (form : Form .written) : Written := .mk (.place {} rfl) form
  let global (name : String) := at0 (.atom (.global { name := name }))
  let y : Var := { name := "y" }
  let y₁ : Var := { name := "y", index := 1 }
  let u64 := at0 (.atom (.int .u64))
  let size := at0 (.binary .subscript (at0 (.app (global "h") [at0 (.var y₁)]))
    (at0 (.atom (.num 0))))
  let call := at0 (.app (global "id")
    [at0 (.atom .auto), at0 (.app (global "sized") [at0 (.var y)])])
  [⟨{}, "h", .external (.arg {} .many u64 (some y)
      (.returns .no (at0 (.binary .arrayT u64 (at0 (.var y))))))⟩,
    ⟨{}, "sized", .external (.arg {} .many u64 (some y₁)
      (.returns .no (at0 (.binary .arrayT u64 size))))⟩,
    ⟨{}, "id", .external (.arg {} .zero (at0 (.atom .typename)) (some { name := "t" })
      (.arg {} .many (at0 (.var { name := "t" })) (some { name := "x" }) (.returns .no u64)))⟩,
    ⟨{}, "main", .defined (.arg {} .many u64 (some y) (.runs .no u64 [.ret {} call]))⟩]

/-- The outcome of checking it. -/
def inferringOutcome : Except Failure (List (Entry .checked)) × Env :=
  (checkUnit 16 inferringUnit).run.run {}

/-- The signature of a function from a number to an array whose size is a variable. -/
def arrayOfSize (arg size : Var) : Signature .checked :=
  .arg () .many Checked.u64 (some arg) (.returns .no
    (Checked.type (.binary .arrayT Checked.u64 (Checked.term Checked.u64 (.var size)))))

/-- The reference to `slice` in `f` was checked as the function that is built in, and refers to
another one in the end. And the reference to `h` that is inferred for the placeholder carries a
signature in which the argument is not the size of the array any more. -/
theorem references_change_meaning :
    let y : Var := { name := "y" }
    let own := Tele.ofArgs Checked.slice.args (.returns .no Checked.u64)
    ((checkedNodes slicingOutcome.1)[4]?
        = some (Checked.term (Checked.pi Checked.slice) (.atom (.global sliceName))) ∧
      (slicingOutcome.2.get? sliceName).bind (·.item.signature?) = some own ∧
      ¬SameSignature Checked.slice own) ∧
    ((checkedNodes inferringOutcome.1)[23]?
        = some (Checked.term (Checked.pi (arrayOfSize { name := "y", index := 1 } y))
          (.atom (.global { name := "h" }))) ∧
      (inferringOutcome.2.get? { name := "h" }).bind (·.item.signature?) = some (arrayOfSize y y) ∧
      ¬SameSignature (arrayOfSize { name := "y", index := 1 } y) (arrayOfSize y y)) := by
  refine ⟨⟨?_, ?_, ?_⟩, ?_, ?_, ?_⟩
  · decide +kernel +zetaReduce
  · decide +kernel +zetaReduce
  · decide
  · decide +kernel +zetaReduce
  · decide +kernel +zetaReduce
  · decide

end DependentCore
