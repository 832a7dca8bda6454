import DependentCore.Proofs.Binding.Addressed
import DependentCore.Proofs.Typing.Everywhere
import DependentCore.Proofs.Typing.Vocabulary

/-!
# What a checked tree addresses

The operand of an address is written as a variable. The checker puts terms for variables in types:
an argument of a call for the one that the signature names, a field for the name it has in later
fields. So it keeps what is addressed if no argument of a signature and no field is addressed in its
scope.

A type that stands in the context must not address a variable that is bound again, since then the
argument would be addressed where a variable of that type occurs.

* `Tele.BindsApart`, `Term.BindsApart`: arguments stay clear of the variables that types in scope
  address,
* `Env.Plain`, `Context.AddressesIn`, `Mode.AddressesIn`: what is addressed in globals, in the types
  in scope and in the type that is asked for,
* `Term.Accepts.addressesIn` and its companions: what is accepted addresses what was written.
-/

namespace DependentCore

variable {p : Phase} {env : Env} {ctx : Context} {fuel : Nat} {K S : Var → Prop}

/-! ## Environments, contexts and modes -/

/-- The types of the arguments address variables of a set, and no argument is one of them. -/
def Tele.BindsApart (K : Var → Prop) {k : Binder} : Tele p k → Prop
  | .arg _ _ ty v rest =>
    ty.AddressesIn K ∧ (∀ w, v = some w → ¬K w) ∧ rest.BindsApart K
  | .fields | .returns _ _ | .runs _ _ _ => True

/-- The arguments that a node binds stay clear of the variables that types in scope address. -/
def Term.BindsApart (K : Var → Prop) : Term p → Prop
  | .mk _ (.bind _ t) => t.BindsApart K
  | _ => True

/-- What is addressed in an item are variables of a set. -/
def Item.AddressesIn (S : Var → Prop) : Item p → Prop
  | .integer _ => True
  | .struct fs => fs.AddressesIn S
  | .declared s | .external s => s.AddressesIn S
  | .defined f => f.AddressesIn S

/-- Nothing is addressed in structs and signatures. -/
def Env.Plain (env : Env) : Prop :=
  ∀ g e, env.get? g = some e → e.item.interface.AddressesIn fun _ => False

/-- What is addressed in the type of a variable are variables of a set. -/
def Meaning.AddressesIn (S : Var → Prop) : Meaning → Prop
  | .type => True
  | .term _ ty => ty.AddressesIn S

/-- What is addressed in the types of the variables in scope are variables of a set. -/
def Context.AddressesIn (S : Var → Prop) (ctx : Context) : Prop :=
  ∀ v d, ctx.lookup? v = some d → d.meaning.AddressesIn S

/-- What is addressed in the type that is asked for are variables of a set. -/
def Mode.AddressesIn (S : Var → Prop) (mode : Mode) : Prop :=
  ∀ expected, mode.expected? = some expected → expected.AddressesIn S

theorem Context.AddressesIn.empty : Context.AddressesIn K {} :=
  nofun

/-- More variables may be addressed in a larger set. -/
theorem Context.AddressesIn.mono (h : ctx.AddressesIn K) (hK : ∀ y, K y → S y) :
    ctx.AddressesIn S := by
  intro v d hv
  have hd := h v d hv
  generalize d.meaning = meaning at hd ⊢
  cases meaning with
  | type => trivial
  | term qty ty => exact Term.AddressesIn.mono hK (t := ty) hd

theorem Mode.AddressesIn.assign : Mode.AddressesIn S .assign :=
  nofun

theorem Mode.AddressesIn.check {ty : Checked} (h : ty.AddressesIn S) :
    Mode.AddressesIn S (.check ty) := by
  intro expected he
  cases he
  exact h

theorem Mode.AddressesIn.type : Mode.AddressesIn S .type := by
  intro expected he
  cases he
  exact ⟨trivial, trivial⟩

/-- A new scope declares nothing. -/
theorem Context.AddressesIn.newScopeOf (h : ctx.AddressesIn K) (m : Mutability) :
    (ctx.newScopeOf m).AddressesIn K :=
  h

theorem Context.AddressesIn.newScope (h : ctx.AddressesIn K) : ctx.newScope.AddressesIn K :=
  h

theorem Context.AddressesIn.assume (h : ctx.AddressesIn K) (fact : Checked) :
    (ctx.assume fact).AddressesIn K :=
  h

/-- What a statement teaches is a fact; the types in scope stay. -/
theorem Context.AddressesIn.learn (h : ctx.AddressesIn K) (s : Stmt .checked) :
    (s.learn ctx).AddressesIn K := by
  intro v d hv
  rw [Stmt.lookup?_learn] at hv
  exact h v d hv

theorem Context.AddressesIn.withDecl (h : ctx.AddressesIn K) (v : Var) {d : Declaration}
    (hd : d.meaning.AddressesIn K) : (ctx.withDecl v d).AddressesIn K := by
  intro w d' hw
  rw [Context.lookup?_withDecl] at hw
  split at hw
  · cases hw
    exact hd
  · exact h w d' hw

/-- An argument is declared with its type, or as a type. -/
theorem Context.AddressesIn.declareArg (h : ctx.AddressesIn K) {ctx' : Context} {loc : Location}
    {qty : Quantity} {ty : Checked} (hty : ty.AddressesIn K) {v : Option Var}
    (hctx' : declareArg ctx loc qty ty v = .ok ctx') : ctx'.AddressesIn K := by
  cases v with
  | none =>
    cases hctx'
    exact h
  | some v =>
    obtain ⟨d, rfl, hd⟩ := declareArg_eq_ok hctx'
    refine h.withDecl v ?_
    rcases hd with hd | hd
    · rw [hd]
      trivial
    · rw [hd]
      exact hty

/-! ## Trees that address nothing -/

theorem Tele.AddressesIn.bindsApart {k : Binder} : ∀ {t : Tele p k},
    (t.AddressesIn fun _ => False) → t.BindsApart fun _ => False
  | .fields, _ | .returns _ _, _ | .runs _ _ _, _ => trivial
  | .arg _ _ _ _ _, h => ⟨h.1, nofun, (h.2.mono fun _ hy => hy.2).bindsApart⟩

mutual

/-- Where nothing is addressed, the types of all arguments address nothing. -/
theorem Term.AddressesIn.bindsApart : ∀ {t : Term p}, (t.AddressesIn fun _ => False) →
    t.Everywhere (Term.BindsApart fun _ => False)
  | .mk _ form, h => by
    refine ⟨?_, h.1.bindsApart, h.2.bindsApart⟩
    cases form with
    | bind k t => exact Tele.AddressesIn.bindsApart (t := t) h.2
    | _ => trivial

theorem Note.AddressesIn.bindsApart : ∀ {n : Note p (Term p)}, (n.AddressesIn fun _ => False) →
    n.Everywhere (Term.BindsApart fun _ => False)
  | .place _ _, _ | .kind _, _ => trivial
  | .sort ty _, h => Term.AddressesIn.bindsApart (t := ty) h

theorem Form.AddressesIn.bindsApart : ∀ {f : Form p}, (f.AddressesIn fun _ => False) →
    f.Everywhere (Term.BindsApart fun _ => False)
  | .atom _, _ | .var _, _ => trivial
  | .unary _ x, h => Term.AddressesIn.bindsApart (t := x) h.2
  | .binary _ _ _, h => ⟨h.1.bindsApart, h.2.bindsApart⟩
  | .app _ _, h => ⟨h.1.bindsApart, AddressesInList.bindsApart h.2⟩
  | .list _, h => AddressesInList.bindsApart h
  | .bind _ t, h => Tele.AddressesIn.bindsApart_everywhere (t := t) h

theorem Tele.AddressesIn.bindsApart_everywhere {k : Binder} : ∀ {t : Tele p k},
    (t.AddressesIn fun _ => False) → t.Everywhere (Term.BindsApart fun _ => False)
  | .fields, _ => trivial
  | .returns _ ret, h => Term.AddressesIn.bindsApart (t := ret) h
  | .runs _ _ _, h => ⟨h.1.bindsApart, AddressesInBody.bindsApart h.2⟩
  | .arg _ _ _ _ _, h => ⟨h.1.bindsApart, (h.2.mono fun _ hy => hy.2).bindsApart_everywhere⟩

theorem Stmt.AddressesIn.bindsApart : ∀ {s : Stmt p}, (s.AddressesIn fun _ => False) →
    s.Everywhere (Term.BindsApart fun _ => False)
  | .call _ x, h | .ret _ x, h | .impossibleBy _ x, h => Term.AddressesIn.bindsApart (t := x) h
  | .ifThen _ _ _, h => ⟨h.1.bindsApart, AddressesInBody.bindsApart h.2⟩
  | .ifElse _ _ _ _, h =>
    ⟨h.1.bindsApart, AddressesInBody.bindsApart h.2.1, AddressesInBody.bindsApart h.2.2⟩
  | .retUnit _, _ | .impossible _, _ => trivial

theorem AddressesInList.bindsApart : ∀ {ts : List (Term p)},
    AddressesInList (fun _ => False) ts → EverywhereList (Term.BindsApart fun _ => False) ts
  | [], _ => trivial
  | _ :: _, h => ⟨h.1.bindsApart, AddressesInList.bindsApart h.2⟩

theorem AddressesInBody.bindsApart : ∀ {b : List (Stmt p)},
    AddressesInBody (fun _ => False) b → EverywhereBody (Term.BindsApart fun _ => False) b
  | [], _ => trivial
  | _ :: _, h => ⟨h.1.bindsApart, AddressesInBody.bindsApart h.2⟩

end

/-! ## Terms that the checker builds -/

/-- The fields of a struct address no variables, and those of a written type are parts of it. -/
theorem Env.Plain.fields (henv : env.Plain) {ty : Checked} (hty : ty.AddressesIn S)
    {fs : Fields .checked} (hfs : env.fields? ty = some fs) : fs.AddressesIn S := by
  obtain ⟨note, form⟩ := ty
  simp only [Env.fields?, Env.structOf?, Term.form] at hfs
  split at hfs
  · cases hfs
    exact hty.2
  · split at hfs
    · split at hfs
      · next hget =>
        cases hfs
        exact Tele.AddressesIn.of_false (henv _ _ hget)
      · cases hfs
    · cases hfs

/-- Earlier fields are put for their names in the type of a field, where they are not addressed. -/
theorem Tele.AddressesIn.typeOfField {target : Nat → Option Var → Bool}
    {access : Nat → Option Var → Form .checked} (haccess : ∀ i v, (access i v).AddressesIn S)
    {ty : Checked} : ∀ {n i : Nat} {fs : Fields .checked}, fs.AddressesIn S →
      typeOfField? target access n i fs = some ty → ty.AddressesIn S
  | 0, _, fs, _, hty => by cases fs <;> cases hty
  | _ + 1, _, .fields, _, hty => by cases hty
  | n + 1, i, .arg _ _ first v rest, hfs, hty => by
    rw [typeOfField?] at hty
    split at hty
    · cases hty
      exact hfs.1
    · have hfirst : (Checked.term first (access i v)).AddressesIn S := ⟨hfs.1, haccess i v⟩
      exact Tele.AddressesIn.typeOfField haccess (n := n) (hfs.2.instantiate hfirst) hty

/-- The type of a member is one of a field, with accesses to earlier members put in. -/
theorem Tele.AddressesIn.memberType {fs : Fields .checked} (hfs : fs.AddressesIn S)
    {x ty : Checked} (hx : x.AddressesIn S) {field : String}
    (hty : memberType? x field fs = some ty) : ty.AddressesIn S := by
  refine Tele.AddressesIn.typeOfField (fun i v => ?_) hfs hty
  exact ⟨nofun, hx⟩

theorem Tele.AddressesIn.positionType {fs : Fields .checked} (hfs : fs.AddressesIn S)
    {x ty : Checked} (hx : x.AddressesIn S) {pos : Nat}
    (hty : positionType? x pos fs = some ty) : ty.AddressesIn S := by
  refine Tele.AddressesIn.typeOfField (fun i v => ?_) hfs hty
  exact ⟨hx, ⟨⟨trivial, trivial⟩, trivial⟩, trivial⟩

theorem Tele.AddressesIn.children : ∀ {k : Binder} {S : Var → Prop} {t : Tele p k},
    t.AddressesIn S → ∀ c ∈ t.args.map (·.ty) ++ t.ret?.toList, c.AddressesIn S
  | _, _, .fields, _ => by simp [Tele.args, Tele.ret?]
  | _, _, .returns _ _, h => by
    rw [Tele.AddressesIn] at h
    simpa [Tele.args, Tele.ret?] using h
  | _, _, .runs _ _ _, h => by simpa [Tele.args, Tele.ret?] using h.1
  | _, _, .arg _ _ _ _ _, h => by
    rw [Tele.args, List.map_cons, List.cons_append, List.forall_mem_cons]
    exact ⟨h.1, fun c hc => (h.2.children c hc).mono fun _ hy => hy.2⟩

/-- What a direct subterm addresses, the term addresses. -/
theorem Term.AddressesIn.children {t : Term p} (h : t.AddressesIn S) :
    ∀ c ∈ t.form.children, c.AddressesIn S := by
  obtain ⟨note, form⟩ := t
  have hform := h.2
  cases form with
  | atom | var => exact nofun
  | unary => simpa [Term.form, Form.children] using hform.2
  | binary => simpa [Term.form, Form.children] using And.intro hform.1 hform.2
  | app => exact addressesInList_iff.mp hform
  | list => exact addressesInList_iff.mp hform
  | bind => exact Tele.AddressesIn.children hform

/-- The signature of the function that is built in addresses nothing. -/
theorem Checked.addressesIn_slice : Checked.slice.AddressesIn S := by
  simp [Checked.slice, Tele.AddressesIn, Term.AddressesIn, Note.AddressesIn, Form.AddressesIn,
    Checked.term, Checked.type, Checked.typename, Checked.u64, Checked.bool]

/-- Signatures of globals address nothing, so references to them do not. -/
theorem assignGlobal_addressesIn (henv : env.Plain) {loc : Location} {g : GlobalName}
    {t : Checked} (h : assignGlobal env ctx loc g = .ok t) : t.AddressesIn S := by
  have hfunction {s : Signature .checked} (hs : s.AddressesIn S) :
      (Checked.term (Checked.pi s) (.atom (.global g))).AddressesIn S :=
    ⟨⟨⟨trivial, trivial⟩, hs⟩, trivial⟩
  unfold assignGlobal at h
  split at h
  · next e hget =>
    have hitem := henv g e hget
    split at h
    · next s hs =>
      cases h
      refine hfunction ?_
      generalize e.item = item at hitem hs
      cases item with
      | integer | struct => cases hs
      | declared s | external s | defined f =>
        cases hs
        exact Tele.AddressesIn.of_false hitem
    · cases h
      exact ⟨⟨trivial, trivial⟩, trivial⟩
  · split at h
    · cases h
      exact hfunction Checked.addressesIn_slice
    · cases h

theorem assignAtom_addressesIn (henv : env.Plain) {loc : Location} {a : Atom} {t : Checked}
    (h : assignAtom env ctx loc a = .ok t) : t.AddressesIn S := by
  cases a with
  | auto | num => cases h
  | global g => exact assignGlobal_addressesIn henv h
  | typename => cases h; exact ⟨trivial, trivial⟩
  | lit b => cases h; exact ⟨⟨⟨trivial, trivial⟩, trivial⟩, trivial⟩
  | str s => cases h; exact ⟨⟨⟨trivial, trivial⟩, trivial⟩, trivial⟩
  | _ => cases h; exact ⟨⟨trivial, trivial⟩, trivial⟩

theorem elaborateAtom_addressesIn (henv : env.Plain) {loc : Location} {mode : Mode}
    (hmode : mode.AddressesIn S) {a : Atom} {t : Checked}
    (h : elaborateAtom fuel env ctx loc mode a = .ok t) : t.AddressesIn S := by
  unfold elaborateAtom at h
  split at h
  · cases h
    exact ⟨trivial, trivial⟩
  · split at h
    · next expected hexpected =>
      unfold elaborateNumeral at h
      split at h
      · cases h
      · split at h
        · cases h
          exact ⟨hmode expected hexpected, trivial⟩
        · cases h
    · cases h
  · obtain ⟨t', ht', h⟩ := Check.bind_eq_ok.mp h
    obtain ⟨rfl, _⟩ := conclude_eq_ok h
    exact assignAtom_addressesIn henv ht'

/-- A variable carries the type that it was declared with. -/
theorem assignVar_addressesIn (hctx : ctx.AddressesIn S) {loc : Location} {v : Var} {t : Checked}
    (h : assignVar ctx loc v = .ok t) : t.AddressesIn S := by
  unfold assignVar at h
  split at h
  · cases h
    exact ⟨⟨trivial, trivial⟩, trivial⟩
  · next hlookup =>
    cases h
    exact ⟨hctx v _ hlookup, trivial⟩
  · cases h

/-! ## The rules -/

/-- A written variable is checked to the same variable. -/
theorem Term.Accepts.addressableIn {mode : Mode} {e : Written} {t : Checked}
    (h : Term.Accepts fuel env ctx mode e t) (hvar : e.isVar) (he : e.form.AddressableIn S) :
    t.form.AddressableIn S := by
  cases h with
  | var h =>
    rw [form_of_assignVar h]
    exact he
  | _ => cases hvar

mutual

/-- What a term is checked to addresses what the term does, if the types in scope and the type that
is asked for do and no argument is among what types in scope address. -/
theorem Term.Accepts.addressesIn (henv : env.Plain) : ∀ {e : Written} {S : Var → Prop}
    {ctx : Context} {mode : Mode} {t : Checked}, Term.Accepts fuel env ctx mode e t →
      ctx.AddressesIn K → (∀ y, K y → S y) → mode.AddressesIn S → e.AddressesIn S →
      e.Everywhere (Term.BindsApart K) → t.AddressesIn S
  | .mk _ (.atom _), _, _, _, _, h, _, _, hmode, _, _ => by
    cases h with
    | atom h => exact elaborateAtom_addressesIn henv hmode h
  | .mk _ (.var _), _, _, _, _, h, hctx, hK, _, _, _ => by
    cases h with
    | var h => exact (assignVar_addressesIn hctx h).mono hK
  | .mk _ (.unary _ x), S, ctx, _, _, h, hctx, hK, _, he, hb => by
    have hbool : Mode.AddressesIn S (.check Checked.bool) := .check ⟨⟨trivial, trivial⟩, trivial⟩
    have ih {mode x'} (hmode : mode.AddressesIn S) (hx : Term.Accepts fuel env ctx mode x x') :
        x'.AddressesIn S :=
      hx.addressesIn henv hctx hK hmode he.2.2 hb.2.2
    cases h with
    | trueT hx => exact ⟨⟨trivial, trivial⟩, nofun, ih hbool hx⟩
    | addressOf hvar hx hty =>
      have hx' := ih .assign hx
      have hregion : (Checked.scopeOf _).AddressesIn S :=
        ⟨⟨⟨trivial, trivial⟩, trivial⟩, nofun, hx'⟩
      exact ⟨⟨⟨trivial, trivial⟩, hx'.sort hty, hregion⟩,
        fun _ => hx.addressableIn hvar (he.2.1 rfl), hx'⟩
    | deref hx hty =>
      have hx' := ih .assign hx
      exact ⟨(hx'.sort hty).2.1, nofun, hx'⟩
    | scopeOf hx => exact ⟨⟨⟨trivial, trivial⟩, trivial⟩, nofun, ih .assign hx⟩
    | not hx => exact ⟨⟨⟨trivial, trivial⟩, trivial⟩, nofun, ih hbool hx⟩
    | member hx hsort hfs hty =>
      have hx' := ih .assign hx
      have hfields := henv.fields (hx'.sort hsort) hfs
      exact ⟨hfields.memberType hx' hty, nofun, hx'⟩
  | .mk _ (.binary _ x y), S, ctx, mode, _, h, hctx, hK, hmode, he, hb => by
    have hbool : Checked.bool.AddressesIn S := ⟨⟨trivial, trivial⟩, trivial⟩
    have hu64 : Checked.u64.AddressesIn S := ⟨⟨trivial, trivial⟩, trivial⟩
    have hscope : Checked.scope.AddressesIn S := ⟨⟨trivial, trivial⟩, trivial⟩
    have ihx {ctx mode x'} (hctx : ctx.AddressesIn K) (hmode : mode.AddressesIn S)
        (h : Term.Accepts fuel env ctx mode x x') : x'.AddressesIn S :=
      h.addressesIn henv hctx hK hmode he.2.1 hb.2.2.1
    have ihy {mode y'} (hmode : mode.AddressesIn S) (h : Term.Accepts fuel env ctx mode y y') :
        y'.AddressesIn S :=
      h.addressesIn henv hctx hK hmode he.2.2 hb.2.2.2
    have ihpair {x' y'} (h : AcceptsPair fuel env ctx x y x' y') :
        x'.AddressesIn S ∧ y'.AddressesIn S := by
      cases h with
      | leftFirst h₁ hty h₂ =>
        have hx' := ihx hctx .assign h₁
        exact ⟨hx', ihy (.check (hx'.sort hty)) h₂⟩
      | rightFirst h₁ hty h₂ =>
        have hy' := ihy .assign h₁
        exact ⟨ihx hctx (.check (hy'.sort hty)) h₂, hy'⟩
    cases h with
    | arrayT h₁ h₂ => exact ⟨⟨trivial, trivial⟩, ihx hctx .type h₁, ihy (.check hu64) h₂⟩
    | refT h₁ h₂ => exact ⟨⟨trivial, trivial⟩, ihx hctx .type h₁, ihy (.check hscope) h₂⟩
    | element h₁ hty h₂ =>
      have hx' := ihx hctx .assign h₁
      exact ⟨(hx'.sort hty).2.1, hx', ihy (.check hu64) h₂⟩
    | position h₁ hty _ _ h₂ hfield =>
      have hx' := ihx hctx .assign h₁
      have hfields : Tele.AddressesIn S _ := (hx'.sort hty).2
      exact ⟨hfields.positionType hx' hfield, hx', ihy (.check hu64) h₂⟩
    | because _ h₂ h₁ hty =>
      have hx' := ihx (hctx.newScope.assume _) .assign h₁
      exact ⟨hx'.sort hty, hx', ihy (.check hbool) h₂⟩
    | becauseOf hexpected h₂ h₁ =>
      have hty := hmode _ hexpected
      exact ⟨hty, ihx (hctx.newScope.assume _) (.check hty) h₁, ihy (.check hbool) h₂⟩
    | logic h₁ h₂ => exact ⟨hbool, ihx hctx (.check hbool) h₁, ihy (.check hbool) h₂⟩
    | compare h => exact ⟨hbool, ihpair h⟩
    | arith h hty =>
      have hpair := ihpair h
      exact ⟨hpair.1.sort hty, hpair⟩
    | arithOf hexpected _ h₁ h₂ =>
      have hty := hmode _ hexpected
      exact ⟨hty, ihx hctx (.check hty) h₁, ihy (.check hty) h₂⟩
  | .mk _ (.app _ _), _, _, _, _, h, hctx, hK, _, he, hb => by
    cases h with
    | app h₁ hs _ _ h₂ =>
      have hf := h₁.addressesIn henv hctx hK .assign he.2.1 hb.2.2.1
      have hargs := h₂.addressesIn henv hctx hK (hf.piSort hs) he.2.2 hb.2.2.2
      exact ⟨hargs.2.ret, hf, hargs.1⟩
  | .mk _ (.list _), _, _, _, _, h, hctx, hK, hmode, he, hb => by
    cases h with
    | array hexpected hform _ h =>
      have hty := hmode _ hexpected
      have hform' := hty.form
      rw [hform] at hform'
      exact ⟨hty, h.addressesIn henv hctx hK hform'.1 he.2 hb.2.2⟩
    | unit hexpected | proof hexpected => exact ⟨hmode _ hexpected, trivial⟩
    | struct hexpected hfs _ h =>
      have hty := hmode _ hexpected
      exact ⟨hty, h.addressesIn henv hctx hK (henv.fields hty hfs) he.2 hb.2.2⟩
  | .mk _ (.bind .sigma _), _, _, _, _, h, hctx, hK, _, he, hb => by
    cases h with
    | sigma h =>
      exact ⟨⟨trivial, trivial⟩, h.addressesIn henv hctx.newScope hK he.2 hb.1 hb.2.2⟩
  | .mk _ (.bind .pi _), _, _, _, _, h, hctx, hK, _, he, hb => by
    cases h with
    | pi h => exact ⟨⟨trivial, trivial⟩, h.addressesIn henv hctx.newScope hK he.2 hb.1 hb.2.2⟩
  | .mk _ (.bind .abs _), _, _, _, _, h, hctx, hK, _, he, hb => by
    cases h with
    | abs h =>
      have hf := h.addressesIn henv (hctx.newScopeOf _) hK he.2 hb.1 hb.2.2
      exact ⟨⟨⟨trivial, trivial⟩, hf.bare⟩, hf⟩
termination_by structural e => e

theorem AcceptsElements.addressesIn (henv : env.Plain) : ∀ {xs : List Written} {S : Var → Prop}
    {ctx : Context} {ty : Checked} {xs' : List Checked}, AcceptsElements fuel env ctx ty xs xs' →
      ctx.AddressesIn K → (∀ y, K y → S y) → ty.AddressesIn S → AddressesInList S xs →
      EverywhereList (Term.BindsApart K) xs → AddressesInList S xs'
  | [], _, _, _, _, h, _, _, _, _, _ => by
    cases h
    trivial
  | _ :: _, _, _, _, _, h, hctx, hK, hty, he, hb => by
    cases h with
    | cons h₁ h₂ =>
      exact ⟨h₁.addressesIn henv hctx hK (.check hty) he.1 hb.1,
        h₂.addressesIn henv hctx hK hty he.2 hb.2⟩
termination_by structural xs => xs

/-- The types of later fields are instantiated with earlier ones. -/
theorem AcceptsFields.addressesIn (henv : env.Plain) : ∀ {xs : List Written} {S : Var → Prop}
    {ctx : Context} {fs : Fields .checked} {xs' : List Checked},
      AcceptsFields fuel env ctx xs fs xs' → ctx.AddressesIn K → (∀ y, K y → S y) →
      fs.AddressesIn S → AddressesInList S xs → EverywhereList (Term.BindsApart K) xs →
      AddressesInList S xs'
  | [], _, _, _, _, h, _, _, _, _, _ => by cases h <;> trivial
  | _ :: _, _, _, _, _, h, hctx, hK, hfs, he, hb => by
    cases h with
    | fields => trivial
    | cons h₁ h₂ =>
      have hx := h₁.addressesIn henv hctx hK (.check hfs.1) he.1 hb.1
      exact ⟨hx, h₂.addressesIn henv hctx hK (hfs.2.instantiate hx) he.2 hb.2⟩
termination_by structural xs => xs

/-- The same for the arguments of a call, and for what is left of the signature. -/
theorem AcceptsArgs.addressesIn (henv : env.Plain) : ∀ {xs : List Written} {S : Var → Prop}
    {ctx : Context} {s rest : Signature .checked} {xs' : List Checked},
      AcceptsArgs fuel env ctx xs s xs' rest → ctx.AddressesIn K → (∀ y, K y → S y) →
      s.AddressesIn S → AddressesInList S xs → EverywhereList (Term.BindsApart K) xs →
      AddressesInList S xs' ∧ rest.AddressesIn S
  | [], _, _, _, _, _, h, _, _, hs, _, _ => by
    cases h with
    | nil | returns => exact ⟨trivial, hs⟩
  | _ :: xs, S, ctx, _, rest, _, h, hctx, hK, hs, he, hb => by
    -- however the argument is found, the rest of the signature is instantiated with it
    have hcons {v : Option Var} {s : Signature .checked} {x' xs'}
        (hs : s.AddressesIn fun y => v ≠ some y ∧ S y) (hx : x'.AddressesIn S)
        (h : AcceptsArgs fuel env ctx xs (s.instantiate v x') xs' rest) :
        AddressesInList S (x' :: xs') ∧ rest.AddressesIn S := by
      have hxs := h.addressesIn henv hctx hK (hs.instantiate hx) he.2 hb.2
      exact ⟨⟨hx, hxs.1⟩, hxs.2⟩
    cases h with
    | returns => exact ⟨trivial, hs⟩
    | cons _ h₁ h₂ =>
      exact hcons hs.2 (h₁.addressesIn henv hctx hK (.check hs.1) he.1 hb.1) h₂
    | auto _ h₁ h₂ => exact hcons hs.2 (h₁.addressesIn henv hctx hK he.2 hb.2) h₂
termination_by structural xs => xs

/-- A value that is found for a placeholder is a part of the type of a later argument. -/
theorem AcceptsAuto.addressesIn (henv : env.Plain) : ∀ {xs : List Written} {S : Var → Prop}
    {ctx : Context} {ty : Checked} {v : Option Var} {rest : Signature .checked} {value : Checked},
      AcceptsAuto fuel env ctx ty v xs rest value → ctx.AddressesIn K → (∀ y, K y → S y) →
      AddressesInList S xs → EverywhereList (Term.BindsApart K) xs → value.AddressesIn S
  | [], _, _, _, _, _, _, h, _, _, _, _ => by cases h
  | _ :: _, S, _, _, _, _, _, h, hctx, hK, he, hb => by
    cases h with
    | found h₁ hsort hmatch =>
      have hx := h₁.addressesIn henv hctx hK .assign he.1 hb.1
      exact Term.match?_induction (Q := Term.AddressesIn S) (fun _ ht => ht.children)
        (hx.sort hsort) hmatch
    | later h => exact h.addressesIn henv hctx hK he.2 hb.2
termination_by structural xs => xs

/-- An argument is taken out of what may be addressed; none of the types in scope addresses it. -/
theorem Tele.Accepts.addressesIn (henv : env.Plain) {k : Binder} :
    ∀ {t : Tele .written k} {S : Var → Prop} {ctx : Context} {t' : Tele .checked k},
      Tele.Accepts fuel env ctx t t' → ctx.AddressesIn K → (∀ y, K y → S y) → t.AddressesIn S →
      t.BindsApart K → t.Everywhere (Term.BindsApart K) → t'.AddressesIn S
  | .fields, _, _, _, h, _, _, _, _, _ => by
    cases h
    trivial
  | .returns _ _, _, _, _, h, hctx, hK, he, _, hb => by
    cases h with
    | returns h => exact h.addressesIn henv hctx hK .type he hb
  | .runs _ _ _, _, _, _, h, hctx, hK, he, _, hb => by
    cases h with
    | runs h₁ h₂ =>
      have hret := h₁.addressesIn henv hctx hK .type he.1 hb.1
      exact ⟨hret, h₂.addressesIn henv hctx.newScope hK hret he.2 hb.2⟩
  | .arg _ _ _ _ _, _, _, _, h, hctx, hK, he, ha, hb => by
    cases h with
    | arg h₁ hdeclare h₂ =>
      have hty := h₁.addressesIn henv hctx (fun _ hy => hy) .type ha.1 hb.1
      refine ⟨hty.mono hK, h₂.addressesIn henv (hctx.declareArg hty hdeclare) ?_ he.2 ha.2.2 hb.2⟩
      exact fun y hy => ⟨fun hv => ha.2.1 y hv hy, hK y hy⟩
termination_by structural t => t

theorem Stmt.Accepts.addressesIn (henv : env.Plain) : ∀ {s : Stmt .written} {S : Var → Prop}
    {ctx : Context} {ret : Checked} {s' : Stmt .checked}, Stmt.Accepts fuel env ctx ret s s' →
      ctx.AddressesIn K → (∀ y, K y → S y) → ret.AddressesIn S → s.AddressesIn S →
      s.Everywhere (Term.BindsApart K) → s'.AddressesIn S
  | .call _ _, _, _, _, _, h, hctx, hK, _, he, hb => by
    cases h with
    | call _ h => exact h.addressesIn henv hctx hK .assign he hb
  | .ifThen _ _ _, _, _, _, _, h, hctx, hK, hret, he, hb => by
    cases h with
    | ifThen h₁ h₂ =>
      exact ⟨h₁.addressesIn henv hctx hK (.check ⟨⟨trivial, trivial⟩, trivial⟩) he.1 hb.1,
        h₂.addressesIn henv (hctx.newScope.assume _).newScope hK hret he.2 hb.2⟩
  | .ifElse _ _ _ _, _, _, _, _, h, hctx, hK, hret, he, hb => by
    cases h with
    | ifElse h₁ h₂ h₃ =>
      exact ⟨h₁.addressesIn henv hctx hK (.check ⟨⟨trivial, trivial⟩, trivial⟩) he.1 hb.1,
        h₂.addressesIn henv (hctx.newScope.assume _).newScope hK hret he.2.1 hb.2.1,
        h₃.addressesIn henv (hctx.newScope.assume _).newScope hK hret he.2.2 hb.2.2⟩
  | .ret _ _, _, _, _, _, h, hctx, hK, hret, he, hb => by
    cases h with
    | ret h => exact h.addressesIn henv hctx hK (.check hret) he hb
  | .retUnit _, _, _, _, _, h, _, _, _, _, _ | .impossible _, _, _, _, _, h, _, _, _, _, _ => by
    cases h
    trivial
  | .impossibleBy _ _, _, _, _, _, h, hctx, hK, _, he, hb => by
    cases h with
    | impossibleBy h => exact h.addressesIn henv hctx hK .assign he hb
termination_by structural s => s

theorem AcceptsBody.addressesIn (henv : env.Plain) : ∀ {b : List (Stmt .written)} {S : Var → Prop}
    {ctx : Context} {ret : Checked} {b' : List (Stmt .checked)},
      AcceptsBody fuel env ctx ret b b' → ctx.AddressesIn K → (∀ y, K y → S y) →
      ret.AddressesIn S → AddressesInBody S b → EverywhereBody (Term.BindsApart K) b →
      AddressesInBody S b'
  | [], _, _, _, _, h, _, _, _, _, _ => by
    cases h
    trivial
  | _ :: _, _, _, _, _, h, hctx, hK, hret, he, hb => by
    cases h with
    | cons h₁ h₂ =>
      exact ⟨h₁.addressesIn henv hctx hK hret he.1 hb.1,
        h₂.addressesIn henv (hctx.learn _) hK hret he.2 hb.2⟩
termination_by structural b => b

end

/-- What addresses nothing is checked to a telescope that addresses nothing. -/
theorem Tele.Accepts.addressesNothing (henv : env.Plain) {k : Binder} {t : Tele .written k}
    {t' : Tele .checked k} (h : Tele.Accepts fuel env ctx t t')
    (hctx : ctx.AddressesIn fun _ => False) (ht : t.AddressesIn fun _ => False) :
    t'.AddressesIn fun _ => False :=
  h.addressesIn henv hctx (fun _ hy => hy) ht ht.bindsApart ht.bindsApart_everywhere

/-- If the signature of a function addresses nothing, its arguments may be addressed in the body. -/
theorem Tele.Accepts.body_addressesIn (henv : env.Plain) {k : Binder} {f : Tele .written k}
    {f' : Tele .checked k} (h : Tele.Accepts fuel env ctx f f')
    (hctx : ctx.AddressesIn fun _ => False) (hbare : f.bare.AddressesIn fun _ => False)
    (hK : ∀ y, K y → S y)
    (hf : ∀ b, f.body? = some b → AddressesInBody S b ∧ EverywhereBody (Term.BindsApart K) b) :
    ∀ b', f'.body? = some b' → AddressesInBody S b' := by
  -- as a type, an argument or a result addresses nothing
  have htype {ctx : Context} (hctx : ctx.AddressesIn fun _ => False) {ty : Written} {ty' : Checked}
      (hty : ty.AddressesIn fun _ => False) (h : Term.Accepts fuel env ctx .type ty ty') :
      ty'.AddressesIn fun _ => False :=
    h.addressesIn henv hctx (fun _ hy => hy) .type hty hty.bindsApart
  induction k, f using Tele.args_induction generalizing ctx with
  | fields | returns =>
    cases h
    exact nofun
  | runs m ret body =>
    cases h with
    | runs h₁ h₂ =>
      rintro _ ⟨⟩
      have hret : Term.AddressesIn S _ := (htype hctx hbare h₁).mono fun _ => False.elim
      exact h₂.addressesIn henv (hctx.newScope.mono fun _ => False.elim) hK hret (hf body rfl).1
        (hf body rfl).2
  | arg k mark qty ty v rest ih =>
    cases h with
    | arg h₁ hdeclare h₂ =>
      have hctx' := hctx.declareArg (htype hctx hbare.1 h₁) hdeclare
      have hrest := ih h₂ hctx' (hbare.2.mono fun _ hy => hy.2) hf
      exact hrest

end DependentCore
