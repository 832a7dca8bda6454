import DependentCore.Proofs.Binding.Heads
import DependentCore.Proofs.Typing.Derivations
import DependentCore.Reduction.Normal

/-!
# What holds of everything that is checked

The checker builds terms from what is written, from the types of the variables in scope, from the
signatures and fields of globals, and from parts of types that it has built before. A property of
nodes that is kept by substitution and that holds of the nodes that the checker puts in holds
everywhere in what it returns, sorts included.

* `NodeInvariant`: a property of nodes that the checker maintains in an environment,
* `Context.Everywhere`, `Mode.Everywhere`: the types in scope and the one that is asked for have it,
* `Term.Accepts.everywhere` and companions: so has what is accepted.
-/

namespace DependentCore

/-- A property that holds of the nodes that the checker puts in: of nodes whose sort fits, atoms
apart; of literals and primitive types whose sort fits; of numbers in the range of their type; and
of references to globals. Everything that the environment holds has it. -/
structure NodeInvariant (env : Env) (P : Checked → Prop) : Prop where
  substitutive : Substitutive P
  compound : ∀ t : Checked, (∀ a, t.form ≠ .atom a) → t.HasFittingSort → P t
  literal : ∀ note a, a.isValue → (∀ n, a ≠ .num n) →
    (Term.mk note (.atom a)).HasFittingSort → P (.mk note (.atom a))
  numeral : ∀ n ty t, env.intType? ty = some t → t.contains n →
    P (Checked.term ty (.atom (.num n)))
  global : ∀ ctx loc g t, assignGlobal env ctx loc g = .ok t → P t
  stored : ∀ g e, env.get? g = some e → e.item.Everywhere P

/-- A property holds everywhere in the type of a variable. -/
def Meaning.Everywhere (P : Checked → Prop) : Meaning → Prop
  | .type => True
  | .term _ ty => ty.Everywhere P

/-- A property holds everywhere in the types of the variables in scope. -/
def Context.Everywhere (P : Checked → Prop) (ctx : Context) : Prop :=
  ∀ v d, ctx.lookup? v = some d → d.meaning.Everywhere P

/-- A property holds everywhere in the type that is asked for. -/
def Mode.Everywhere (P : Checked → Prop) (mode : Mode) : Prop :=
  ∀ expected, mode.expected? = some expected → expected.Everywhere P

/-! ## Contexts and modes -/

section
variable {P : Checked → Prop} {ctx : Context}

/-- If the type is to be determined, none is asked for. -/
theorem Mode.Everywhere.assign : Mode.Everywhere P .assign :=
  nofun

theorem Mode.Everywhere.check {ty : Checked} (h : ty.Everywhere P) :
    Mode.Everywhere P (.check ty) := by
  intro expected he
  cases he
  exact h

theorem Context.Everywhere.empty : Context.Everywhere P {} :=
  nofun

/-- What all terms have, the types in scope have everywhere. -/
theorem Context.everywhere_of_forall (h : ∀ t, P t) (ctx : Context) : ctx.Everywhere P := by
  intro v d _
  cases d.meaning with
  | type => trivial
  | term _ ty => exact ty.everywhere_of_forall h

/-- A new scope declares nothing. -/
theorem Context.Everywhere.newScopeOf (h : ctx.Everywhere P) (m : Mutability) :
    (ctx.newScopeOf m).Everywhere P :=
  h

theorem Context.Everywhere.newScope (h : ctx.Everywhere P) : ctx.newScope.Everywhere P :=
  h.newScopeOf ctx.mutability

theorem Context.Everywhere.assume (h : ctx.Everywhere P) (fact : Checked) :
    (ctx.assume fact).Everywhere P :=
  h

/-- What a statement teaches is a fact; the types in scope stay. -/
theorem Context.Everywhere.learn (h : ctx.Everywhere P) (s : Stmt .checked) :
    (s.learn ctx).Everywhere P := by
  cases s with
  | ifThen _ cond yes =>
    rw [Stmt.learn]
    split
    · exact h.assume _
    · exact h
  | ifElse _ cond yes no =>
    rw [Stmt.learn]
    split
    · exact h.assume _
    · exact h
  | _ => exact h

theorem Context.Everywhere.withDecl (h : ctx.Everywhere P) (v : Var) {d : Declaration}
    (hd : d.meaning.Everywhere P) : (ctx.withDecl v d).Everywhere P := by
  intro w d' hw
  rw [Context.lookup?_withDecl] at hw
  split at hw
  · cases hw
    exact hd
  · exact h w d' hw

/-- An argument is declared with its type, or as a type. -/
theorem Context.Everywhere.declareArg (h : ctx.Everywhere P) {ctx' : Context} {loc : Location}
    {qty : Quantity} {ty : Checked} (hty : ty.Everywhere P) {v : Option Var}
    (hctx' : declareArg ctx loc qty ty v = .ok ctx') : ctx'.Everywhere P := by
  cases v with
  | none =>
    cases hctx'
    exact h
  | some v =>
    obtain ⟨d, rfl, hd⟩ := declareArg_eq_ok hctx'
    refine h.withDecl v ?_
    rcases hd with hd | hd
    · rw [hd]
      trivial
    · rw [hd]
      exact hty

end

/-! ## Parts of types -/

section
variable {p : Phase} {P : Term p → Prop}

/-- The types of the arguments and the return type are parts of a telescope. -/
theorem Tele.Everywhere.children {k : Binder} {t : Tele p k} (h : t.Everywhere P) :
    EverywhereList P (t.args.map (·.ty) ++ t.ret?.toList) := by
  induction k, t using Tele.args_induction with
  | fields => trivial
  | returns => exact ⟨h, trivial⟩
  | runs => exact ⟨h.1, trivial⟩
  | arg _ _ _ _ _ rest ih => exact ⟨h.1, ih h.2⟩

/-- What holds everywhere in a form holds everywhere in its direct subterms. -/
theorem Form.Everywhere.children {f : Form p} (h : f.Everywhere P) :
    EverywhereList P f.children := by
  cases f with
  | atom | var => trivial
  | unary _ x => exact ⟨h, trivial⟩
  | binary _ x y => exact ⟨h.1, h.2, trivial⟩
  | app f args => exact h
  | list xs => exact h
  | bind k t => exact Tele.Everywhere.children h

/-- The signature of a global is a part of it. -/
theorem Item.Everywhere.signature {item : Item p} (h : item.Everywhere P) {s : Signature p}
    (hs : item.signature? = some s) : s.Everywhere P := by
  cases item with
  | integer | struct => cases hs
  | declared | external =>
    cases hs
    exact h
  | defined f =>
    cases hs
    exact Tele.Everywhere.bare (t := f) h

mutual

/-- What is found by matching is a part of the target, so it has a property that goes from terms to
their direct subterms. -/
theorem Term.match?_induction {Q : Term p → Prop} (hQ : ∀ t, Q t → ∀ c ∈ t.form.children, Q c)
    {v : Var} {u : Term p} : ∀ {pattern target : Term p}, Q target →
      pattern.match? v target = some u → Q u
  | .mk _ form, target, h, hu => by
    have hparts := Form.matchParts?_induction hQ (v := v) (u := u) (f := form) (hQ target h)
    cases form with
    | var w =>
      simp only [Term.match?] at hu
      split at hu
      · cases hu
        exact h
      · cases hu
    | atom | unary | binary | app | list | bind =>
      simp only [Term.match?] at hu
      split at hu
      · exact hparts hu
      · cases hu
termination_by structural x => x

theorem Form.matchParts?_induction {Q : Term p → Prop}
    (hQ : ∀ t, Q t → ∀ c ∈ t.form.children, Q c) {v : Var} {u : Term p} :
    ∀ {f : Form p} {ts : List (Term p)}, (∀ t ∈ ts, Q t) → f.matchParts? v ts = some u → Q u
  | .unary _ _, [_], h, hu => by
    simp only [Form.matchParts?] at hu
    exact Term.match?_induction hQ (h _ (.head _)) hu
  | .binary _ _ _, [_, _], h, hu => by
    simp only [Form.matchParts?, Option.orElse_eq_orElse, Option.orElse_eq_or,
      Option.or_eq_some_iff] at hu
    rcases hu with hu | ⟨-, hu⟩
    · exact Term.match?_induction hQ (h _ (.head _)) hu
    · exact Term.match?_induction hQ (h _ (.tail _ (.head _))) hu
  | .app _ _, _ :: _, h, hu => by
    simp only [Form.matchParts?, Option.orElse_eq_orElse, Option.orElse_eq_or,
      Option.or_eq_some_iff] at hu
    rcases hu with hu | ⟨-, hu⟩
    · exact Term.match?_induction hQ (h _ (.head _)) hu
    · exact matchList?_induction hQ (fun t ht => h t (.tail _ ht)) hu
  | .list _, _, h, hu => by
    simp only [Form.matchParts?] at hu
    exact matchList?_induction hQ h hu
  | .bind _ _, _, h, hu => by
    simp only [Form.matchParts?] at hu
    exact Tele.matchParts?_induction hQ h hu
  | .atom _, _, _, hu | .var _, _, _, hu | .unary _ _, [], _, hu | .unary _ _, _ :: _ :: _, _, hu
  | .binary _ _ _, [], _, hu | .binary _ _ _, [_], _, hu | .binary _ _ _, _ :: _ :: _ :: _, _, hu
  | .app _ _, [], _, hu => by simp [Form.matchParts?] at hu
termination_by structural x => x

theorem Tele.matchParts?_induction {Q : Term p → Prop}
    (hQ : ∀ t, Q t → ∀ c ∈ t.form.children, Q c) {v : Var} {u : Term p} {k : Binder} :
    ∀ {t : Tele p k} {ts : List (Term p)}, (∀ t ∈ ts, Q t) → t.matchParts? v ts = some u → Q u
  | .returns _ _, [_], h, hu | .runs _ _ _, [_], h, hu => by
    simp only [Tele.matchParts?] at hu
    exact Term.match?_induction hQ (h _ (.head _)) hu
  | .arg _ _ _ _ _, _ :: _, h, hu => by
    simp only [Tele.matchParts?, Option.orElse_eq_orElse, Option.orElse_eq_or,
      Option.or_eq_some_iff] at hu
    rcases hu with hu | ⟨-, hu⟩
    · exact Term.match?_induction hQ (h _ (.head _)) hu
    · exact Tele.matchParts?_induction hQ (fun t ht => h t (.tail _ ht)) hu
  | .fields, _, _, hu | .returns _ _, [], _, hu | .returns _ _, _ :: _ :: _, _, hu
  | .runs _ _ _, [], _, hu | .runs _ _ _, _ :: _ :: _, _, hu | .arg _ _ _ _ _, [], _, hu => by
    simp [Tele.matchParts?] at hu
termination_by structural x => x

theorem matchList?_induction {Q : Term p → Prop} (hQ : ∀ t, Q t → ∀ c ∈ t.form.children, Q c)
    {v : Var} {u : Term p} : ∀ {xs ts : List (Term p)}, (∀ t ∈ ts, Q t) →
      matchList? v xs ts = some u → Q u
  | _ :: _, _ :: _, h, hu => by
    simp only [matchList?, Option.orElse_eq_orElse, Option.orElse_eq_or,
      Option.or_eq_some_iff] at hu
    rcases hu with hu | ⟨-, hu⟩
    · exact Term.match?_induction hQ (h _ (.head _)) hu
    · exact matchList?_induction hQ (fun t ht => h t (.tail _ ht)) hu
  | [], _, _, hu | _ :: _, [], _, hu => by simp [matchList?] at hu
termination_by structural x => x

end

/-- What is found for a placeholder is a part of the type it was found in. -/
theorem Term.Everywhere.match? {v : Var} {u pattern target : Term p} (h : target.Everywhere P)
    (hu : pattern.match? v target = some u) : u.Everywhere P :=
  Term.match?_induction (fun _ ht => everywhereList_iff.mp ht.form.children) h hu

end

/-! ## Terms that the checker builds -/

/-- The numbers up to a position are values of `u64`. -/
theorem IntType.contains_position {n : Int} {pos : Nat} (h : position? n = some pos) {i : Nat}
    (hi : i ≤ pos) : IntType.u64.contains i := by
  unfold position? at h
  split at h
  · next hn =>
    cases h
    simp only [IntType.contains, Bool.and_eq_true, decide_eq_true_eq] at hn ⊢
    have hmin : IntType.u64.min = 0 := rfl
    omega
  · cases h

/-- The type of a field refers to the fields before it. Where the search for the field comes to
position `i`, `R i` holds. -/
theorem Tele.Everywhere.typeOfField? {P : Checked → Prop} (hP : Substitutive P)
    {target : Nat → Option Var → Bool} {access : Nat → Option Var → Form .checked}
    {R : Nat → Prop} (hnext : ∀ i v, R i → target i v = false → R (i + 1))
    (haccess : ∀ i v first, R i → target i v = false → first.Everywhere P →
      (Checked.term first (access i v)).Everywhere P)
    {ty : Checked} : ∀ {n i : Nat} {fs : Fields .checked}, fs.Everywhere P → R i →
      typeOfField? target access n i fs = some ty → ty.Everywhere P
  | 0, _, fs, _, _, hty => by cases fs <;> cases hty
  | _ + 1, _, .fields, _, _, hty => by cases hty
  | n + 1, i, .arg _ _ first v rest, hfs, hi, hty => by
    rw [DependentCore.typeOfField?] at hty
    split at hty
    · cases hty
      exact hfs.1
    · next htarget =>
      rw [Bool.not_eq_true] at htarget
      have hrest := hfs.2.instantiate hP v (haccess i v first hi htarget hfs.1)
      exact hrest.typeOfField? hP hnext haccess (n := n) (hnext i v hi htarget) hty

namespace NodeInvariant

variable {env : Env} {P : Checked → Prop} (hP : NodeInvariant env P)
include hP

theorem typename : Checked.typename.Everywhere P :=
  ⟨hP.literal _ _ rfl nofun rfl, trivial, trivial⟩

/-- A node that is not an atom is put in if its sort fits. -/
theorem term {ty : Checked} {form : Form .checked} (hty : ty.Everywhere P)
    (hform : form.Everywhere P) (hatom : ∀ a, form ≠ .atom a)
    (hfits : form.head.Fits (some ty.form.head)) : (Checked.term ty form).Everywhere P :=
  ⟨hP.compound _ hatom hfits, hty, hform⟩

/-- A type that is not an atom is put in with the sort `typename`. -/
theorem type {form : Form .checked} (hform : form.Everywhere P) (hatom : ∀ a, form ≠ .atom a)
    (hfits : form.head.Fits (some (.atom .typename))) : (Checked.type form).Everywhere P :=
  hP.term hP.typename hform hatom hfits

/-- Primitive types are put in with the sort `typename`. -/
theorem primitive {a : Atom} (ha : a.isValue) (hnum : ∀ n, a ≠ .num n)
    (hfits : (Head.atom a).Fits (some (.atom .typename))) : (Checked.type (.atom a)).Everywhere P :=
  ⟨hP.literal _ _ ha hnum hfits, hP.typename, trivial⟩

theorem bool : Checked.bool.Everywhere P :=
  hP.primitive rfl nofun rfl

theorem u64 : Checked.u64.Everywhere P :=
  hP.primitive rfl nofun rfl

theorem scope : Checked.scope.Everywhere P :=
  hP.primitive rfl nofun rfl

theorem pi {s : Signature .checked} (hs : s.Everywhere P) : (Checked.pi s).Everywhere P :=
  hP.type hs nofun rfl

theorem mode_type : Mode.Everywhere P .type := by
  intro expected he
  cases he
  exact hP.typename

/-- The signature of the function that is built in is made of nodes that the checker may put in. -/
theorem slice : Checked.slice.Everywhere P := by
  have htype (v : Var) : (Checked.type (.var v)).Everywhere P := hP.type trivial nofun rfl
  have hsize (v : Var) : (Checked.term Checked.u64 (.var v)).Everywhere P :=
    hP.term hP.u64 trivial nofun rfl
  have harray {size : Checked} (h : size.Everywhere P) :
      (Checked.type (.binary .arrayT (Checked.type (.var { name := "t" })) size)).Everywhere P :=
    hP.type ⟨htype _, h⟩ nofun rfl
  have hfits : (Checked.type (.unary .trueT (Checked.term Checked.bool (.binary (.compare .lte)
      (Checked.term Checked.u64 (.var { name := "k" }))
      (Checked.term Checked.u64 (.var { name := "n" })))))).Everywhere P :=
    hP.type (hP.term hP.bool ⟨hsize _, hsize _⟩ nofun rfl) nofun rfl
  exact ⟨hP.typename, hP.u64, harray (hsize _), hP.u64, hfits,
    harray (hP.term hP.u64 ⟨hsize _, hsize _⟩ nofun rfl)⟩

/-- The fields that a type stands for come from the type or from the environment. -/
theorem fields {ty : Checked} (hty : ty.Everywhere P) {fs : Fields .checked}
    (hfs : env.fields? ty = some fs) : fs.Everywhere P := by
  obtain ⟨note, form⟩ := ty
  simp only [Env.fields?, Env.structOf?, Term.form] at hfs
  split at hfs
  · cases hfs
    exact hty.2.2
  · split at hfs
    · split at hfs
      · next hget =>
        cases hfs
        exact hP.stored _ _ hget
      · cases hfs
    · cases hfs

/-- The type of a member is one of a field, with accesses to earlier members put in. -/
theorem memberType {fs : Fields .checked} (hfs : fs.Everywhere P) {x ty : Checked}
    (hx : x.Everywhere P) {field : String} (hty : memberType? x field fs = some ty) :
    ty.Everywhere P := by
  refine hfs.typeOfField? hP.substitutive (R := fun _ => True) ?_ ?_ trivial hty
  · exact fun _ _ _ _ => trivial
  · exact fun _ _ _ _ _ hfirst => hP.term hfirst hx nofun rfl

/-- The positions before one that is counted in `u64` are themselves in the range of `u64`. -/
theorem positionType {fs : Fields .checked} (hfs : fs.Everywhere P) {x ty : Checked}
    (hx : x.Everywhere P) {n : Int} {pos : Nat} (hpos : position? n = some pos)
    (hty : positionType? x pos fs = some ty) : ty.Everywhere P := by
  have hrange (i : Nat) (hi : i ≤ pos) : IntType.u64.contains i := IntType.contains_position hpos hi
  refine hfs.typeOfField? hP.substitutive (R := (· ≤ pos)) ?_ ?_ (Nat.zero_le pos) hty
  · intro i _ hi htarget
    exact Nat.lt_of_le_of_ne hi (of_decide_eq_false htarget)
  · intro i _ _ hi _ hfirst
    exact hP.term hfirst ⟨hx, hP.numeral _ _ _ rfl (hrange i hi), hP.u64, trivial⟩ nofun rfl

variable {fuel : Nat} {ctx : Context}

/-- What a global is checked to carries its signature, which comes from the environment. -/
theorem assignGlobal {loc : Location} {g : GlobalName} {t : Checked}
    (h : assignGlobal env ctx loc g = .ok t) : t.Everywhere P := by
  have hroot := hP.global ctx loc g t h
  unfold DependentCore.assignGlobal at h
  split at h
  · next e hget =>
    split at h
    · next s hs =>
      cases h
      exact ⟨hroot, hP.pi ((hP.stored g e hget).signature hs), trivial⟩
    · cases h
      exact ⟨hroot, hP.typename, trivial⟩
  · split at h
    · cases h
      exact ⟨hroot, hP.pi hP.slice, trivial⟩
    · cases h

theorem assignAtom {loc : Location} {a : Atom} {t : Checked}
    (h : assignAtom env ctx loc a = .ok t) : t.Everywhere P := by
  cases a with
  | auto | num => cases h
  | global g => exact hP.assignGlobal h
  | typename =>
    cases h
    exact hP.typename
  | lit b =>
    cases h
    exact ⟨hP.literal _ _ rfl nofun rfl, hP.bool, trivial⟩
  | str s =>
    cases h
    exact ⟨hP.literal _ _ rfl nofun rfl, hP.primitive rfl nofun rfl, trivial⟩
  | _ =>
    cases h
    exact hP.primitive rfl nofun rfl

/-- A numeral is put in only after it was found to be in the range of the type asked for. -/
theorem elaborateAtom {loc : Location} {mode : Mode} (hmode : mode.Everywhere P) {a : Atom}
    {t : Checked} (h : elaborateAtom fuel env ctx loc mode a = .ok t) : t.Everywhere P := by
  unfold DependentCore.elaborateAtom at h
  split at h
  · cases h
    exact hP.typename
  · split at h
    · next expected hexpected =>
      unfold elaborateNumeral at h
      split at h
      · cases h
      · next it hit =>
        split at h
        · next hfits =>
          cases h
          exact ⟨hP.numeral _ _ it hit hfits, hmode expected hexpected, trivial⟩
        · cases h
    · cases h
  · obtain ⟨u, hu, h⟩ := Check.bind_eq_ok.mp h
    obtain ⟨rfl, _⟩ := conclude_eq_ok h
    exact hP.assignAtom hu

/-- A variable carries the type that it was declared with. -/
theorem assignVar (hctx : ctx.Everywhere P) {loc : Location} {v : Var} {t : Checked}
    (h : assignVar ctx loc v = .ok t) : t.Everywhere P := by
  unfold DependentCore.assignVar at h
  split at h
  · cases h
    exact hP.type trivial nofun rfl
  · next hlookup =>
    cases h
    exact hP.term (hctx v _ hlookup) trivial nofun rfl
  · cases h

end NodeInvariant

/-! ## The rules -/

section
variable {fuel : Nat} {env : Env} {P : Checked → Prop}

mutual

/-- What a term is checked to has a property of nodes everywhere, if the types in scope and the
type that is asked for have it. -/
theorem Term.Accepts.everywhere (hP : NodeInvariant env P) : ∀ {e : Written} {ctx : Context}
    {mode : Mode} {t : Checked}, Term.Accepts fuel env ctx mode e t → ctx.Everywhere P →
      mode.Everywhere P → t.Everywhere P
  | .mk _ (.atom _), _, _, _, h, _, hmode => by
    cases h with
    | atom h => exact hP.elaborateAtom hmode h
  | .mk _ (.var _), _, _, _, h, hctx, _ => by
    cases h with
    | var h => exact hP.assignVar hctx h
  | .mk _ (.unary _ x), ctx, _, _, h, hctx, _ => by
    have ih {mode x'} (hmode : mode.Everywhere P) (hx : Term.Accepts fuel env ctx mode x x') :
        x'.Everywhere P :=
      hx.everywhere hP hctx hmode
    have hbool : Mode.Everywhere P (.check Checked.bool) := .check hP.bool
    cases h with
    | trueT hx => exact hP.type (ih hbool hx) nofun rfl
    | addressOf _ hx hty =>
      have hx' := ih .assign hx
      have hregion : (Checked.scopeOf _).Everywhere P := hP.term hP.scope hx' nofun rfl
      exact hP.term (hP.type ⟨hx'.sort hty, hregion⟩ nofun rfl) hx' nofun rfl
    | deref hx hty =>
      have hx' := ih .assign hx
      exact hP.term (hx'.sort hty).2.2.1 hx' nofun rfl
    | scopeOf hx => exact hP.term hP.scope (ih .assign hx) nofun rfl
    | not hx => exact hP.term hP.bool (ih hbool hx) nofun rfl
    | member hx hsort hfs hty =>
      have hx' := ih .assign hx
      have hfields := hP.fields (hx'.sort hsort) hfs
      exact hP.term (hP.memberType hfields hx' hty) hx' nofun rfl
  | .mk _ (.binary _ x y), ctx, mode, _, h, hctx, hmode => by
    have ihx {ctx mode x'} (hctx : ctx.Everywhere P) (hmode : mode.Everywhere P)
        (h : Term.Accepts fuel env ctx mode x x') : x'.Everywhere P :=
      h.everywhere hP hctx hmode
    have ihy {mode y'} (hmode : mode.Everywhere P) (h : Term.Accepts fuel env ctx mode y y') :
        y'.Everywhere P :=
      h.everywhere hP hctx hmode
    have ihpair {x' y'} (h : AcceptsPair fuel env ctx x y x' y') :
        x'.Everywhere P ∧ y'.Everywhere P := by
      cases h with
      | leftFirst h₁ hty h₂ =>
        have hx' := ihx hctx .assign h₁
        exact ⟨hx', ihy (.check (hx'.sort hty)) h₂⟩
      | rightFirst h₁ hty h₂ =>
        have hy' := ihy .assign h₁
        exact ⟨ihx hctx (.check (hy'.sort hty)) h₂, hy'⟩
    have hbool := hP.bool
    have hu64 := hP.u64
    cases h with
    | arrayT h₁ h₂ => exact hP.type ⟨ihx hctx hP.mode_type h₁, ihy (.check hu64) h₂⟩ nofun rfl
    | refT h₁ h₂ => exact hP.type ⟨ihx hctx hP.mode_type h₁, ihy (.check hP.scope) h₂⟩ nofun rfl
    | element h₁ hty h₂ =>
      have hx' := ihx hctx .assign h₁
      exact hP.term (hx'.sort hty).2.2.1 ⟨hx', ihy (.check hu64) h₂⟩ nofun rfl
    | position h₁ hty _ hpos h₂ hfield =>
      have hx' := ihx hctx .assign h₁
      have hfields : Tele.Everywhere P _ := (hx'.sort hty).2.2
      exact hP.term (hP.positionType hfields hx' hpos hfield) ⟨hx', ihy (.check hu64) h₂⟩ nofun rfl
    | because _ h₂ h₁ hty =>
      have hx' := ihx (hctx.newScope.assume _) .assign h₁
      exact hP.term (hx'.sort hty) ⟨hx', ihy (.check hbool) h₂⟩ nofun rfl
    | becauseOf hexpected h₂ h₁ =>
      have hty := hmode _ hexpected
      have hx' := ihx (hctx.newScope.assume _) (.check hty) h₁
      exact hP.term hty ⟨hx', ihy (.check hbool) h₂⟩ nofun rfl
    | logic h₁ h₂ =>
      exact hP.term hbool ⟨ihx hctx (.check hbool) h₁, ihy (.check hbool) h₂⟩ nofun rfl
    | compare h => exact hP.term hbool (ihpair h) nofun rfl
    | arith h hty =>
      have hpair := ihpair h
      exact hP.term (hpair.1.sort hty) hpair nofun rfl
    | arithOf hexpected _ h₁ h₂ =>
      have hty := hmode _ hexpected
      exact hP.term hty ⟨ihx hctx (.check hty) h₁, ihy (.check hty) h₂⟩ nofun rfl
  | .mk _ (.app f args), _, _, _, h, hctx, _ => by
    cases h with
    | app h₁ hs _ _ h₂ =>
      have hf := h₁.everywhere hP hctx .assign
      have hargs := h₂.everywhere hP hctx (hf.piSort hs)
      exact hP.term hargs.2.ret ⟨hf, hargs.1⟩ nofun rfl
  | .mk _ (.list xs), _, _, _, h, hctx, hmode => by
    cases h with
    | array hexpected hform _ h =>
      have hty := hmode _ hexpected
      have hform' := hty.form
      rw [hform] at hform'
      exact hP.term hty (h.everywhere hP hctx hform'.1) nofun rfl
    | unit hexpected | proof hexpected => exact hP.term (hmode _ hexpected) trivial nofun rfl
    | struct hexpected hfs _ h =>
      have hty := hmode _ hexpected
      exact hP.term hty (h.everywhere hP hctx (hP.fields hty hfs)) nofun rfl
  | .mk _ (.bind .sigma _), _, _, _, h, hctx, _ => by
    cases h with
    | sigma h => exact hP.type (h.everywhere hP hctx.newScope) nofun rfl
  | .mk _ (.bind .pi _), _, _, _, h, hctx, _ => by
    cases h with
    | pi h => exact hP.pi (h.everywhere hP hctx.newScope)
  | .mk _ (.bind .abs _), _, _, _, h, hctx, _ => by
    cases h with
    | abs h =>
      have hf := h.everywhere hP (hctx.newScopeOf _)
      refine hP.term (hP.pi hf.bare) hf nofun ?_
      exact congrArg (fun outline => some (Head.bind .pi outline)) (Tele.outline_bare _)
termination_by structural e => e

/-- All elements of an array are checked against one type. -/
theorem AcceptsElements.everywhere (hP : NodeInvariant env P) : ∀ {xs : List Written}
    {ctx : Context} {ty : Checked} {xs' : List Checked}, AcceptsElements fuel env ctx ty xs xs' →
      ctx.Everywhere P → ty.Everywhere P → EverywhereList P xs'
  | [], _, _, _, h, _, _ => by
    cases h
    trivial
  | _ :: _, _, _, _, h, hctx, hty => by
    cases h with
    | cons h₁ h₂ => exact ⟨h₁.everywhere hP hctx (.check hty), h₂.everywhere hP hctx hty⟩
termination_by structural xs => xs

/-- The types of later fields are instantiated with earlier ones, so the property must be kept by
substitution. -/
theorem AcceptsFields.everywhere (hP : NodeInvariant env P) : ∀ {xs : List Written}
    {ctx : Context} {fs : Fields .checked} {xs' : List Checked},
      AcceptsFields fuel env ctx xs fs xs' → ctx.Everywhere P → fs.Everywhere P →
      EverywhereList P xs'
  | [], _, _, _, h, _, _ => by cases h <;> trivial
  | _ :: _, _, _, _, h, hctx, hfs => by
    cases h with
    | fields => trivial
    | cons h₁ h₂ =>
      have hx := h₁.everywhere hP hctx (.check hfs.1)
      exact ⟨hx, h₂.everywhere hP hctx (hfs.2.instantiate hP.substitutive _ hx)⟩
termination_by structural xs => xs

/-- The same for the arguments of a call, and for what is left of the signature. -/
theorem AcceptsArgs.everywhere (hP : NodeInvariant env P) : ∀ {xs : List Written}
    {ctx : Context} {s rest : Signature .checked} {xs' : List Checked},
      AcceptsArgs fuel env ctx xs s xs' rest → ctx.Everywhere P → s.Everywhere P →
      EverywhereList P xs' ∧ rest.Everywhere P
  | [], _, _, _, _, h, _, hs => by
    cases h with
    | nil | returns => exact ⟨trivial, hs⟩
  | _ :: xs, ctx, _, rest, _, h, hctx, hs => by
    -- however the argument is found, the rest of the signature is instantiated with it
    have hcons {v : Option Var} {s : Signature .checked} {x' xs'} (hs : s.Everywhere P)
        (hx : x'.Everywhere P) (h : AcceptsArgs fuel env ctx xs (s.instantiate v x') xs' rest) :
        EverywhereList P (x' :: xs') ∧ rest.Everywhere P := by
      have hxs := h.everywhere hP hctx (hs.instantiate hP.substitutive v hx)
      exact ⟨⟨hx, hxs.1⟩, hxs.2⟩
    cases h with
    | returns => exact ⟨trivial, hs⟩
    | cons _ h₁ h₂ => exact hcons hs.2 (h₁.everywhere hP hctx (.check hs.1)) h₂
    | auto _ h₁ h₂ => exact hcons hs.2 (h₁.everywhere hP hctx) h₂
termination_by structural xs => xs

/-- A value that is found for a placeholder is a part of the type of a later argument. -/
theorem AcceptsAuto.everywhere (hP : NodeInvariant env P) : ∀ {xs : List Written}
    {ctx : Context} {ty : Checked} {v : Option Var} {rest : Signature .checked} {value : Checked},
      AcceptsAuto fuel env ctx ty v xs rest value → ctx.Everywhere P → value.Everywhere P
  | [], _, _, _, _, _, h, _ => by cases h
  | _ :: _, _, _, _, _, _, h, hctx => by
    cases h with
    | found h₁ hsort hmatch => exact ((h₁.everywhere hP hctx .assign).sort hsort).match? hmatch
    | later h => exact h.everywhere hP hctx
termination_by structural xs => xs

/-- Each argument is declared before the rest of the telescope is checked. -/
theorem Tele.Accepts.everywhere (hP : NodeInvariant env P) {k : Binder} :
    ∀ {t : Tele .written k} {ctx : Context} {t' : Tele .checked k},
      Tele.Accepts fuel env ctx t t' → ctx.Everywhere P → t'.Everywhere P
  | .fields, _, _, h, _ => by
    cases h
    trivial
  | .returns _ _, _, _, h, hctx => by
    cases h with
    | returns h => exact h.everywhere hP hctx hP.mode_type
  | .runs _ _ _, _, _, h, hctx => by
    cases h with
    | runs h₁ h₂ =>
      have hret := h₁.everywhere hP hctx hP.mode_type
      exact ⟨hret, h₂.everywhere hP hctx.newScope hret⟩
  | .arg _ _ _ _ _, _, _, h, hctx => by
    cases h with
    | arg h₁ hdeclare h₂ =>
      have hty := h₁.everywhere hP hctx hP.mode_type
      exact ⟨hty, h₂.everywhere hP (hctx.declareArg hty hdeclare)⟩
termination_by structural t => t

/-- Statements are checked against the return type of their function. -/
theorem Stmt.Accepts.everywhere (hP : NodeInvariant env P) : ∀ {s : Stmt .written}
    {ctx : Context} {ret : Checked} {s' : Stmt .checked}, Stmt.Accepts fuel env ctx ret s s' →
      ctx.Everywhere P → ret.Everywhere P → s'.Everywhere P
  | .call _ _, _, _, _, h, hctx, _ => by
    cases h with
    | call _ h => exact h.everywhere hP hctx .assign
  | .ifThen _ _ _, _, _, _, h, hctx, hret => by
    cases h with
    | ifThen h₁ h₂ =>
      exact ⟨h₁.everywhere hP hctx (.check hP.bool),
        h₂.everywhere hP (hctx.newScope.assume _).newScope hret⟩
  | .ifElse _ _ _ _, _, _, _, h, hctx, hret => by
    cases h with
    | ifElse h₁ h₂ h₃ =>
      exact ⟨h₁.everywhere hP hctx (.check hP.bool),
        h₂.everywhere hP (hctx.newScope.assume _).newScope hret,
        h₃.everywhere hP (hctx.newScope.assume _).newScope hret⟩
  | .ret _ _, _, _, _, h, hctx, hret => by
    cases h with
    | ret h => exact h.everywhere hP hctx (.check hret)
  | .retUnit _, _, _, _, h, _, _ | .impossible _, _, _, _, h, _, _ => by
    cases h
    trivial
  | .impossibleBy _ _, _, _, _, h, hctx, _ => by
    cases h with
    | impossibleBy h => exact h.everywhere hP hctx .assign
termination_by structural s => s

theorem AcceptsBody.everywhere (hP : NodeInvariant env P) : ∀ {b : List (Stmt .written)}
    {ctx : Context} {ret : Checked} {b' : List (Stmt .checked)},
      AcceptsBody fuel env ctx ret b b' → ctx.Everywhere P → ret.Everywhere P →
      EverywhereBody P b'
  | [], _, _, _, h, _, _ => by
    cases h
    trivial
  | _ :: _, _, _, _, h, hctx, hret => by
    cases h with
    | cons h₁ h₂ =>
      exact ⟨h₁.everywhere hP hctx hret, h₂.everywhere hP (hctx.learn _) hret⟩
termination_by structural b => b

end

end

end DependentCore
