import DependentCore.Proofs.Binding.Known
import DependentCore.Proofs.Semantics.Substitution
import DependentCore.Proofs.Typing.Fillings
import DependentCore.Syntax.Nodes

/-!
# The names that a checked term uses

What a term is checked to uses no names but those of the written term, of the context, of the
globals and of the type that is asked for; so does its type. A term with a placeholder is an
exception: the argument that is found for it is taken from the type of another one, and it may
mention a variable that is bound there.

* `Env.Known`, `Context.Known`, `Mode.Known`: the globals, the types of the variables in scope and
  the type that is asked for keep to a vocabulary,
* `Env.InterfaceKnown`: so do the globals, the bodies of functions left out,
* `Term.Accepts.known_of_fillings`: if the values found for placeholders keep to the vocabulary, so
  does the checked term,
* `Explicit`: there is no placeholder,
* `Term.Accepts.known`: then the checked term keeps to the vocabulary.
-/

namespace DependentCore

/-! ## Environments, contexts and modes -/

/-- The names of an item are known. -/
def Item.Known {p : Phase} (S : Vocabulary) : Item p → Prop
  | .integer _ => True
  | .struct fs => fs.Known S
  | .declared s | .external s => s.Known S
  | .defined f => f.Known S

/-- The names of all globals are known. -/
def Env.Known (S : Vocabulary) (env : Env) : Prop :=
  ∀ g e, env.get? g = some e → e.item.Known S

/-- What can be read of an item from outside: the body of a function is left out. -/
def Item.interface {p : Phase} : Item p → Item p
  | .defined f => .declared f.signature
  | .integer t => .integer t
  | .struct fs => .struct fs
  | .declared s => .declared s
  | .external s => .external s

/-- The names of all globals are known, the bodies of functions left out. -/
def Env.InterfaceKnown (S : Vocabulary) (env : Env) : Prop :=
  ∀ g e, env.get? g = some e → e.item.interface.Known S

/-- The names of the type of a variable are known. -/
def Meaning.Known (S : Vocabulary) : Meaning → Prop
  | .type => True
  | .term _ ty => ty.Known S

/-- The names of the types of the variables in scope are known. -/
def Context.Known (S : Vocabulary) (ctx : Context) : Prop :=
  ∀ v d, ctx.lookup? v = some d → d.meaning.Known S

/-- The variables in scope are known, and so are the names of their types. -/
structure Context.Within (S : Vocabulary) (ctx : Context) : Prop where
  declared : ∀ v d, ctx.lookup? v = some d → S.var v
  known : ctx.Known S

/-- The names of the type that is asked for are known. -/
def Mode.Known (S : Vocabulary) (mode : Mode) : Prop :=
  ∀ expected, mode.expected? = some expected → expected.Known S

/-- There is no placeholder among some terms. -/
def Explicit (ts : List Written) : Prop :=
  ∀ t ∈ ts, t.isAuto = false

variable {p : Phase} {S : Vocabulary} {env : Env} {ctx : Context} {fuel : Nat}

theorem Item.Known.mono {S' : Vocabulary} (hS : S.Without none S') {item : Item p}
    (h : item.Known S) : item.Known S' := by
  cases item with
  | integer => trivial
  | struct fs => exact Tele.Known.mono hS (t := fs) h
  | declared s => exact Tele.Known.mono hS (t := s) h
  | external s => exact Tele.Known.mono hS (t := s) h
  | defined f => exact Tele.Known.mono hS (t := f) h

theorem Env.InterfaceKnown.mono {S' : Vocabulary} (hS : S.Without none S')
    (h : env.InterfaceKnown S) : env.InterfaceKnown S' :=
  fun g e hget => (h g e hget).mono hS

/-- More variables are known in the scope of an argument. -/
theorem Meaning.Known.bind {m : Meaning} (h : m.Known S) (v : Option Var) :
    m.Known (S.bind v) := by
  cases m with
  | type => trivial
  | term qty ty => exact Term.Known.mono (.weaken S v) (t := ty) h

theorem Mode.Known.assign : Mode.Known S .assign :=
  nofun

theorem Mode.Known.check {ty : Checked} (h : ty.Known S) : Mode.Known S (.check ty) := by
  intro expected he
  cases he
  exact h

theorem Mode.Known.type : Mode.Known S .type := by
  intro expected he
  cases he
  exact ⟨trivial, trivial⟩

theorem Context.Known.newScopeOf (h : ctx.Known S) (m : Mutability) :
    (ctx.newScopeOf m).Known S :=
  h

theorem Context.Known.assume (h : ctx.Known S) (fact : Checked) : (ctx.assume fact).Known S :=
  h

/-- A statement declares nothing. -/
theorem Stmt.lookup?_learn (s : Stmt .checked) (ctx : Context) (v : Var) :
    (s.learn ctx).lookup? v = ctx.lookup? v := by
  cases s with
  | ifThen _ cond yes =>
    rw [Stmt.learn]
    split <;> rfl
  | ifElse _ cond yes no =>
    rw [Stmt.learn]
    split <;> rfl
  | _ => rfl

/-- What a statement teaches is a fact; the types in scope stay. -/
theorem Context.Known.learn (h : ctx.Known S) (s : Stmt .checked) : (s.learn ctx).Known S := by
  intro v d hv
  rw [Stmt.lookup?_learn] at hv
  exact h v d hv

/-- Later arguments are checked where the earlier ones are declared. -/
theorem Context.Known.declareArg (h : ctx.Known S) {ctx' : Context} {loc : Location}
    {qty : Quantity} {ty : Checked} (hty : ty.Known S) {v : Option Var}
    (hctx' : declareArg ctx loc qty ty v = .ok ctx') : ctx'.Known (S.bind v) := by
  have hold : ctx.Known (S.bind v) := fun w d hw => (h w d hw).bind v
  cases v with
  | none =>
    cases hctx'
    exact hold
  | some v =>
    obtain ⟨d, rfl, hd⟩ := declareArg_eq_ok hctx'
    intro w d' hw
    rw [Context.lookup?_withDecl] at hw
    split at hw
    · cases hw
      rcases hd with hd | hd
      · rw [hd]
        trivial
      · rw [hd]
        exact hty.mono (.weaken S (some v))
    · exact hold w d' hw

namespace Context.Within

theorem newScopeOf (h : ctx.Within S) (m : Mutability) : (ctx.newScopeOf m).Within S :=
  ⟨h.declared, h.known.newScopeOf m⟩

theorem newScope (h : ctx.Within S) : ctx.newScope.Within S :=
  h.newScopeOf ctx.mutability

theorem assume (h : ctx.Within S) (fact : Checked) : (ctx.assume fact).Within S :=
  ⟨h.declared, h.known.assume fact⟩

theorem learn (h : ctx.Within S) (s : Stmt .checked) : (s.learn ctx).Within S := by
  refine ⟨fun v d hv => h.declared v d ?_, h.known.learn s⟩
  rw [Stmt.lookup?_learn] at hv
  exact hv

/-- An argument is known in its scope, and so are the names of its type. -/
theorem declareArg (h : ctx.Within S) {ctx' : Context} {loc : Location} {qty : Quantity}
    {ty : Checked} (hty : ty.Known S) {v : Option Var}
    (hctx' : declareArg ctx loc qty ty v = .ok ctx') : ctx'.Within (S.bind v) := by
  refine ⟨fun w d hw => ?_, h.known.declareArg hty hctx'⟩
  cases v with
  | none =>
    cases hctx'
    exact .inr (h.declared w d hw)
  | some v =>
    obtain ⟨d', rfl, -⟩ := declareArg_eq_ok hctx'
    rw [Context.lookup?_withDecl] at hw
    split at hw
    · next hv => exact .inl (congrArg some hv)
    · exact .inr (h.declared w d hw)

end Context.Within

theorem Explicit.left {ts us : List Written} (h : Explicit (ts ++ us)) : Explicit ts :=
  fun t ht => h t (List.mem_append_left us ht)

theorem Explicit.right {ts us : List Written} (h : Explicit (ts ++ us)) : Explicit us :=
  fun t ht => h t (List.mem_append_right ts ht)

/-- There is no placeholder inside of a term that has none. -/
theorem Explicit.inside {note : Note .written Written} {form : Form .written}
    (h : Explicit (Term.mk note form).nodes) : Explicit form.nodes :=
  fun t ht => h t (.tail _ ht)

theorem Explicit.not_isAuto {x : Written} {xs : List Written} (h : Explicit (nodesList (x :: xs))) :
    x.isAuto = false := by
  refine h x (List.mem_append_left _ ?_)
  cases x
  exact .head _

/-! ## Parts of terms -/

/-- The names of a sort are among those of its term. -/
theorem Term.Known.sort {t ty : Checked} (h : t.Known S) (hty : t.sort? = some ty) :
    ty.Known S := by
  obtain ⟨note, form⟩ := t
  cases note with
  | place _ hp => cases hp
  | kind => cases hty
  | sort ty' _ =>
    cases hty
    exact h.1

theorem Term.Known.form {t : Checked} (h : t.Known S) : t.form.Known S := by
  obtain ⟨note, form⟩ := t
  exact h.2

theorem Term.Known.piSort {t : Checked} (h : t.Known S) {s : Signature .checked}
    (hs : t.piSort? = some s) : s.Known S := by
  unfold Term.piSort? at hs
  split at hs
  · next hsort =>
    cases hs
    exact (h.sort hsort).2
  · cases hs

/-- A function without its body has fewer names. -/
theorem Tele.Known.bare : ∀ {k : Binder} {S : Vocabulary} {t : Tele p k}, t.Known S →
    t.bare.Known S
  | _, _, .fields, _ => trivial
  | _, _, .returns _ _, h => h
  | _, _, .runs _ _ _, h => h.1
  | k, _, .arg _ _ _ _ _, h => by
    refine ⟨h.1, fun hk => h.2.1 ?_, h.2.2.bare⟩
    cases k with
    | sigma => rfl
    | pi | abs => cases hk

/-- The return type of a signature without arguments keeps to the vocabulary of the signature. -/
theorem Tele.Known.ret {s : Signature p} (h : s.Known S) (hs : s.arity = 0) : s.ret.Known S := by
  cases s with
  | returns m ret => exact h
  | arg => cases hs

/-- If all names of an environment are known, so are those of signatures and structs. -/
theorem Env.Known.interface (h : env.Known S) : env.InterfaceKnown S := by
  intro g e hget
  have hitem := h g e hget
  generalize e.item = item at hitem ⊢
  cases item with
  | defined f => exact Tele.Known.bare (t := f) hitem
  | integer | struct | declared | external => exact hitem

/-- The fields that a type stands for come from the type or from the environment. -/
theorem Env.InterfaceKnown.fields {ty : Checked} (henv : env.InterfaceKnown S) (hty : ty.Known S)
    {fs : Fields .checked} (hfs : env.fields? ty = some fs) : fs.Known S := by
  obtain ⟨note, form⟩ := ty
  simp only [Env.fields?, Env.structOf?, Term.form] at hfs
  split at hfs
  · cases hfs
    exact hty.2
  · split at hfs
    · split at hfs
      · next hget =>
        cases hfs
        exact henv _ _ hget
      · cases hfs
    · cases hfs

/-- All variables of the function that is built in are bound by its signature. -/
theorem Checked.slice_known : Checked.slice.Known S := by
  simp [Checked.slice, Tele.Known, Term.Known, Note.Known, Form.Known, Unary.Known, Vocabulary.bind,
    Checked.term, Checked.type, Checked.typename, Checked.u64, Checked.bool]

/-- The type of a field keeps to the vocabulary, where earlier fields stand for known terms. -/
theorem Tele.Known.typeOfField {target : Nat → Option Var → Bool}
    {access : Nat → Option Var → Form .checked}
    (haccess : ∀ i v, S.field v.name → (access i (some v)).Known S) {ty : Checked} :
    ∀ {n i : Nat} {fs : Fields .checked}, fs.Known S → typeOfField? target access n i fs = some ty →
      ty.Known S
  | 0, _, fs, _, hty => by cases fs <;> cases hty
  | _ + 1, _, .fields, _, hty => by cases hty
  | n + 1, i, .arg _ _ first v rest, hfs, hty => by
    rw [typeOfField?] at hty
    split at hty
    · cases hty
      exact hfs.1
    · refine Tele.Known.typeOfField haccess (n := n) ?_ hty
      cases v with
      | none => exact hfs.2.2.mono (.unbind S none)
      | some v => exact hfs.2.2.instantiate ⟨hfs.1, haccess i v (hfs.2.1 rfl v rfl)⟩

/-- The type of a member is one of a field, with accesses to earlier members put in. -/
theorem Tele.Known.memberType {fs : Fields .checked} (hfs : fs.Known S) {x ty : Checked}
    (hx : x.Known S) {field : String} (hty : memberType? x field fs = some ty) : ty.Known S := by
  refine hfs.typeOfField (fun i v hv => ?_) hty
  exact ⟨hv, hx⟩

theorem Tele.Known.positionType {fs : Fields .checked} (hfs : fs.Known S) {x ty : Checked}
    (hx : x.Known S) {pos : Nat} (hty : positionType? x pos fs = some ty) : ty.Known S := by
  refine hfs.typeOfField (fun i v _ => ?_) hty
  exact ⟨hx, ⟨⟨trivial, trivial⟩, trivial⟩, trivial⟩

/-! ## Atoms and variables -/

/-- What a global is checked to carries its signature. -/
theorem assignGlobal_known (henv : env.InterfaceKnown S) {loc : Location} {g : GlobalName}
    {t : Checked} (h : assignGlobal env ctx loc g = .ok t) : t.Known S := by
  have hfunction {s : Signature .checked} (hs : s.Known S) :
      (Checked.term (Checked.pi s) (.atom (.global g))).Known S :=
    ⟨⟨⟨trivial, trivial⟩, hs⟩, trivial⟩
  unfold assignGlobal at h
  split at h
  · next e hget =>
    have hitem := henv g e hget
    split at h
    · next s hs =>
      cases h
      refine hfunction ?_
      generalize e.item = item at hitem hs
      cases item with
      | integer | struct => cases hs
      | declared s | external s | defined f =>
        cases hs
        exact hitem
    · cases h
      exact ⟨⟨trivial, trivial⟩, trivial⟩
  · split at h
    · cases h
      exact hfunction Checked.slice_known
    · cases h

theorem assignAtom_known (henv : env.InterfaceKnown S) {loc : Location} {a : Atom} {t : Checked}
    (h : assignAtom env ctx loc a = .ok t) : t.Known S := by
  cases a with
  | auto | num => cases h
  | global g => exact assignGlobal_known henv h
  | typename => cases h; exact ⟨trivial, trivial⟩
  | lit b => cases h; exact ⟨⟨⟨trivial, trivial⟩, trivial⟩, trivial⟩
  | str s => cases h; exact ⟨⟨⟨trivial, trivial⟩, trivial⟩, trivial⟩
  | _ => cases h; exact ⟨⟨trivial, trivial⟩, trivial⟩

theorem elaborateAtom_known (henv : env.InterfaceKnown S) {loc : Location} {mode : Mode}
    (hmode : mode.Known S) {a : Atom} {t : Checked}
    (h : elaborateAtom fuel env ctx loc mode a = .ok t) : t.Known S := by
  unfold elaborateAtom at h
  split at h
  · cases h
    exact ⟨trivial, trivial⟩
  · split at h
    · next expected hexpected =>
      unfold elaborateNumeral at h
      split at h
      · cases h
      · split at h
        · cases h
          exact ⟨hmode expected hexpected, trivial⟩
        · cases h
    · cases h
  · obtain ⟨t', ht', h⟩ := Check.bind_eq_ok.mp h
    obtain ⟨rfl, _⟩ := conclude_eq_ok h
    exact assignAtom_known henv ht'

/-- A variable carries the type that it was declared with. -/
theorem assignVar_known (hctx : ctx.Within S) {loc : Location} {v : Var} {t : Checked}
    (h : assignVar ctx loc v = .ok t) : t.Known S := by
  unfold assignVar at h
  split at h
  · next hlookup =>
    cases h
    exact ⟨⟨trivial, trivial⟩, hctx.declared v _ hlookup⟩
  · next hlookup =>
    cases h
    exact ⟨hctx.known v _ hlookup, hctx.declared v _ hlookup⟩
  · cases h

/-! ## Placeholders -/

/-- The names of a value found for a placeholder are known where it is put. -/
def Filling.Known (S : Vocabulary) (fill : Filling) : Prop :=
  fill.value.Known (fill.bound.foldl Vocabulary.bind S)

/-- The names of some values found for placeholders are known. -/
def KnownFillings (S : Vocabulary) (fills : List Filling) : Prop :=
  ∀ fill ∈ fills, fill.Known S

namespace KnownFillings

variable {fills fills' : List Filling}

theorem nil : KnownFillings S [] :=
  nofun

theorem append (h : KnownFillings S fills) (h' : KnownFillings S fills') :
    KnownFillings S (fills ++ fills') :=
  fun fill hfill => (List.mem_append.mp hfill).elim (h fill) (h' fill)

theorem left (h : KnownFillings S (fills ++ fills')) : KnownFillings S fills :=
  fun fill hfill => h fill (List.mem_append_left fills' hfill)

theorem right (h : KnownFillings S (fills ++ fills')) : KnownFillings S fills' :=
  fun fill hfill => h fill (List.mem_append_right fills hfill)

/-- Whether a placeholder is evaluated does not matter for the names of what it is filled with. -/
theorem delayed_iff : KnownFillings S (fills.map Filling.delayed) ↔ KnownFillings S fills :=
  List.forall_mem_map

theorem under_iff {v : Option Var} :
    KnownFillings S (fills.map (Filling.under v)) ↔ KnownFillings (S.bind v) fills :=
  List.forall_mem_map

/-- The first of some terms is found for a placeholder itself, or what is found is inside it. -/
theorem head {x : Written} {x' : Checked} {xs : List Written} {xs' : List Checked}
    (h : KnownFillings S (fillingsList (x :: xs) (x' :: xs'))) :
    x'.Known S ∨ KnownFillings S (x.fillings x') := by
  rw [fillingsList] at h
  cases hauto : x.isAuto with
  | true =>
    rw [if_pos hauto] at h
    exact .inl (h ⟨[], true, x'⟩ (.head _))
  | false =>
    rw [if_neg (by simp [hauto])] at h
    exact .inr h.left

theorem tail {x : Written} {x' : Checked} {xs : List Written} {xs' : List Checked}
    (h : KnownFillings S (fillingsList (x :: xs) (x' :: xs'))) :
    KnownFillings S (fillingsList xs xs') := by
  rw [fillingsList] at h
  exact h.right

end KnownFillings

mutual

theorem Term.fillings_of_explicit : ∀ {e : Written} (t : Checked), Explicit e.nodes →
    e.fillings t = []
  | .mk _ _, .mk _ form', h => Form.fillings_of_explicit form' h.inside

theorem Form.fillings_of_explicit : ∀ {f : Form .written} (f' : Form .checked), Explicit f.nodes →
    f.fillings f' = []
  | .atom _, f', _ | .var _, f', _ => by cases f' <;> rfl
  | .unary _ x, f', h => by
    cases f' with
    | unary _ x' => exact Term.fillings_of_explicit x' h
    | _ => rfl
  | .binary _ x y, f', h => by
    cases f' with
    | binary _ x' y' =>
      rw [Form.fillings, Term.fillings_of_explicit x' h.left, Term.fillings_of_explicit y' h.right,
        List.append_nil]
    | _ => rfl
  | .app f args, f', h => by
    cases f' with
    | app f' args' =>
      rw [Form.fillings, Term.fillings_of_explicit f' h.left,
        fillingsList_of_explicit args' h.right, List.append_nil]
    | _ => rfl
  | .list xs, f', h => by
    cases f' with
    | list xs' => exact fillingsList_of_explicit xs' h
    | _ => rfl
  | .bind k t, f', h => by
    cases f' with
    | bind _ t' =>
      rw [Form.fillings, Tele.fillings_of_explicit t' h]
      split <;> rfl
    | _ => rfl

theorem Tele.fillings_of_explicit {k l : Binder} : ∀ {t : Tele .written k} (t' : Tele .checked l),
    Explicit t.nodes → t.fillings t' = []
  | .fields, t', _ => by cases t' <;> rfl
  | .returns _ ret, t', h => by
    cases t' with
    | returns _ ret' => exact Term.fillings_of_explicit ret' h
    | _ => rfl
  | .runs _ ret body, t', h => by
    cases t' with
    | runs _ ret' body' =>
      rw [Tele.fillings, Term.fillings_of_explicit ret' h.left,
        fillingsBody_of_explicit body' h.right, List.append_nil]
    | _ => rfl
  | .arg _ _ ty v rest, t', h => by
    cases t' with
    | arg _ _ ty' _ rest' =>
      rw [Tele.fillings, Term.fillings_of_explicit ty' h.left,
        Tele.fillings_of_explicit rest' h.right, List.map_nil, List.append_nil]
    | _ => rfl

theorem Stmt.fillings_of_explicit : ∀ {s : Stmt .written} (s' : Stmt .checked), Explicit s.nodes →
    s.fillings s' = []
  | .call _ x, s', h => by
    cases s' with
    | call _ x' => exact Term.fillings_of_explicit x' h
    | _ => rfl
  | .ret _ x, s', h => by
    cases s' with
    | ret _ x' => exact Term.fillings_of_explicit x' h
    | _ => rfl
  | .impossibleBy _ x, s', h => by
    cases s' with
    | impossibleBy _ x' => exact Term.fillings_of_explicit x' h
    | _ => rfl
  | .ifThen _ cond yes, s', h => by
    cases s' with
    | ifThen _ cond' yes' =>
      rw [Stmt.fillings, Term.fillings_of_explicit cond' h.left,
        fillingsBody_of_explicit yes' h.right, List.append_nil]
    | _ => rfl
  | .ifElse _ cond yes no, s', h => by
    cases s' with
    | ifElse _ cond' yes' no' =>
      rw [Stmt.fillings, Term.fillings_of_explicit cond' h.left.left,
        fillingsBody_of_explicit yes' h.left.right, fillingsBody_of_explicit no' h.right,
        List.append_nil, List.append_nil]
    | _ => rfl
  | .retUnit _, s', _ | .impossible _, s', _ => by cases s' <;> rfl

theorem fillingsList_of_explicit : ∀ {xs : List Written} (xs' : List Checked),
    Explicit (nodesList xs) → fillingsList xs xs' = []
  | [], _, _ => rfl
  | _ :: _, [], _ => rfl
  | x :: xs, x' :: xs', h => by
    rw [fillingsList, if_neg (by simp [h.not_isAuto]), Term.fillings_of_explicit x' h.left,
      fillingsList_of_explicit xs' h.right, List.append_nil]

theorem fillingsBody_of_explicit : ∀ {b : List (Stmt .written)} (b' : List (Stmt .checked)),
    Explicit (nodesBody b) → fillingsBody b b' = []
  | [], _, _ => rfl
  | _ :: _, [], _ => rfl
  | _ :: _, s' :: b', h => by
    rw [fillingsBody, Stmt.fillings_of_explicit s' h.left, fillingsBody_of_explicit b' h.right,
      List.append_nil]

end

/-! ## The rules -/

/-- The vocabulary with all variables. -/
def Vocabulary.anyVar (S : Vocabulary) : Vocabulary :=
  { S with var := fun _ => True }

/-- Where any variable is known, the one of a binder is. -/
theorem Vocabulary.anyVar_bind (S : Vocabulary) (v : Option Var) :
    (S.anyVar.bind v).Without none (S.bind v).anyVar :=
  ⟨fun _ _ => .inr trivial, fun _ h => h⟩

mutual

/-- What a term is checked to keeps to the vocabulary of its context, the globals, the type that is
asked for and the names of fields in the term, if the values found for placeholders do. -/
theorem Term.Accepts.known_of_fillings : ∀ {e : Written} {S : Vocabulary} {ctx : Context}
    {mode : Mode} {t : Checked}, Term.Accepts fuel env ctx mode e t →
      KnownFillings S (e.fillings t) → env.InterfaceKnown S → ctx.Within S → mode.Known S →
      e.Known S.anyVar → t.Known S
  | .mk _ (.atom _), _, _, _, _, h, _, henv, _, hmode, _ => by
    cases h with
    | atom h => exact elaborateAtom_known henv hmode h
  | .mk _ (.var _), _, _, _, _, h, _, _, hctx, _, _ => by
    cases h with
    | var h => exact assignVar_known hctx h
  | .mk _ (.unary _ x), S, ctx, _, _, h, hfill, henv, hctx, _, he => by
    have hbool : Mode.Known S (.check Checked.bool) := .check ⟨⟨trivial, trivial⟩, trivial⟩
    have ih {mode x'} (hfill : KnownFillings S (x.fillings x')) (hmode : mode.Known S)
        (hx : Term.Accepts fuel env ctx mode x x') : x'.Known S :=
      hx.known_of_fillings hfill henv hctx hmode he.2.2
    cases h with
    | trueT hx => exact ⟨⟨trivial, trivial⟩, trivial, ih hfill hbool hx⟩
    | addressOf _ hx hty =>
      have hx' := ih hfill .assign hx
      exact ⟨⟨⟨trivial, trivial⟩, hx'.sort hty, ⟨⟨trivial, trivial⟩, trivial⟩, trivial, hx'⟩,
        trivial, hx'⟩
    | deref hx hty =>
      have hx' := ih hfill .assign hx
      exact ⟨(hx'.sort hty).2.1, trivial, hx'⟩
    | scopeOf hx => exact ⟨⟨⟨trivial, trivial⟩, trivial⟩, trivial, ih hfill .assign hx⟩
    | not hx => exact ⟨⟨⟨trivial, trivial⟩, trivial⟩, trivial, ih hfill hbool hx⟩
    | member hx hsort hfs hty =>
      have hx' := ih hfill .assign hx
      have hfields := henv.fields (hx'.sort hsort) hfs
      exact ⟨hfields.memberType hx' hty, he.2.1, hx'⟩
  | .mk _ (.binary _ x y), S, ctx, mode, _, h, hfill, henv, hctx, hmode, he => by
    have hbool : Checked.bool.Known S := ⟨⟨trivial, trivial⟩, trivial⟩
    have hu64 : Checked.u64.Known S := ⟨⟨trivial, trivial⟩, trivial⟩
    have hscope : Checked.scope.Known S := ⟨⟨trivial, trivial⟩, trivial⟩
    have ihx {ctx mode x' y'} (hfill : KnownFillings S (x.fillings x' ++ y.fillings y'))
        (hctx : ctx.Within S) (hmode : mode.Known S) (h : Term.Accepts fuel env ctx mode x x') :
        x'.Known S :=
      h.known_of_fillings hfill.left henv hctx hmode he.2.1
    have ihy {mode x' y'} (hfill : KnownFillings S (x.fillings x' ++ y.fillings y'))
        (hmode : mode.Known S) (h : Term.Accepts fuel env ctx mode y y') : y'.Known S :=
      h.known_of_fillings hfill.right henv hctx hmode he.2.2
    -- whichever operand is checked first, the other is checked against a known type
    have ihpair {x' y'} (hfill : KnownFillings S (x.fillings x' ++ y.fillings y'))
        (h : AcceptsPair fuel env ctx x y x' y') : x'.Known S ∧ y'.Known S := by
      cases h with
      | leftFirst h₁ hty h₂ =>
        have hx' := ihx hfill hctx .assign h₁
        exact ⟨hx', ihy hfill (.check (hx'.sort hty)) h₂⟩
      | rightFirst h₁ hty h₂ =>
        have hy' := ihy hfill .assign h₁
        exact ⟨ihx hfill hctx (.check (hy'.sort hty)) h₂, hy'⟩
    cases h with
    | arrayT h₁ h₂ =>
      exact ⟨⟨trivial, trivial⟩, ihx hfill hctx .type h₁, ihy hfill (.check hu64) h₂⟩
    | refT h₁ h₂ =>
      exact ⟨⟨trivial, trivial⟩, ihx hfill hctx .type h₁, ihy hfill (.check hscope) h₂⟩
    | element h₁ hty h₂ =>
      have hx' := ihx hfill hctx .assign h₁
      exact ⟨(hx'.sort hty).2.1, hx', ihy hfill (.check hu64) h₂⟩
    | position h₁ hty _ _ h₂ hfield =>
      have hx' := ihx hfill hctx .assign h₁
      have hfields : Tele.Known S _ := (hx'.sort hty).2
      exact ⟨hfields.positionType hx' hfield, hx', ihy hfill (.check hu64) h₂⟩
    | because _ h₂ h₁ hty =>
      have hx' := ihx hfill (hctx.newScope.assume _) .assign h₁
      exact ⟨hx'.sort hty, hx', ihy hfill (.check hbool) h₂⟩
    | becauseOf hexpected h₂ h₁ =>
      have hty := hmode _ hexpected
      exact ⟨hty, ihx hfill (hctx.newScope.assume _) (.check hty) h₁, ihy hfill (.check hbool) h₂⟩
    | logic h₁ h₂ => exact ⟨hbool, ihx hfill hctx (.check hbool) h₁, ihy hfill (.check hbool) h₂⟩
    | compare h => exact ⟨hbool, ihpair hfill h⟩
    | arith h hty =>
      have hpair := ihpair hfill h
      exact ⟨hpair.1.sort hty, hpair⟩
    | arithOf hexpected _ h₁ h₂ =>
      have hty := hmode _ hexpected
      exact ⟨hty, ihx hfill hctx (.check hty) h₁, ihy hfill (.check hty) h₂⟩
  | .mk _ (.app f args), _, _, _, _, h, hfill, henv, hctx, _, he => by
    cases h with
    | @app _ _ _ _ _ f' _ args' _ _ h₁ hs _ harity h₂ =>
      have hfill' : KnownFillings _ (f.fillings f' ++ fillingsList args args') := hfill
      have hf := h₁.known_of_fillings hfill'.left henv hctx .assign he.2.1
      have hargs := h₂.known_of_fillings hfill'.right henv hctx (hf.piSort hs) he.2.2
      exact ⟨hargs.2 harity, hf, hargs.1⟩
  | .mk _ (.list xs), S, _, _, _, h, hfill, henv, hctx, hmode, he => by
    cases h with
    | array hexpected hform _ h =>
      have hty := hmode _ hexpected
      have hform' := hty.form
      rw [hform] at hform'
      exact ⟨hty, h.known_of_fillings hfill henv hctx hform'.1 he.2⟩
    | unit hexpected | proof hexpected => exact ⟨hmode _ hexpected, trivial⟩
    | struct hexpected hfs _ h =>
      have hty := hmode _ hexpected
      exact ⟨hty, h.known_of_fillings hfill henv hctx (henv.fields hty hfs) he.2⟩
  | .mk _ (.bind .sigma _), _, _, _, _, h, hfill, henv, hctx, _, he => by
    cases h with
    | sigma h => exact ⟨⟨trivial, trivial⟩, h.known_of_fillings hfill henv hctx.newScope he.2⟩
  | .mk _ (.bind .pi _), _, _, _, _, h, hfill, henv, hctx, _, he => by
    cases h with
    | pi h => exact ⟨⟨trivial, trivial⟩, h.known_of_fillings hfill henv hctx.newScope he.2⟩
  | .mk _ (.bind .abs _), _, _, _, _, h, hfill, henv, hctx, _, he => by
    cases h with
    | abs h =>
      have hfill' := KnownFillings.delayed_iff.mp hfill
      have hf := h.known_of_fillings hfill' henv (hctx.newScopeOf _) he.2
      exact ⟨⟨⟨trivial, trivial⟩, hf.bare⟩, hf⟩
termination_by structural e => e

theorem AcceptsElements.known_of_fillings : ∀ {xs : List Written} {S : Vocabulary} {ctx : Context}
    {ty : Checked} {xs' : List Checked}, AcceptsElements fuel env ctx ty xs xs' →
      KnownFillings S (fillingsList xs xs') → env.InterfaceKnown S → ctx.Within S → ty.Known S →
      KnownList S.anyVar xs → KnownList S xs'
  | [], _, _, _, _, h, _, _, _, _, _ => by
    cases h
    trivial
  | _ :: _, _, _, _, _, h, hfill, henv, hctx, hty, he => by
    cases h with
    | cons h₁ h₂ =>
      have hrest := h₂.known_of_fillings hfill.tail henv hctx hty he.2
      refine ⟨hfill.head.elim id fun hfill => ?_, hrest⟩
      exact h₁.known_of_fillings hfill henv hctx (.check hty) he.1
termination_by structural xs => xs

theorem AcceptsFields.known_of_fillings : ∀ {xs : List Written} {S : Vocabulary} {ctx : Context}
    {fs : Fields .checked} {xs' : List Checked}, AcceptsFields fuel env ctx xs fs xs' →
      KnownFillings S (fillingsList xs xs') → env.InterfaceKnown S → ctx.Within S → fs.Known S →
      KnownList S.anyVar xs → KnownList S xs'
  | [], _, _, _, _, h, _, _, _, _, _ => by cases h <;> trivial
  | _ :: _, S, _, _, _, h, hfill, henv, hctx, hfs, he => by
    cases h with
    | fields => trivial
    | @cons _ _ x' _ _ _ _ _ _ _ h₁ h₂ =>
      have hx : x'.Known S := hfill.head.elim id fun hfill =>
        h₁.known_of_fillings hfill henv hctx (.check hfs.1) he.1
      exact ⟨hx, h₂.known_of_fillings hfill.tail henv hctx (hfs.2.2.instantiate hx) he.2⟩
termination_by structural xs => xs

/-- The arguments of a call that are left out are given by the fillings. -/
theorem AcceptsArgs.known_of_fillings : ∀ {xs : List Written} {S : Vocabulary} {ctx : Context}
    {s rest : Signature .checked} {xs' : List Checked}, AcceptsArgs fuel env ctx xs s xs' rest →
      KnownFillings S (fillingsList xs xs') → env.InterfaceKnown S → ctx.Within S → s.Known S →
      KnownList S.anyVar xs → KnownList S xs' ∧ (s.arity = xs.length → rest.ret.Known S)
  | [], _, _, _, _, _, h, _, _, _, hs, _ => by
    cases h with
    | nil => exact ⟨trivial, hs.ret⟩
    | returns => exact ⟨trivial, fun _ => hs⟩
  | x :: xs, S, ctx, _, _, _, h, hfill, henv, hctx, hs, he => by
    -- what is said of the arguments that follow does not depend on how this one was found
    have ih {x' xs' mark qty ty v} {rest s : Signature .checked} (hx : x'.Known S)
        (hs : Tele.Known S (.arg mark qty ty v rest))
        (hfill : KnownFillings S (fillingsList (x :: xs) (x' :: xs')))
        (h : AcceptsArgs fuel env ctx xs (rest.instantiate v x') xs' s) :
        KnownList S (x' :: xs') ∧
          ((Tele.arg mark qty ty v rest).arity = (x :: xs).length → s.ret.Known S) := by
      have hxs := h.known_of_fillings hfill.tail henv hctx (hs.2.2.instantiate hx) he.2
      refine ⟨⟨hx, hxs.1⟩, fun harity => hxs.2 ?_⟩
      rw [Tele.arity_instantiate]
      exact Nat.succ.inj harity
    cases h with
    | returns => exact ⟨trivial, nofun⟩
    | cons _ h₁ h₂ =>
      refine ih (hfill.head.elim id fun hfill => ?_) hs hfill h₂
      exact h₁.known_of_fillings hfill henv hctx (.check hs.1) he.1
    | @auto _ _ x' _ _ _ _ _ _ _ _ hauto _ h₂ =>
      have hx : x'.Known S := by
        rw [fillingsList, if_pos hauto] at hfill
        exact hfill ⟨[], true, x'⟩ (.head _)
      exact ih hx hs hfill h₂
termination_by structural xs => xs

/-- What stands under an argument is known together with its variable. -/
theorem Tele.Accepts.known_of_fillings {k : Binder} : ∀ {t : Tele .written k} {S : Vocabulary}
    {ctx : Context} {t' : Tele .checked k}, Tele.Accepts fuel env ctx t t' →
      KnownFillings S (t.fillings t') → env.InterfaceKnown S → ctx.Within S →
      t.Known S.anyVar → t'.Known S
  | .fields, _, _, _, h, _, _, _, _ => by
    cases h
    trivial
  | .returns _ _, _, _, _, h, hfill, henv, hctx, he => by
    cases h with
    | returns h => exact h.known_of_fillings hfill henv hctx .type he
  | .runs _ ret body, S, _, _, h, hfill, henv, hctx, he => by
    cases h with
    | @runs _ _ _ ret' _ body' h₁ h₂ =>
      have hfill' : KnownFillings S (ret.fillings ret' ++ fillingsBody body body') := hfill
      have hret := h₁.known_of_fillings hfill'.left henv hctx .type he.1
      exact ⟨hret, h₂.known_of_fillings hfill'.right henv hctx.newScope hret he.2⟩
  | .arg _ _ ty v rest, S, _, _, h, hfill, henv, hctx, he => by
    cases h with
    | @arg _ _ _ _ _ _ ty' _ _ rest' h₁ hdeclare h₂ =>
      have hfill' : KnownFillings S
          (ty.fillings ty' ++ (rest.fillings rest').map (Filling.under v)) := hfill
      have hty := h₁.known_of_fillings hfill'.left henv hctx .type he.1
      have hctx' := hctx.declareArg hty hdeclare
      have he' := he.2.2.mono (S.anyVar_bind v)
      have hrest := KnownFillings.under_iff.mp hfill'.right
      exact ⟨hty, he.2.1, h₂.known_of_fillings hrest (henv.mono (.weaken S v)) hctx' he'⟩
termination_by structural t => t

theorem Stmt.Accepts.known_of_fillings : ∀ {s : Stmt .written} {S : Vocabulary} {ctx : Context}
    {ret : Checked} {s' : Stmt .checked}, Stmt.Accepts fuel env ctx ret s s' →
      KnownFillings S (s.fillings s') → env.InterfaceKnown S → ctx.Within S → ret.Known S →
      s.Known S.anyVar → s'.Known S
  | .call _ _, _, _, _, _, h, hfill, henv, hctx, _, he => by
    cases h with
    | call _ h => exact h.known_of_fillings hfill henv hctx .assign he
  | .ifThen _ cond yes, S, _, _, _, h, hfill, henv, hctx, hret, he => by
    cases h with
    | @ifThen _ _ _ _ cond' _ yes' h₁ h₂ =>
      have hfill' : KnownFillings S (cond.fillings cond' ++ fillingsBody yes yes') := hfill
      exact ⟨h₁.known_of_fillings hfill'.left henv hctx (.check ⟨⟨trivial, trivial⟩, trivial⟩) he.1,
        h₂.known_of_fillings hfill'.right henv (hctx.newScope.assume _).newScope hret he.2⟩
  | .ifElse _ cond yes no, S, _, _, _, h, hfill, henv, hctx, hret, he => by
    cases h with
    | @ifElse _ _ _ _ cond' _ yes' _ no' h₁ h₂ h₃ =>
      have hfill' : KnownFillings S
          (cond.fillings cond' ++ fillingsBody yes yes' ++ fillingsBody no no') := hfill
      exact ⟨h₁.known_of_fillings hfill'.left.left henv hctx
          (.check ⟨⟨trivial, trivial⟩, trivial⟩) he.1,
        h₂.known_of_fillings hfill'.left.right henv (hctx.newScope.assume _).newScope hret he.2.1,
        h₃.known_of_fillings hfill'.right henv (hctx.newScope.assume _).newScope hret he.2.2⟩
  | .ret _ _, _, _, _, _, h, hfill, henv, hctx, hret, he => by
    cases h with
    | ret h => exact h.known_of_fillings hfill henv hctx (.check hret) he
  | .retUnit _, _, _, _, _, h, _, _, _, _, _ | .impossible _, _, _, _, _, h, _, _, _, _, _ => by
    cases h
    trivial
  | .impossibleBy _ _, _, _, _, _, h, hfill, henv, hctx, _, he => by
    cases h with
    | impossibleBy h => exact h.known_of_fillings hfill henv hctx .assign he
termination_by structural s => s

theorem AcceptsBody.known_of_fillings : ∀ {b : List (Stmt .written)} {S : Vocabulary}
    {ctx : Context} {ret : Checked} {b' : List (Stmt .checked)},
    AcceptsBody fuel env ctx ret b b' → KnownFillings S (fillingsBody b b') →
      env.InterfaceKnown S → ctx.Within S → ret.Known S → KnownBody S.anyVar b → KnownBody S b'
  | [], _, _, _, _, h, _, _, _, _, _ => by
    cases h
    trivial
  | s :: b, S, _, _, _, h, hfill, henv, hctx, hret, he => by
    cases h with
    | @cons _ _ _ s' _ b' h₁ h₂ =>
      have hfill' : KnownFillings S (s.fillings s' ++ fillingsBody b b') := hfill
      exact ⟨h₁.known_of_fillings hfill'.left henv hctx hret he.1,
        h₂.known_of_fillings hfill'.right henv (hctx.learn _) hret he.2⟩
termination_by structural b => b

end

/-- What a term without placeholders is checked to keeps to the vocabulary of the term, its
context, the globals and the type that is asked for. -/
theorem Term.Accepts.known {e : Written} {mode : Mode} {t : Checked}
    (h : Term.Accepts fuel env ctx mode e t) (hexplicit : Explicit e.nodes) (henv : env.Known S)
    (hctx : ctx.Within S) (hmode : mode.Known S) (he : e.Known S) : t.Known S := by
  refine h.known_of_fillings ?_ henv.interface hctx hmode (he.mono ⟨fun _ _ => .inr trivial, ?_⟩)
  · rw [Term.fillings_of_explicit t hexplicit]
    exact .nil
  · exact fun _ hs => hs

end DependentCore
