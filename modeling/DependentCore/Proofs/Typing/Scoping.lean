import DependentCore.Proofs.Globals.Entries
import DependentCore.Proofs.Globals.Stored
import DependentCore.Proofs.Typing.Erasure
import DependentCore.Syntax.Equality

/-!
# Scoping

The variables that occur free in a checked term are those of the context, in its sorts as well. This
holds but for placeholders: the value found for one is cut out of the type of another argument,
where it may stand under a binder, and then a variable that is bound there is left without its
binder (`placeholder_escapes_scope`).

* `Context.Declares`, `Context.IsScoped`: the variables in scope, and contexts whose types mention
  only such variables,
* `Env.IsClosed`: the types of globals mention no variables but those that they bind,
* `Term.known_ofVars_iff`: a vocabulary of variables only is a set of free variables,
* `scoped_iff_fillings_scoped`: a checked term is well-scoped if and only if the values found for
  its placeholders are.
-/

namespace DependentCore

variable {p : Phase}

/-! ## Free variables as a vocabulary -/

/-- The vocabulary of a set of variables, and of all names of fields. -/
def Vocabulary.ofVars (V : Var → Prop) : Vocabulary :=
  ⟨V, fun _ => True⟩

mutual

/-- A term keeps to a set of variables if all its free variables are in it. -/
theorem Term.known_ofVars_iff : ∀ {t : Term p} {V : Var → Prop},
    t.Known (.ofVars V) ↔ ∀ y, t.occursFree y → V y
  | .mk note form, V => by
    simp only [Term.Known, Term.occursFree, Bool.or_eq_true, or_imp, forall_and,
      Note.known_ofVars_iff (n := note), Form.known_ofVars_iff (f := form)]

theorem Note.known_ofVars_iff : ∀ {n : Note p (Term p)} {V : Var → Prop},
    n.Known (.ofVars V) ↔ ∀ y, n.occursFree y → V y
  | .place _ _, _ | .kind _, _ => by simp [Note.Known, Note.occursFree]
  | .sort ty _, _ => Term.known_ofVars_iff (t := ty)

theorem Form.known_ofVars_iff : ∀ {f : Form p} {V : Var → Prop},
    f.Known (.ofVars V) ↔ ∀ y, f.occursFree y → V y
  | .atom _, _ => by simp [Form.Known, Form.occursFree]
  | .var v, V => by simp [Form.Known, Form.occursFree, Vocabulary.ofVars]
  | .unary op x, V => by
    have hop : op.Known (.ofVars V) := by cases op <;> trivial
    simp only [Form.Known, Form.occursFree, Term.known_ofVars_iff (t := x), hop, true_and]
  | .binary _ x y, V => by
    simp only [Form.Known, Form.occursFree, Bool.or_eq_true, or_imp, forall_and,
      Term.known_ofVars_iff (t := x), Term.known_ofVars_iff (t := y)]
  | .app f args, V => by
    simp only [Form.Known, Form.occursFree, Bool.or_eq_true, or_imp, forall_and,
      Term.known_ofVars_iff (t := f), knownList_ofVars_iff (l := args)]
  | .list xs, _ => knownList_ofVars_iff (l := xs)
  | .bind _ t, _ => Tele.known_ofVars_iff (t := t)

theorem Tele.known_ofVars_iff {k : Binder} : ∀ {t : Tele p k} {V : Var → Prop},
    t.Known (.ofVars V) ↔ ∀ y, t.occursFree y → V y
  | .fields, _ => by simp [Tele.Known, Tele.occursFree]
  | .returns _ ret, _ => Term.known_ofVars_iff (t := ret)
  | .runs _ ret body, V => by
    simp only [Tele.Known, Tele.occursFree, Bool.or_eq_true, or_imp, forall_and,
      Term.known_ofVars_iff (t := ret), knownBody_ofVars_iff (b := body)]
  | .arg _ _ ty v rest, V => by
    have hrest : rest.Known ((Vocabulary.ofVars V).bind v) ↔
        ∀ y, rest.occursFree y → v = some y ∨ V y :=
      Tele.known_ofVars_iff (t := rest)
    constructor
    · rintro ⟨hty, -, h⟩ y hy
      simp only [Tele.occursFree, Bool.or_eq_true, Bool.and_eq_true, decide_eq_true_eq] at hy
      rcases hy with hy | ⟨hv, hy⟩
      · exact Term.known_ofVars_iff.mp hty y hy
      · exact (hrest.mp h y hy).resolve_left hv
    · intro h
      refine ⟨Term.known_ofVars_iff.mpr fun y hy => h y (by simp [Tele.occursFree, hy]),
        fun _ _ _ => trivial, hrest.mpr fun y hy => ?_⟩
      by_cases hv : v = some y
      · exact .inl hv
      · exact .inr (h y (by simp [Tele.occursFree, hv, hy]))

theorem Stmt.known_ofVars_iff : ∀ {s : Stmt p} {V : Var → Prop},
    s.Known (.ofVars V) ↔ ∀ y, s.occursFree y → V y
  | .call _ x, _ | .ret _ x, _ | .impossibleBy _ x, _ => Term.known_ofVars_iff (t := x)
  | .ifThen _ cond yes, V => by
    simp only [Stmt.Known, Stmt.occursFree, Bool.or_eq_true, or_imp, forall_and,
      Term.known_ofVars_iff (t := cond), knownBody_ofVars_iff (b := yes)]
  | .ifElse _ cond yes no, V => by
    simp only [Stmt.Known, Stmt.occursFree, Bool.or_eq_true, or_imp, forall_and, and_assoc,
      Term.known_ofVars_iff (t := cond), knownBody_ofVars_iff (b := yes),
      knownBody_ofVars_iff (b := no)]
  | .retUnit _, _ | .impossible _, _ => by simp [Stmt.Known, Stmt.occursFree]

theorem knownList_ofVars_iff : ∀ {l : List (Term p)} {V : Var → Prop},
    KnownList (.ofVars V) l ↔ ∀ y, occursFreeList y l → V y
  | [], _ => by simp [KnownList, occursFreeList]
  | x :: xs, V => by
    simp only [KnownList, occursFreeList, Bool.or_eq_true, or_imp, forall_and,
      Term.known_ofVars_iff (t := x), knownList_ofVars_iff (l := xs)]

theorem knownBody_ofVars_iff : ∀ {b : List (Stmt p)} {V : Var → Prop},
    KnownBody (.ofVars V) b ↔ ∀ y, occursFreeBody y b → V y
  | [], _ => by simp [KnownBody, occursFreeBody]
  | s :: rest, V => by
    simp only [KnownBody, occursFreeBody, Bool.or_eq_true, or_imp, forall_and,
      Stmt.known_ofVars_iff (s := s), knownBody_ofVars_iff (b := rest)]

end

theorem Vocabulary.foldl_bind_ofVars (bound : List (Option Var)) : ∀ V : Var → Prop,
    bound.foldl Vocabulary.bind (.ofVars V) = .ofVars fun y => some y ∈ bound ∨ V y := by
  induction bound with
  | nil => simp
  | cons v bound ih =>
    intro V
    have hbind : (Vocabulary.ofVars V).bind v = .ofVars fun y => v = some y ∨ V y := rfl
    rw [List.foldl_cons, hbind, ih]
    refine congrArg Vocabulary.ofVars (funext fun y => propext ?_)
    grind

theorem Filling.known_ofVars_iff {fill : Filling} {V : Var → Prop} :
    fill.Known (.ofVars V) ↔ ∀ y, fill.value.occursFree y → some y ∈ fill.bound ∨ V y := by
  rw [Filling.Known, Vocabulary.foldl_bind_ofVars, Term.known_ofVars_iff]

/-! ## Values found for placeholders are parts -/

mutual

theorem Term.Known.fillings : ∀ (e : Written) {S : Vocabulary} {t : Checked}, t.Known S →
    KnownFillings S (e.fillings t)
  | .mk _ form, _, .mk _ _, h => Form.Known.fillings form h.2

theorem Form.Known.fillings : ∀ (f : Form .written) {S : Vocabulary} {f' : Form .checked},
    f'.Known S → KnownFillings S (f.fillings f')
  | .atom _, _, f', _ | .var _, _, f', _ => by cases f' <;> exact .nil
  | .unary _ x, _, f', h => by
    cases f' with
    | unary => exact Term.Known.fillings x h.2
    | _ => exact .nil
  | .binary _ x y, _, f', h => by
    cases f' with
    | binary => exact .append (Term.Known.fillings x h.1) (Term.Known.fillings y h.2)
    | _ => exact .nil
  | .app f args, _, f', h => by
    cases f' with
    | app => exact .append (Term.Known.fillings f h.1) (KnownList.fillings args h.2)
    | _ => exact .nil
  | .list xs, _, f', h => by
    cases f' with
    | list => exact KnownList.fillings xs h
    | _ => exact .nil
  | .bind k t, _, f', h => by
    cases f' with
    | bind _ t' =>
      have ih : KnownFillings _ (t.fillings t') := Tele.Known.fillings t h
      rw [Form.fillings]
      split
      · exact KnownFillings.delayed_iff.mpr ih
      · exact ih
    | _ => exact .nil

theorem Tele.Known.fillings {k l : Binder} : ∀ (t : Tele .written k) {S : Vocabulary}
    {t' : Tele .checked l}, t'.Known S → KnownFillings S (t.fillings t')
  | .fields, _, t', _ => by cases t' <;> exact .nil
  | .returns _ ret, _, t', h => by
    cases t' with
    | returns => exact Term.Known.fillings ret h
    | _ => exact .nil
  | .runs _ ret body, _, t', h => by
    cases t' with
    | runs => exact .append (Term.Known.fillings ret h.1) (KnownBody.fillings body h.2)
    | _ => exact .nil
  | .arg _ _ ty _ rest, _, t', h => by
    cases t' with
    | arg =>
      exact .append (Term.Known.fillings ty h.1)
        (KnownFillings.under_iff.mpr (Tele.Known.fillings rest h.2.2))
    | _ => exact .nil

theorem Stmt.Known.fillings : ∀ (s : Stmt .written) {S : Vocabulary} {s' : Stmt .checked},
    s'.Known S → KnownFillings S (s.fillings s')
  | .call _ x, _, s', h => by
    cases s' with
    | call => exact Term.Known.fillings x h
    | _ => exact .nil
  | .ret _ x, _, s', h => by
    cases s' with
    | ret => exact Term.Known.fillings x h
    | _ => exact .nil
  | .impossibleBy _ x, _, s', h => by
    cases s' with
    | impossibleBy => exact Term.Known.fillings x h
    | _ => exact .nil
  | .ifThen _ cond yes, _, s', h => by
    cases s' with
    | ifThen => exact .append (Term.Known.fillings cond h.1) (KnownBody.fillings yes h.2)
    | _ => exact .nil
  | .ifElse _ cond yes no, _, s', h => by
    cases s' with
    | ifElse =>
      exact .append (.append (Term.Known.fillings cond h.1) (KnownBody.fillings yes h.2.1))
        (KnownBody.fillings no h.2.2)
    | _ => exact .nil
  | .retUnit _, _, s', _ | .impossible _, _, s', _ => by cases s' <;> exact .nil

theorem KnownList.fillings : ∀ (xs : List Written) {S : Vocabulary} {xs' : List Checked},
    KnownList S xs' → KnownFillings S (fillingsList xs xs')
  | [], _, _, _ => .nil
  | _ :: _, _, [], _ => .nil
  | x :: xs, S, x' :: xs', h => by
    have ih : KnownFillings S (x.fillings x') := Term.Known.fillings x h.1
    refine .append ?_ (KnownList.fillings xs h.2)
    split
    · intro fill hfill
      cases List.mem_singleton.mp hfill
      exact h.1
    · exact ih

theorem KnownBody.fillings : ∀ (b : List (Stmt .written)) {S : Vocabulary}
    {b' : List (Stmt .checked)}, KnownBody S b' → KnownFillings S (fillingsBody b b')
  | [], _, _, _ => .nil
  | _ :: _, _, [], _ => .nil
  | s :: b, _, _ :: _, h => .append (Stmt.Known.fillings s h.1) (KnownBody.fillings b h.2)

end

/-! ## Contexts and environments -/

/-- A variable is in scope. -/
def Context.Declares (ctx : Context) (y : Var) : Prop :=
  ∃ d, ctx.lookup? y = some d

/-- The types of the variables in scope mention only variables that are in scope. -/
def Context.IsScoped (ctx : Context) : Prop :=
  ∀ v origin qty ty, ctx.lookup? v = some ⟨origin, .term qty ty⟩ →
    ∀ y, ty.occursFree y → ctx.Declares y

theorem Context.IsScoped.within {ctx : Context} (h : ctx.IsScoped) :
    ctx.Within (.ofVars ctx.Declares) := by
  refine ⟨fun v d hv => ⟨d, hv⟩, fun v d hv => ?_⟩
  obtain ⟨origin, meaning⟩ := d
  cases meaning with
  | type => trivial
  | term qty ty => exact Term.known_ofVars_iff.mpr (h v origin qty ty hv)

/-- The types in the interfaces of globals mention no variables but those that they bind. -/
def Env.IsClosed (env : Env) : Prop :=
  env.InterfaceKnown (.ofVars fun _ => False)

theorem Env.IsClosed.interfaceKnown {env : Env} (h : env.IsClosed) (V : Var → Prop) :
    env.InterfaceKnown (.ofVars V) :=
  h.mono ⟨fun _ => False.elim, fun _ _ => trivial⟩

/-- In a closed environment, items without placeholders in their interfaces are checked to closed
ones. -/
theorem establishes_closed (fuel : Nat) :
    Establishes fuel (fun item => Explicit item.interface.nodes)
      (fun item => item.interface.Known (.ofVars fun _ => False)) := by
  intro env loc item item' henv hexplicit h
  have hclosed : env.IsClosed := fun g e hget => henv.of_get? hget
  have hempty (m : Mutability) : (Context.newScopeOf {} m).Within (.ofVars fun _ => False) :=
    ⟨nofun, nofun⟩
  -- every interface is a telescope that is checked in a context without variables
  have htele {k ctx} {t : Tele .written k} {t' : Tele .checked k}
      (h : Tele.Accepts fuel env ctx t t') (hctx : ctx.Within (.ofVars fun _ => False))
      (ht : Explicit t.nodes) : t'.Known (.ofVars fun _ => False) := by
    refine h.known_of_fillings ?_ hclosed hctx (Tele.known_ofVars_iff.mpr fun _ _ => trivial)
    rw [Tele.fillings_of_explicit t' ht]
    exact .nil
  cases Item.accepts_of_checkItem h with
  | integer => trivial
  | struct hfs => exact htele hfs ⟨nofun, nofun⟩ hexplicit
  | declared hs | external hs => exact htele hs (hempty _) hexplicit
  | defined hf => exact htele hf.bare (hempty _) hexplicit

/-- What is built from entries without placeholders in their interfaces is closed. -/
theorem Env.Built.isClosed {env : Env} (h : env.Built fun item => Explicit item.interface.nodes) :
    env.IsClosed := by
  have hall := h.all establishes_closed fun f hf => hf
  exact fun g e hget => hall.of_get? hget

/-! ## Well-scoped terms -/

/-- In an environment that is built from entries without placeholders in their interfaces, let a
term be accepted in a context and a mode that mention only variables in scope. Then all free
variables of the checked term and its sorts are in scope, if and only if those of the values found
for placeholders are in scope where the values are put. -/
theorem scoped_iff_fillings_scoped {env : Env}
    (henv : env.Built fun item => Explicit item.interface.nodes) {ctx : Context}
    (hctx : ctx.IsScoped) {mode : Mode}
    (hmode : ∀ ty, mode.expected? = some ty → ∀ y, ty.occursFree y → ctx.Declares y)
    {fuel : Nat} {e : Written} {t : Checked} (h : e.elaborate fuel env ctx mode = .ok t) :
    (∀ y, t.occursFree y → ctx.Declares y) ↔
      ∀ fill ∈ e.fillings t, ∀ y, fill.value.occursFree y →
        some y ∈ fill.bound ∨ ctx.Declares y := by
  have hfillings : KnownFillings (.ofVars ctx.Declares) (e.fillings t) ↔
      ∀ fill ∈ e.fillings t, ∀ y, fill.value.occursFree y →
        some y ∈ fill.bound ∨ ctx.Declares y :=
    forall₂_congr fun _ _ => Filling.known_ofVars_iff
  rw [← Term.known_ofVars_iff, ← hfillings]
  refine ⟨Term.Known.fillings e, fun hfill => ?_⟩
  refine (Term.accepts_of_elaborate e h).known_of_fillings hfill
    (henv.isClosed.interfaceKnown ctx.Declares) hctx.within ?_ ?_
  · exact fun ty hty => Term.known_ofVars_iff.mpr (hmode ty hty)
  · exact Term.known_ofVars_iff.mpr fun _ _ => trivial

/-- The declaration `extern sum: (u64 n, array_t(u64, n) xs) -> u64;`. -/
def sumEntry : Entry .written :=
  let at0 (form : Form .written) : Written := .mk (.place {} rfl) form
  let u64 := at0 (.atom (.int ⟨.unsigned, .w64⟩))
  let n : Var := { name := "n" }
  ⟨{}, "sum", .external (.arg {} .many u64 (some n) (.arg {} .many
    (at0 (.binary .arrayT u64 (at0 (.var n)))) (some { name := "xs" }) (.returns .no u64)))⟩

/-- Where `k` is a number and `ys` an array of `k` numbers, `sum(auto, ys)` is checked to
`sum(k, ys)`, and `k` and `ys` are in scope. -/
theorem scoped_of_sum_placeholder :
    let at0 (form : Form .written) : Written := .mk (.place {} rfl) form
    let k : Var := { name := "k" }
    let ys : Var := { name := "ys" }
    let size : Checked := Checked.term Checked.u64 (.var k)
    let array : Checked := Checked.type (.binary .arrayT Checked.u64 size)
    let ctx : Context :=
      { inner := ⟨[(ys, ⟨none, .term .many array⟩), (k, ⟨none, .term .many Checked.u64⟩)], []⟩ }
    let e := at0 (.app (at0 (.atom (.global { name := "sum" }))) [at0 (.atom .auto), at0 (.var ys)])
    ∃ outcome env f t, (checkEntry 20 sumEntry).run.run {} = (outcome, env) ∧
      e.elaborate 20 env ctx .assign = .ok t ∧
      t.form = .app f [size, Checked.term array (.var ys)] ∧
      ∀ y, t.occursFree y → ctx.Declares y := by
  intro at0 k ys size array ctx e
  let env := ((checkEntry 20 sumEntry).run.run {}).2
  let sum : Checked := Checked.term (Checked.pi (.arg () .many Checked.u64 (some { name := "n" })
    (.arg () .many (Checked.type (.binary .arrayT Checked.u64 (Checked.term Checked.u64
      (.var { name := "n" })))) (some { name := "xs" }) (.returns .no Checked.u64))))
    (.atom (.global { name := "sum" }))
  let t : Checked :=
    Checked.term Checked.u64 (.app sum [size, Checked.term array (.var ys)])
  have hentry : Explicit sumEntry.item.interface.nodes := by
    unfold Explicit
    decide
  have hrun : (checkEntry 20 sumEntry).run.run {} = (_, env) := rfl
  have hsize {y : Var} (hy : size.occursFree y) : ctx.Declares y := by
    have hk : k = y := of_decide_eq_true hy
    rw [← hk]
    exact ⟨_, rfl⟩
  have hctx : ctx.IsScoped := by
    intro v origin qty ty hv y hy
    rw [show ctx = (Context.withDecl {} k _).withDecl ys _ from rfl, Context.lookup?_withDecl,
      Context.lookup?_withDecl] at hv
    split at hv
    · cases hv
      exact hsize hy
    · split at hv
      · cases hv
        cases hy
      · cases hv
  have ht : e.elaborate 20 env ctx .assign = .ok t := by decide +kernel +zetaReduce
  refine ⟨_, env, sum, t, hrun, ht, rfl, ?_⟩
  refine (scoped_iff_fillings_scoped (.check (.empty rfl) hentry hrun) hctx ?_ ht).mpr ?_
  · rintro ty ⟨⟩
  · intro fill hfill y hy
    obtain rfl : fill = ⟨[], true, size⟩ := List.mem_singleton.mp hfill
    exact .inr (hsize hy)

/-- Under the declarations `extern g: (u64 y) -> array_t(u64, y);` and
`extern f: (u64 n, (u64 n) -> array_t(u64, n) h) -> u64;`, the term `f(auto, g)` is checked to
`f(y, g)` where nothing is declared: `y` is bound in the type of `g` only. -/
theorem placeholder_escapes_scope :
    let at0 (form : Form .written) : Written := .mk (.place {} rfl) form
    let u64 := at0 (.atom (.int ⟨.unsigned, .w64⟩))
    let vector (name : String) : Signature .written :=
      .arg {} .many u64 (some { name })
        (.returns .no (at0 (.binary .arrayT u64 (at0 (.var { name })))))
    let entries : List (Entry .written) :=
      [⟨{}, "g", .external (vector "y")⟩,
        ⟨{}, "f", .external (.arg {} .many u64 (some { name := "n" }) (.arg {} .many
          (at0 (.bind .pi (vector "n"))) (some { name := "h" }) (.returns .no u64)))⟩]
    let e := at0 (.app (at0 (.atom (.global { name := "f" })))
      [at0 (.atom .auto), at0 (.atom (.global { name := "g" }))])
    let y : Checked := Checked.term Checked.u64 (.var { name := "y" })
    ∃ outcome env f g t, (checkUnit 20 entries).run.run {} = (.ok outcome, env) ∧
      e.elaborate 20 env {} .assign = .ok t ∧ t.form = .app f [y, g] ∧
      t.occursFree { name := "y" } ∧ ¬({} : Context).Declares { name := "y" } := by
  intro at0 u64 vector entries e y
  let checkedVector (name : String) : Signature .checked :=
    .arg () .many Checked.u64 (some { name }) (.returns .no (Checked.type
      (.binary .arrayT Checked.u64 (Checked.term Checked.u64 (.var { name })))))
  let f : Checked := Checked.term (Checked.pi (.arg () .many Checked.u64 (some { name := "n" })
    (.arg () .many (Checked.pi (checkedVector "n")) (some { name := "h" })
      (.returns .no Checked.u64)))) (.atom (.global { name := "f" }))
  let g : Checked := Checked.term (Checked.pi (checkedVector "y")) (.atom (.global { name := "g" }))
  let env := ((checkUnit 20 entries).run.run {}).2
  have ht : e.elaborate 20 env {} .assign = .ok (Checked.term Checked.u64 (.app f [y, g])) := by
    decide +kernel +zetaReduce
  refine ⟨_, env, f, g, _, rfl, ht, rfl, rfl, ?_⟩
  rintro ⟨_, ⟨⟩⟩

end DependentCore
