import DependentCore.Proofs.Binding.FreeVariables
import DependentCore.Proofs.Semantics.Evaluation
import DependentCore.Proofs.Semantics.FirstOrder
import DependentCore.Reduction.Beta

/-!
# Evaluation, renaming and substitution

First-order code has no binders in the places that are evaluated, so that renaming and substitution
act on values alone.

* `Gives.rename`: renamed code gives the same result if the new variable has the value of the old,
* `Gives.subst`: a term may be put for a variable that has its value,
* `Tele.gives_supply`: a function that is supplied with arguments gives the result that it has at
  their values.

Evaluation depends on the sort of a node in two places: arithmetic wraps around at it, and a list
takes the names of its elements from it. Neither is changed by renaming or substitution.
-/

namespace DependentCore

variable {p : Phase} {env : Env}

/-! ## Types -/

@[simp]
theorem Tele.names_arg {k : Binder} (mark : Mark p) (qty : Quantity) (ty : Term p) (v : Option Var)
    (rest : Tele p k) : (Tele.arg mark qty ty v rest).names = v.map (·.name) :: rest.names :=
  rfl

/-- Renaming keeps the variables of arguments. -/
theorem Tele.names_rename {k : Binder} (x z : Var) (t : Tele p k) :
    (t.rename x z).names = t.names := by
  induction k, t using Tele.args_induction with
  | fields | returns | runs => rfl
  | arg _ _ _ _ v rest ih =>
    rw [Tele.rename, Tele.names_arg, Tele.names_arg]
    split
    · rfl
    · rw [ih]

/-- Whatever is put for a variable, arguments keep their names, though their indices may change. -/
theorem Tele.names_replace [c : Indexing] {k : Binder} (x : Var) (w : Image p) : ∀ t : Tele p k,
    (t.replace x w).names = t.names
  | .arg _ _ _ (some v) rest => by
    rw [Tele.replace_arg_some]
    split
    · rfl
    · split
      · -- the scope of a renamed argument has a variable put for a variable first
        rw [Tele.names_arg, Tele.names_arg, Tele.names_replace x w (rest.refresh v w.maxIndex).2,
          Tele.refresh, Tele.names_replace v _ rest]
        rfl
      · rw [Tele.names_arg, Tele.names_arg, Tele.names_replace x w rest]
  | .arg _ _ _ none rest => by
    rw [Tele.replace_arg_none, Tele.names_arg, Tele.names_arg, Tele.names_replace x w rest]
  | .fields | .returns _ _ | .runs _ _ _ => rfl
termination_by t => t.size
decreasing_by all_goals simp only [Tele.size, Tele.size_refresh]; omega

theorem Tele.names_subst [c : Indexing] {k : Binder} (x : Var) (r : Term p) (t : Tele p k) :
    (t.subst x r).names = t.names :=
  Tele.names_replace x (.term r) t

theorem Tele.arity_eq_length_names {k : Binder} (t : Tele p k) : t.arity = t.names.length := by
  induction k, t using Tele.args_induction with
  | fields | returns | runs => rfl
  | arg _ _ _ _ _ rest ih => rw [Tele.names_arg, Tele.arity, List.length_cons, ih]

theorem Tele.arity_instantiate [c : Indexing] {k : Binder} (t : Tele p k) (v : Option Var)
    (r : Term p) : (t.instantiate v r).arity = t.arity := by
  cases v with
  | none => rfl
  | some x =>
    rw [Tele.arity_eq_length_names, Tele.arity_eq_length_names, Tele.instantiate, Tele.names_subst]

theorem Note.sort?_rename {x z : Var} {note : Note p (Term p)} {ty : Term p}
    (h : note.sort? = some ty) : (note.rename x z).sort? = some (ty.rename x z) := by
  cases note with
  | sort _ _ => cases h; rfl
  | _ => cases h

theorem Note.sort?_subst {x : Var} {r : Term p} {note : Note p (Term p)} {ty : Term p}
    (h : note.sort? = some ty) : (note.map (·.subst x r)).sort? = some (ty.subst x r) := by
  cases note with
  | sort _ _ => cases h; rfl
  | _ => cases h

theorem Env.intType?_rename (env : Env) (x z : Var) : ∀ ty : Checked,
    env.intType? (ty.rename x z) = env.intType? ty
  | .mk _ (.atom _) | .mk _ (.var _) | .mk _ (.unary _ _) | .mk _ (.binary _ _ _)
  | .mk _ (.app _ _) | .mk _ (.list _) | .mk _ (.bind _ _) => rfl

theorem Env.layout?_rename (env : Env) (x z : Var) : ∀ ty : Checked,
    env.layout? (ty.rename x z) = env.layout? ty
  | .mk _ (.bind .sigma fs) => congrArg some (Tele.names_rename x z fs)
  | .mk _ (.atom _) | .mk _ (.var _) | .mk _ (.app _ _) | .mk _ (.list _) | .mk _ (.bind .pi _)
  | .mk _ (.bind .abs _) => rfl
  | .mk _ (.unary op _) => by cases op <;> rfl
  | .mk _ (.binary op _ _) => by cases op <;> rfl

/-- A type that is substituted in stays the integer type that it is. -/
theorem Env.intType?_subst {x : Var} {r ty : Checked} {t : IntType}
    (h : env.intType? ty = some t) : env.intType? (ty.subst x r) = some t := by
  obtain ⟨note, form⟩ := ty
  cases form with
  | atom a =>
    rw [Term.subst_atom]
    exact h
  | _ => cases h

/-- A type that is substituted in keeps the names of its fields. -/
theorem Env.layout?_subst {x : Var} {r ty : Checked} {names : List (Option String)}
    (h : env.layout? ty = some names) : env.layout? (ty.subst x r) = some names := by
  obtain ⟨note, form⟩ := ty
  cases form with
  | atom a =>
    rw [Term.subst_atom]
    exact h
  | unary op a =>
    rw [Term.subst_unary]
    cases op with
    | trueT => exact h
    | _ => cases h
  | binary op a b =>
    rw [Term.subst_binary]
    cases op with
    | arrayT => exact h
    | _ => cases h
  | bind k t =>
    rw [Term.subst_bind]
    cases k with
    | sigma =>
      cases h
      exact congrArg some (Tele.names_subst x r t)
    | _ => cases h
  | _ => cases h

/-! ## Renaming -/

/-- Whether the code is first-order. -/
def Code.isFirstOrder : Code → Bool
  | .term t | .call t _ => t.isFirstOrder
  | .list ts => isFirstOrderList ts
  | .stmt s => s.isFirstOrder
  | .body b => isFirstOrderBody b

/-- Put `z` for every free occurrence of `x`. -/
def Code.rename (x z : Var) : Code → Code
  | .term t => .term (t.rename x z)
  | .list ts => .list (renameList x z ts)
  | .call f ws => .call (f.rename x z) ws
  | .stmt s => .stmt (s.rename x z)
  | .body b => .body (renameBody x z b)

/-- Renamed first-order code gives the same result if the new variable has the value of the old. -/
theorem Gives.rename {x z : Var} {ρ : Valuation} {c : Code} {r : Result} (h : Gives env ρ c r) :
    ∀ {σ : Valuation}, c.isFirstOrder →
      Valuation.Along (fun y => if y = x then z else y) c.maxIndex ρ σ →
      Gives env σ (c.rename x z) r := by
  induction h with
  | lit => intros; exact .lit
  | num => intros; exact .num
  | str => intros; exact .str
  | var hv =>
    intro σ _ hσ
    exact .var (hσ _ _ (Nat.le_max_right _ _) hv)
  | not _ ih =>
    intro σ hfo hσ
    exact .not (ih hfo hσ.right)
  | member _ hi hw ih =>
    intro σ hfo hσ
    exact .member (ih hfo hσ.right) hi hw
  | subscript _ _ hi hw ihx ihy =>
    intro σ hfo hσ
    obtain ⟨hx, hy⟩ := Bool.and_eq_true_iff.mp hfo
    exact .subscript (ihx hx hσ.right.left) (ihy hy hσ.right.right) hi hw
  | because _ ih =>
    intro σ hfo hσ
    exact .because (ih (Bool.and_eq_true_iff.mp hfo).1 hσ.right.left)
  | logic _ _ hc ihx ihy =>
    intro σ hfo hσ
    obtain ⟨hx, hy⟩ := Bool.and_eq_true_iff.mp hfo
    exact .logic (ihx hx hσ.right.left) (ihy hy hσ.right.right) hc
  | compareInt _ _ hc ihx ihy =>
    intro σ hfo hσ
    obtain ⟨hx, hy⟩ := Bool.and_eq_true_iff.mp hfo
    exact .compareInt (ihx hx hσ.right.left) (ihy hy hσ.right.right) hc
  | compareBool _ _ hc ihx ihy =>
    intro σ hfo hσ
    obtain ⟨hx, hy⟩ := Bool.and_eq_true_iff.mp hfo
    exact .compareBool (ihx hx hσ.right.left) (ihy hy hσ.right.right) hc
  | arith _ _ hty ht hn hm ihx ihy =>
    intro σ hfo hσ
    obtain ⟨hx, hy⟩ := Bool.and_eq_true_iff.mp hfo
    exact .arith (ihx hx hσ.right.left) (ihy hy hσ.right.right) (Note.sort?_rename hty)
      ((env.intType?_rename x z _).trans ht) hn hm
  | listOf hty hnames _ ih =>
    intro σ hfo hσ
    exact .listOf (Note.sort?_rename hty) ((env.layout?_rename x z _).trans hnames)
      (ih hfo hσ.right)
  | app _ _ ihargs ihf =>
    intro σ hfo hσ
    obtain ⟨hf, hargs⟩ := Bool.and_eq_true_iff.mp hfo
    exact .app (ihargs hargs hσ.right.right) (ihf hf hσ.right.left)
  | nil => intros; exact .nil
  | cons _ _ ihx ihxs =>
    intro σ hfo hσ
    obtain ⟨hx, hxs⟩ := Bool.and_eq_true_iff.mp hfo
    exact .cons (ihx hx hσ.left) (ihxs hxs hσ.right)
  | global hf henter hbody _ =>
    intros
    exact .global hf henter hbody
  | abs _ _ _ =>
    intro σ hfo
    cases hfo
  | stmtCall _ ih =>
    intro σ hfo hσ
    exact .stmtCall (ih hfo hσ)
  | ifThen _ _ ihcond ihyes =>
    intro σ hfo hσ
    obtain ⟨hcond, hyes⟩ := Bool.and_eq_true_iff.mp hfo
    exact .ifThen (ihcond hcond hσ.left) (ihyes hyes hσ.right)
  | skip _ ihcond =>
    intro σ hfo hσ
    exact .skip (ihcond (Bool.and_eq_true_iff.mp hfo).1 hσ.left)
  | ifElse b _ _ ihcond ihbranch =>
    intro σ hfo hσ
    obtain ⟨hfo, hno⟩ := Bool.and_eq_true_iff.mp hfo
    obtain ⟨hcond, hyes⟩ := Bool.and_eq_true_iff.mp hfo
    refine .ifElse b (ihcond hcond hσ.left) ?_
    cases b with
    | true => exact ihbranch hyes hσ.right.left
    | false => exact ihbranch hno hσ.right.right
  | ret _ ih =>
    intro σ hfo hσ
    exact .ret (ih hfo hσ)
  | retUnit => intros; exact .retUnit
  | bodyNil => intros; exact .bodyNil
  | stop _ ih =>
    intro σ hfo hσ
    exact .stop (ih (Bool.and_eq_true_iff.mp hfo).1 hσ.left)
  | next _ _ ihs ihrest =>
    intro σ hfo hσ
    obtain ⟨hs, hrest⟩ := Bool.and_eq_true_iff.mp hfo
    exact .next (ihs hs hσ.left) (ihrest hrest hσ.right)

/-! ## Substitution -/

/-- Put `r` for every free occurrence of `x`. -/
def Code.subst (x : Var) (r : Checked) : Code → Code
  | .term t => .term (t.subst x r)
  | .list ts => .list (ts.map (·.subst x r))
  | .call f ws => .call (f.subst x r) ws
  | .stmt s => .stmt (s.subst x r)
  | .body b => .body (b.map (·.subst x r))

/-- In first-order code, a term may be put for a variable that has its value. -/
theorem Gives.subst {x : Var} {a : Checked} {σ ρ : Valuation} {c : Code} {r : Result}
    (h : Gives env ρ c r) : c.isFirstOrder →
      (∀ w, ρ x = some w → a.Evaluates env σ w) →
      (∀ y w, y ≠ x → ρ y = some w → σ y = some w) → Gives env σ (c.subst x a) r := by
  induction h with
  | lit => intros; rw [Code.subst, Term.subst_atom]; exact .lit
  | num => intros; rw [Code.subst, Term.subst_atom]; exact .num
  | str => intros; rw [Code.subst, Term.subst_atom]; exact .str
  | var hv =>
    intro _ ha hσ
    rw [Code.subst, Term.subst_var]
    split
    · next heq => exact ha _ (heq ▸ hv)
    · next hne => exact .var (hσ _ _ hne hv)
  | not _ ih =>
    intro hfo ha hσ
    rw [Code.subst, Term.subst_unary]
    exact .not (ih hfo ha hσ)
  | member _ hi hw ih =>
    intro hfo ha hσ
    rw [Code.subst, Term.subst_unary]
    exact .member (ih hfo ha hσ) hi hw
  | subscript _ _ hi hw ihx ihy =>
    intro hfo ha hσ
    obtain ⟨hx, hy⟩ := Bool.and_eq_true_iff.mp hfo
    rw [Code.subst, Term.subst_binary]
    exact .subscript (ihx hx ha hσ) (ihy hy ha hσ) hi hw
  | because _ ih =>
    intro hfo ha hσ
    rw [Code.subst, Term.subst_binary]
    exact .because (ih (Bool.and_eq_true_iff.mp hfo).1 ha hσ)
  | logic _ _ hc ihx ihy =>
    intro hfo ha hσ
    obtain ⟨hx, hy⟩ := Bool.and_eq_true_iff.mp hfo
    rw [Code.subst, Term.subst_binary]
    exact .logic (ihx hx ha hσ) (ihy hy ha hσ) hc
  | compareInt _ _ hc ihx ihy =>
    intro hfo ha hσ
    obtain ⟨hx, hy⟩ := Bool.and_eq_true_iff.mp hfo
    rw [Code.subst, Term.subst_binary]
    exact .compareInt (ihx hx ha hσ) (ihy hy ha hσ) hc
  | compareBool _ _ hc ihx ihy =>
    intro hfo ha hσ
    obtain ⟨hx, hy⟩ := Bool.and_eq_true_iff.mp hfo
    rw [Code.subst, Term.subst_binary]
    exact .compareBool (ihx hx ha hσ) (ihy hy ha hσ) hc
  | arith _ _ hty ht hn hm ihx ihy =>
    intro hfo ha hσ
    obtain ⟨hx, hy⟩ := Bool.and_eq_true_iff.mp hfo
    rw [Code.subst, Term.subst_binary]
    exact .arith (ihx hx ha hσ) (ihy hy ha hσ) (Note.sort?_subst hty) (Env.intType?_subst ht) hn hm
  | listOf hty hnames _ ih =>
    intro hfo ha hσ
    rw [Code.subst, Term.subst_list]
    exact .listOf (Note.sort?_subst hty) (Env.layout?_subst hnames) (ih hfo ha hσ)
  | app _ _ ihargs ihf =>
    intro hfo ha hσ
    obtain ⟨hf, hargs⟩ := Bool.and_eq_true_iff.mp hfo
    rw [Code.subst, Term.subst_app]
    exact .app (ihargs hargs ha hσ) (ihf hf ha hσ)
  | nil => intros; exact .nil
  | cons _ _ ihx ihxs =>
    intro hfo ha hσ
    obtain ⟨hx, hxs⟩ := Bool.and_eq_true_iff.mp hfo
    exact .cons (ihx hx ha hσ) (ihxs hxs ha hσ)
  | global hf henter hbody _ =>
    intros
    rw [Code.subst, Term.subst_atom]
    exact .global hf henter hbody
  | abs _ _ _ =>
    intro hfo
    cases hfo
  | stmtCall _ ih =>
    intro hfo ha hσ
    exact .stmtCall (ih hfo ha hσ)
  | ifThen _ _ ihcond ihyes =>
    intro hfo ha hσ
    obtain ⟨hcond, hyes⟩ := Bool.and_eq_true_iff.mp hfo
    rw [Code.subst, Stmt.subst_ifThen]
    exact .ifThen (ihcond hcond ha hσ) (ihyes hyes ha hσ)
  | skip _ ihcond =>
    intro hfo ha hσ
    rw [Code.subst, Stmt.subst_ifThen]
    exact .skip (ihcond (Bool.and_eq_true_iff.mp hfo).1 ha hσ)
  | ifElse b _ _ ihcond ihbranch =>
    intro hfo ha hσ
    obtain ⟨hfo, hno⟩ := Bool.and_eq_true_iff.mp hfo
    obtain ⟨hcond, hyes⟩ := Bool.and_eq_true_iff.mp hfo
    rw [Code.subst, Stmt.subst_ifElse]
    refine .ifElse b (ihcond hcond ha hσ) ?_
    cases b with
    | true => exact ihbranch hyes ha hσ
    | false => exact ihbranch hno ha hσ
  | ret _ ih =>
    intro hfo ha hσ
    exact .ret (ih hfo ha hσ)
  | retUnit => intros; exact .retUnit
  | bodyNil => intros; exact .bodyNil
  | stop _ ih =>
    intro hfo ha hσ
    exact .stop (ih (Bool.and_eq_true_iff.mp hfo).1 ha hσ)
  | next _ _ ihs ihrest =>
    intro hfo ha hσ
    obtain ⟨hs, hrest⟩ := Bool.and_eq_true_iff.mp hfo
    exact .next (ihs hs ha hσ) (ihrest hrest ha hσ)

/-! ## Supplying arguments -/

/-- The variables that a telescope binds. -/
def Tele.binders {k : Binder} : Tele p k → List Var
  | .fields | .returns _ _ | .runs _ _ _ => []
  | .arg _ _ _ v rest => v.toList ++ rest.binders

/-- A function whose argument is renamed to a new variable gives the same result. -/
theorem Tele.gives_rename {k : Binder} {x z : Var} {o : Option Value} :
    ∀ {t : Tele .checked k} {ws : List Value} {ρ σ ρ' : Valuation} {b : Body .checked},
    t.isFirstOrder → t.maxIndex < z.index →
    Valuation.Along (fun y => if y = x then z else y) t.maxIndex ρ σ →
    t.enter? ρ ws = some (ρ', b) → Gives env ρ' (.body b) (.ending o) →
    ∃ σ' b', (t.rename x z).enter? σ ws = some (σ', b') ∧ Gives env σ' (.body b') (.ending o)
  | .runs _ _ body, [], _, σ, _, _, hfo, _, hσ, henter, hbody => by
    cases henter
    exact ⟨σ, renameBody x z body, rfl, hbody.rename hfo hσ.right⟩
  | .arg mark qty ty v rest, w :: ws, ρ, σ, _, _, hfo, hz, hσ, henter, hbody => by
    have hrest := Tele.maxIndex_rest_le mark qty ty v rest
    by_cases hv : v = some x
    · -- the argument binds `x` again, so that the rest is not renamed
      subst hv
      have hwithin : Valuation.Within rest.maxIndex (ρ.bind (some x) w) (σ.bind (some x) w) := by
        intro y u hy hu
        unfold Valuation.bind at hu ⊢
        by_cases hyx : x = y
        · subst hyx
          simpa using hu
        · have hσy := hσ y u (Nat.le_trans hy hrest)
          simp only [Option.some.injEq, hyx, if_false] at hu
          simp only [Ne.symm hyx, if_false] at hσy
          simpa [hyx] using hσy hu
      obtain ⟨σ', henter', hσ', hb⟩ :=
        Tele.enter?_within (t := rest) henter (Nat.le_refl _) hwithin
      refine ⟨σ', _, ?_, hbody.within (hσ'.mono hb)⟩
      rw [Tele.rename, if_pos rfl]
      exact henter'
    · rw [Tele.rename, if_neg hv]
      refine Tele.gives_rename (t := rest) hfo (Nat.lt_of_le_of_lt hrest hz)
        (Valuation.Along.bind (hσ.mono hrest) w fun y hy => ?_) henter hbody
      by_cases hyx : y = x
      · -- neither the old nor the new variable is the argument
        subst hyx
        have hvz : v ≠ some z := by
          rintro rfl
          simp only [Tele.maxIndex] at hz
          omega
        simp [hv, hvz]
      · simp [hyx]

/-- The body of a telescope gives `o` whatever values the variables have that the telescope binds,
where all others have the values of `ρ`. -/
def Tele.Determines {k : Binder} (env : Env) (t : Tele .checked k) (ρ : Valuation)
    (o : Option Value) : Prop :=
  ∀ σ : Valuation, (∀ y, y ∉ t.binders → σ y = ρ y) →
    ∃ b, t.body? = some b ∧ Gives env σ (.body b) (.ending o)

/-- A substitution keeps the variables of arguments if their indices are too large for the term to
contain them. -/
theorem Tele.binders_subst {k : Binder} {x : Var} {a : Term p} : ∀ {t : Tele p k},
    (∀ u ∈ t.binders, a.maxIndex < u.index) → (t.subst x a).binders = t.binders
  | .fields, _ | .returns _ _, _ => rfl
  | .runs _ _ _, _ => by rw [Tele.subst_runs]; rfl
  | .arg _ _ _ none rest, h => by
    rw [Tele.subst_arg_none]
    exact Tele.binders_subst (t := rest) h
  | .arg _ _ _ (some v) rest, h => by
    have hv : ¬a.occursFree v := fun hfree =>
      Nat.lt_irrefl _ (Nat.lt_of_lt_of_le (h v List.mem_cons_self) (a.index_le_maxIndex hfree))
    rw [Tele.subst_arg_some, if_neg hv]
    split
    · rfl
    · exact congrArg (v :: ·)
        (Tele.binders_subst (t := rest) fun u hu => h u (List.mem_cons_of_mem _ hu))

/-- A term that evaluates to the value of `x` may be put for `x`, which then is as good as bound.
Nothing is renamed on the way, as the variables bound have larger indices than the term; but one of
them may be `x`, where the substitution ends. -/
theorem Tele.Determines.subst {k : Binder} {x : Var} {a : Checked} {w : Value} {o : Option Value}
    (hx : a.maxIndex < x.index) : ∀ {t : Tele .checked k} {ρ : Valuation}, t.isFirstOrder →
    (∀ u ∈ t.binders, a.maxIndex < u.index) → a.Evaluates env ρ w →
    t.Determines env (ρ.bind (some x) w) o → ∀ σ : Valuation,
    (∀ y, y ∉ t.binders → y ≠ x → σ y = ρ y) →
    ∃ b, (t.subst x a).body? = some b ∧ Gives env σ (.body b) (.ending o)
  | .fields, _, _, _, _, h, σ, _ => by
    obtain ⟨b, hb, -⟩ := h _ fun _ _ => rfl
    cases hb
  | .returns _ _, _, _, _, _, h, σ, _ => by
    obtain ⟨b, hb, -⟩ := h _ fun _ _ => rfl
    cases hb
  | .runs _ _ body, ρ, hfo, _, ha, h, σ, hσ => by
    obtain ⟨b, hb, hgives⟩ := h _ fun _ _ => rfl
    cases hb
    rw [Tele.subst_runs]
    have ha' : a.Evaluates env σ w := by
      refine ha.within fun y u hy hu => ?_
      have hne : y ≠ x := by
        rintro rfl
        exact Nat.lt_irrefl _ (Nat.lt_of_lt_of_le hx hy)
      exact (hσ y List.not_mem_nil hne).trans hu
    refine ⟨_, rfl, hgives.subst hfo (fun u hu => ?_) fun y u hne hu => ?_⟩
    · obtain rfl : w = u := by simpa [Valuation.bind] using hu
      exact ha'
    · rw [hσ y List.not_mem_nil hne]
      simpa [Valuation.bind, Ne.symm hne] using hu
  | .arg _ _ _ none rest, ρ, hfo, hbind, ha, h, σ, hσ => by
    rw [Tele.subst_arg_none]
    exact Tele.Determines.subst hx (t := rest) hfo hbind ha h σ hσ
  | .arg _ _ _ (some v) rest, ρ, hfo, hbind, ha, h, σ, hσ => by
    have hv : a.maxIndex < v.index := hbind v List.mem_cons_self
    have hfree : ¬a.occursFree v := fun hfree =>
      Nat.lt_irrefl _ (Nat.lt_of_lt_of_le hv (a.index_le_maxIndex hfree))
    rw [Tele.subst_arg_some, if_neg hfree]
    split
    -- the argument is `x`, so that the substitution ends and `σ` may give `x` any value
    · next hvx =>
      refine h σ fun y hy => ?_
      have hne : y ≠ x := by
        rintro rfl
        exact hy (hvx ▸ List.mem_cons_self)
      rw [hσ y hy hne, Valuation.bind, if_neg (by simpa using Ne.symm hne)]
    · next hvx =>
      -- the rest is read in a valuation in which the argument has the value it has in `σ`
      let ρ' : Valuation := fun y => if y = v then σ y else ρ y
      refine Tele.Determines.subst hx (t := rest) (ρ := ρ') (w := w) hfo
        (fun u hu => hbind u (List.mem_cons_of_mem _ hu)) ?_ (fun τ hτ => ?_) σ fun y hy hne => ?_
      · refine ha.within fun y u hy hu => ?_
        have hyv : y ≠ v := by
          rintro rfl
          exact Nat.lt_irrefl _ (Nat.lt_of_lt_of_le hv hy)
        simpa [ρ', hyv] using hu
      · refine h τ fun y hy => ?_
        simp only [Tele.binders, Option.toList_some, List.cons_append, List.nil_append,
          List.mem_cons, not_or] at hy
        rw [hτ y hy.2]
        simp [Valuation.bind, ρ', hy.1]
      · by_cases hyv : y = v
        · simp [ρ', hyv]
        · simp only [ρ', hyv, if_false]
          exact hσ y (by simp [Tele.binders, hyv, hy]) hne

/-- The argument `v` that has the value `w` may be renamed to a new variable. -/
theorem Valuation.along_bind_new {v new : Var} {K : Nat} (ρ : Valuation) (hnew : K < new.index)
    (w : Value) : Along (fun y => if y = v then new else y) K (ρ.bind (some v) w)
      (ρ.bind (some new) w) := by
  intro y u hy hu
  unfold Valuation.bind at hu ⊢
  by_cases hyv : y = v
  · subst hyv
    simpa using hu
  · have hne : new ≠ y := by
      rintro rfl
      exact Nat.lt_irrefl _ (Nat.lt_of_lt_of_le hnew hy)
    simpa [hyv, Ne.symm hyv, hne] using hu

/-- A function with a first-order body may be supplied with first-order terms. -/
theorem Tele.isFirstOrder_supply {k : Binder} {floor : Nat} : ∀ {actuals : List (Term p)}
    {t : Tele p k}, t.isFirstOrder → isFirstOrderList actuals →
      (t.supply floor actuals).isFirstOrder
  | [], _, ht, _ => by
    rw [Tele.supply]
    · exact ht
    all_goals exact nofun
  | _ :: _, .fields, ht, _ | _ :: _, .returns _ _, ht, _ | _ :: _, .runs _ _ _, ht, _ => ht
  | _ :: _, .arg _ _ _ none rest, ht, h =>
    Tele.isFirstOrder_supply (t := rest) ht (Bool.and_eq_true_iff.mp h).2
  | a :: _, .arg _ _ _ (some v) rest, ht, h => by
    obtain ⟨ha, h⟩ := Bool.and_eq_true_iff.mp h
    refine Tele.isFirstOrder_subst ha _ (Tele.isFirstOrder_supply ?_ h)
    rw [Tele.refresh_eq]
    exact (Tele.isFirstOrder_rename v _ rest).trans ht

/-- A function that is supplied with arguments gives the result that it has at their values, and
its own arguments no longer matter. -/
theorem Tele.determines_supply {floor : Nat} {o : Option Value} {actuals : List Checked} :
    ∀ {f : Function .checked} {ws : List Value} {ρ ρ' : Valuation} {b : Body .checked},
    f.isFirstOrder → isFirstOrderList actuals → maxIndexList actuals ≤ floor →
    Gives env ρ (.list actuals) (.values ws) → f.enter? ρ ws = some (ρ', b) →
    Gives env ρ' (.body b) (.ending o) →
    (∀ u ∈ (f.supply floor actuals).binders, floor < u.index) ∧
      (f.supply floor actuals).Determines env ρ o := by
  induction actuals with
  | nil =>
    rintro f ws ρ ρ' b hfo - - ⟨⟩ henter hbody
    cases f with
    | arg => cases henter
    | runs m ret body =>
      cases henter
      refine ⟨nofun, fun σ hσ => ⟨_, rfl, hbody.within fun y w _ hw => ?_⟩⟩
      exact (hσ y List.not_mem_nil).trans hw
  | cons a actuals ih =>
    intro f ws ρ ρ' b hfo hfos hfloor hargs henter hbody
    obtain ⟨hafo, hfos⟩ := Bool.and_eq_true_iff.mp hfos
    have hale : a.maxIndex ≤ floor := Nat.le_trans (Nat.le_max_left _ _) hfloor
    have hasle : maxIndexList actuals ≤ floor := Nat.le_trans (Nat.le_max_right _ _) hfloor
    cases hargs with
    | @cons _ _ _ w ws ha has =>
    cases f with
    | runs m ret body => cases henter
    | arg mark qty ty v rest =>
    cases v with
    | none => exact ih (f := rest) hfo hfos hasle has henter hbody
    | some v =>
      let new := rest.fresh v floor
      have hnew : floor < new.index := Tele.floor_lt_fresh v floor rest
      have hrest : rest.maxIndex < new.index := Tele.maxIndex_lt_fresh v floor rest
      -- the argument is renamed, and the later ones are supplied
      obtain ⟨σ', b', henter', hbody'⟩ :=
        Tele.gives_rename (t := rest) hfo hrest (ρ.along_bind_new hrest w) henter hbody
      have hfo' : (rest.rename v new).isFirstOrder :=
        (Tele.isFirstOrder_rename v new rest).trans hfo
      obtain ⟨hbinders, hdet⟩ := ih (f := rest.rename v new) hfo' hfos hasle
        (has.within ((ρ.within_bind_of_lt hnew w).mono hasle)) henter' hbody'
      -- then the argument itself is substituted
      have habinders : ∀ u ∈ ((rest.rename v new).supply floor actuals).binders,
          a.maxIndex < u.index := fun u hu => Nat.lt_of_le_of_lt hale (hbinders u hu)
      have hsame := Tele.binders_subst (x := new) habinders
      rw [Tele.supply, Tele.refresh_eq]
      refine ⟨?_, fun σ hσ => ?_⟩
      · intro u hu
        rcases List.mem_cons.mp hu with rfl | hu
        · exact hnew
        · exact hbinders u (hsame ▸ hu)
      · refine hdet.subst (Nat.lt_of_le_of_lt hale hnew) (Tele.isFirstOrder_supply hfo' hfos)
          habinders ha σ fun y hy hne => ?_
        refine hσ y fun hmem => ?_
        rcases List.mem_cons.mp hmem with rfl | hmem
        · exact hne rfl
        · exact hy (hsame ▸ hmem)

/-- Without its arguments a function runs its body at once. -/
theorem Tele.enter?_dropArgs (ρ : Valuation) : ∀ f : Function .checked,
    f.dropArgs.enter? ρ [] = f.body?.map (ρ, ·)
  | .runs _ _ _ => rfl
  | .arg _ _ _ _ rest => Tele.enter?_dropArgs ρ rest

theorem Tele.isFirstOrder_dropArgs {k : Binder} (t : Tele p k) :
    t.dropArgs.isFirstOrder = t.isFirstOrder := by
  induction k, t using Tele.args_induction with
  | fields | returns | runs => rfl
  | arg _ _ _ _ _ rest ih => exact ih

theorem Tele.isFirstOrder_apply {f : Function p} {actuals : List (Term p)} (hf : f.isFirstOrder)
    (hactuals : isFirstOrderList actuals) : (f.apply actuals).isFirstOrder :=
  (Tele.isFirstOrder_dropArgs _).trans (Tele.isFirstOrder_supply hf hactuals)

/-- The function that is left when all arguments are supplied gives the result that the function
has at their values. -/
theorem Tele.gives_apply {f : Function .checked} {actuals : List Checked} {ws : List Value}
    {ρ ρ' : Valuation} {b : Body .checked} {o : Option Value} (hf : f.isFirstOrder)
    (hactuals : isFirstOrderList actuals) (hargs : Gives env ρ (.list actuals) (.values ws))
    (henter : f.enter? ρ ws = some (ρ', b)) (hbody : Gives env ρ' (.body b) (.ending o)) :
    ∃ b', (f.apply actuals).enter? ρ [] = some (ρ, b') ∧ Gives env ρ (.body b') (.ending o) := by
  obtain ⟨-, hdet⟩ := Tele.determines_supply hf hactuals (Nat.le_refl _) hargs henter hbody
  obtain ⟨b', hb', hgives⟩ := hdet ρ fun _ _ => rfl
  rw [Tele.apply, Tele.enter?_dropArgs, hb']
  exact ⟨b', rfl, hgives⟩

end DependentCore
