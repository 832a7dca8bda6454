import DependentCore.Binding.Alpha
import DependentCore.Proofs.Binding.Renaming
import DependentCore.Effect

/-!
# Outlines

The outline of a telescope are the quantities of its arguments and its mutability. Neither renaming
nor substitution changes it, so it is what one can rely on in a pi type that is attached to a term.

* `Tele.outline_subst`, `Tele.outline_of_alphaEqUnder`: outlines are kept,
* `Term.hasMutableSort_rename`, `Term.hasMutableSort_subst`: so is the mutability of a function, as
  far as it shows in its sort.
-/

namespace DependentCore

variable {p : Phase}

/-- The quantities of the arguments, and the mutability. -/
def Tele.outline {k : Binder} (t : Tele p k) : List Quantity × Mutability :=
  (t.args.map (·.qty), t.mutability)

theorem Tele.outline_arg {k : Binder} {mark : Mark p} {qty : Quantity} {ty : Term p}
    {v : Option Var} {rest : Tele p k} : (Tele.arg mark qty ty v rest).outline
      = (qty :: rest.outline.1, rest.outline.2) :=
  rfl

theorem Tele.outline_rename {k : Binder} (x y : Var) (t : Tele p k) :
    (t.rename x y).outline = t.outline := by
  induction k, t using Tele.args_induction with
  | fields | returns | runs => rfl
  | arg _ _ _ _ v rest ih =>
    rw [Tele.rename, Tele.outline_arg, Tele.outline_arg]
    split
    · rfl
    · rw [ih]

theorem Tele.outline_subst {k : Binder} (x : Var) (r : Term p) : ∀ t : Tele p k,
    (t.subst x r).outline = t.outline
  | .arg _ _ _ (some v) rest => by
    rw [Tele.subst_arg_some]
    split
    · rfl
    · split
      · rw [Tele.outline_arg, Tele.outline_subst x r (rest.refresh v r.maxIndex).2, Tele.refresh_eq,
          Tele.outline_rename, Tele.outline_arg]
      · rw [Tele.outline_arg, Tele.outline_subst x r rest, Tele.outline_arg]
  | .arg _ _ _ none rest => by
    rw [Tele.subst_arg_none, Tele.outline_arg, Tele.outline_subst x r rest, Tele.outline_arg]
  | .fields | .returns _ _ | .runs _ _ _ => rfl
termination_by t => t.size
decreasing_by all_goals simp only [Tele.size, Tele.size_refresh]; omega

theorem Tele.outline_of_alphaEqUnder {k : Binder} : ∀ {st : Paired} {t u : Tele p k},
    t.alphaEqUnder st u → t.outline = u.outline
  | _, .fields, .fields, _ => rfl
  | _, .returns _ _, .returns _ _, h => by
    simp only [Tele.alphaEqUnder, Bool.and_eq_true, decide_eq_true_eq] at h
    rw [h.1]
    rfl
  | _, .runs _ _ _, .runs _ _ _, h => by
    simp only [Tele.alphaEqUnder, Bool.and_eq_true, decide_eq_true_eq] at h
    rw [h.1.1]
    rfl
  | _, .arg _ _ _ _ rest, .arg _ _ _ _ rest', h => by
    simp only [Tele.alphaEqUnder, Bool.and_eq_true, decide_eq_true_eq] at h
    rw [Tele.outline_arg, Tele.outline_arg, h.1.1, Tele.outline_of_alphaEqUnder h.2]

/-! ## The mutability of a function -/

/-- Whether a term is the variable `x`. -/
def Term.isVariable (x : Var) : Term p → Bool
  | .mk _ (.var v) => v = x
  | _ => false

theorem Term.piSort?_rename (x y : Var) (f : Term p) :
    (f.rename x y).piSort? = f.piSort?.map (·.rename x y) := by
  obtain ⟨note, form⟩ := f
  cases note with
  | place | kind => rfl
  | sort ty =>
    obtain ⟨_, ty⟩ := ty
    cases ty with
    | bind k => cases k <;> rfl
    | _ => rfl

theorem Term.hasMutableSort_rename (x y : Var) (f : Checked) :
    (f.rename x y).hasMutableSort = f.hasMutableSort := by
  rw [Term.hasMutableSort, Term.hasMutableSort, Term.piSort?_rename]
  cases f.piSort? with
  | none => rfl
  | some s =>
    have hmut : (s.rename x y).mutability = s.mutability :=
      congrArg Prod.snd (Tele.outline_rename x y s)
    simp only [Option.map_some, hmut]

/-- All nodes but the variable itself keep what they carry, up to the substitution. -/
theorem Term.note_subst {x : Var} {r f : Term p} (hf : f.isVariable x = false) :
    (f.subst x r).note = f.note.map (·.subst x r) := by
  obtain ⟨note, form⟩ := f
  cases form with
  | var v =>
    rw [Term.subst_var, if_neg (by simpa [Term.isVariable] using hf)]
    rfl
  | atom => rw [Term.subst_atom]; rfl
  | unary => rw [Term.subst_unary]; rfl
  | binary => rw [Term.subst_binary]; rfl
  | app => rw [Term.subst_app]; rfl
  | list => rw [Term.subst_list]; rfl
  | bind => rw [Term.subst_bind]; rfl

/-- A function whose sort is a pi type keeps its mutability, unless it is replaced itself. -/
theorem Term.hasMutableSort_subst {x : Var} {r f : Checked} (hf : f.isVariable x = false)
    (hsort : f.piSort?.isSome) : (f.subst x r).hasMutableSort = f.hasMutableSort := by
  have hnote := Term.note_subst (r := r) hf
  obtain ⟨s, hs⟩ := Option.isSome_iff_exists.mp hsort
  have hs' : (f.subst x r).piSort? = some (s.subst x r) := by
    unfold Term.piSort? at hs
    split at hs
    · next note s' hsort =>
      cases hs
      have hsubst : (f.subst x r).sort? = (f.sort?).map (·.subst x r) := by
        rw [Term.sort?, hnote, Term.sort?]
        cases f.note <;> rfl
      rw [Term.piSort?, hsubst, hsort, Option.map_some, Term.subst_bind]
    · cases hs
  have hmut : (s.subst x r).mutability = s.mutability :=
    congrArg Prod.snd (Tele.outline_subst x r s)
  simp only [Term.hasMutableSort, hs, hs', hmut]

end DependentCore
