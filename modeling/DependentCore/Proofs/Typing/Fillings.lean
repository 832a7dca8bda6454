import DependentCore.Proofs.Typing.Derivations

/-!
# Values found for placeholders

An argument may be left out where it is called for; the checker then cuts a value out of the type of
a later argument. `Term.fillings e t` lists the values that stand in the checked term `t` where `e`
has placeholders.

Such a value was not checked where it is put, so it is these values that decide whether a checked
term keeps to its context: see `Typing.Scoping` for its variables and `Typing.Purity` for its
effects.
-/

namespace DependentCore

/-- A value that stands for a placeholder. -/
structure Filling where
  /-- The variables of the arguments that are bound around the placeholder, outermost first. -/
  bound : List (Option Var)
  /-- Whether the placeholder is evaluated along with the term, and not inside an abstraction. -/
  evaluated : Bool
  value : Checked

/-- The filling seen from outside of an argument that is bound around it. -/
def Filling.under (v : Option Var) (fill : Filling) : Filling :=
  { fill with bound := v :: fill.bound }

/-- The filling seen from outside of an abstraction. -/
def Filling.delayed (fill : Filling) : Filling :=
  { fill with evaluated := false }

mutual

/-- The values that stand in a checked term for the placeholders of the written one. -/
def Term.fillings : Written → Checked → List Filling
  | .mk _ form, .mk _ form' => form.fillings form'

/-- The values that stand in a checked form for the placeholders of the written one. -/
def Form.fillings : Form .written → Form .checked → List Filling
  | .unary _ x, .unary _ x' => x.fillings x'
  | .binary _ x y, .binary _ x' y' => x.fillings x' ++ y.fillings y'
  | .app f args, .app f' args' => f.fillings f' ++ fillingsList args args'
  | .list xs, .list xs' => fillingsList xs xs'
  | .bind _ t, .bind k t' =>
    if k = .abs then (t.fillings t').map Filling.delayed else t.fillings t'
  | _, _ => []

/-- The values that stand in a checked telescope for the placeholders of the written one. -/
def Tele.fillings {k l : Binder} : Tele .written k → Tele .checked l → List Filling
  | .returns _ ret, .returns _ ret' => ret.fillings ret'
  | .runs _ ret body, .runs _ ret' body' => ret.fillings ret' ++ fillingsBody body body'
  | .arg _ _ ty _ rest, .arg _ _ ty' v rest' =>
    ty.fillings ty' ++ (rest.fillings rest').map (Filling.under v)
  | _, _ => []

/-- The values that stand in a checked statement for the placeholders of the written one. -/
def Stmt.fillings : Stmt .written → Stmt .checked → List Filling
  | .call _ x, .call _ x' | .ret _ x, .ret _ x' | .impossibleBy _ x, .impossibleBy _ x' =>
    x.fillings x'
  | .ifThen _ cond yes, .ifThen _ cond' yes' => cond.fillings cond' ++ fillingsBody yes yes'
  | .ifElse _ cond yes no, .ifElse _ cond' yes' no' =>
    cond.fillings cond' ++ fillingsBody yes yes' ++ fillingsBody no no'
  | _, _ => []

/-- The values that stand in a list of checked terms for the placeholders of the written ones. -/
def fillingsList : List Written → List Checked → List Filling
  | x :: xs, x' :: xs' =>
    (if x.isAuto then [⟨[], true, x'⟩] else x.fillings x') ++ fillingsList xs xs'
  | _, _ => []

/-- The values that stand in a checked body for the placeholders of the written one. -/
def fillingsBody : List (Stmt .written) → List (Stmt .checked) → List Filling
  | s :: rest, s' :: rest' => s.fillings s' ++ fillingsBody rest rest'
  | _, _ => []

end

end DependentCore
