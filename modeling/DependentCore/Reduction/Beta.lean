import DependentCore.Binding.Subst
import DependentCore.Effect

/-!
# Beta reduction

Steps at the root of a term that need no environment:

* a value with a justification reduces to the value,
* an abstraction applied to arguments without effects takes them in: it is left without arguments,
  and applied to none,
* an abstraction applied to no arguments whose body is a single `return e` reduces to `e`.

Arguments are supplied by `Tele.supply`: first all formal arguments are renamed above the indices
of the actual ones, then they are substituted from right to left.
-/

namespace DependentCore

variable {p : Phase} [c : Indexing]

/-- Supply actual arguments to a telescope. Each formal argument is renamed above `floor` in what
follows it, and the actual argument is substituted once the later arguments have been supplied. -/
def Tele.supply {k : Binder} (floor : Nat) : List (Term p) → Tele p k → Tele p k
  | actual :: actuals, .arg mark qty ty (some v) rest =>
    let new := rest.refresh v floor
    .arg mark qty ty (some new.1) ((supply floor actuals new.2).subst new.1 actual)
  | _ :: actuals, .arg mark qty ty none rest => .arg mark qty ty none (supply floor actuals rest)
  | _, t => t

/-- The telescope without its arguments. -/
def Tele.dropArgs {k : Binder} : Tele p k → Tele p k
  | .fields => .fields
  | .returns m ret => .returns m ret
  | .runs m ret body => .runs m ret body
  | .arg _ _ _ _ rest => rest.dropArgs

/-- The function that is left when all arguments of a function are supplied. -/
def Tele.apply (f : Function p) (actuals : List (Term p)) : Function p :=
  (f.supply (maxIndexList actuals) actuals).dropArgs

/-- The sort of a function whose signature has changed. -/
def Note.retype (s : Signature p) : Note p (Term p) → Note p (Term p)
  | .sort ty h => .sort (.mk ty.note (.bind .pi s)) h
  | note => note

/-- The reduction of an abstraction applied to arguments. -/
def betaApply? (note fnote : Note .checked Checked) (f : Function .checked) (args : List Checked) :
    Option Checked :=
  match args, f.body? with
  | [], some [.ret _ e] => some e
  | [], _ => none
  | _ :: _, _ =>
    if f.arity = args.length && !hasEffectList args then
      let g := f.apply args
      some (.mk note (.app (.mk (fnote.retype g.signature) (.bind .abs g)) []))
    else none

/-- One reduction step at the root of a term. -/
def Term.beta? : Checked → Option Checked
  | .mk _ (.binary .because x _) => some x
  | .mk note (.app (.mk fnote (.bind .abs f)) args) => betaApply? note fnote f args
  | _ => none

end DependentCore
