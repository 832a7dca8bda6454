import DependentCore.Globals.Modules

/-!
# Environments

An environment holds the globals of a compilation unit and the limits for unfolding them. It is
built on a library of nested modules; unless another one is named, the modules are kept in a tree.

* `Env.get?`, `Env.function?`: what a name refers to,
* `Env.insert?`: add a global to the current module, unless its name is taken,
* `Env.enter`: change the current module,
* `Env.intType?`, `Env.structOf?`: what a type stands for, aliases resolved.
-/

namespace DependentCore

/-- The globals of a compilation unit, and how they are unfolded. -/
structure Env (M : Type := Modules) [ModuleContext M] where
  modules : M := ModuleContext.root
  /-- How many definitions may be in the course of being unfolded. -/
  unfoldLimit : Nat := 64
  /-- How many attempts to unfold a definition one normalisation may make. -/
  unfoldFuel : Nat := 4096
  /-- Whether definitions are unfolded at all. -/
  inlineGlobals : Bool := true

namespace Env

variable {M : Type} [ModuleContext M]

/-- The global that a name refers to. -/
def get? (env : Env M) (g : GlobalName) : Option (Entry .checked) :=
  ModuleContext.get? env.modules g

/-- Whether a global may be put under a name that has the given meaning so far: the name is free,
or a declaration is replaced by a definition. -/
def mayReplace (old : Option (Entry .checked)) (new : Entry .checked) : Bool :=
  match old with
  | none => true
  | some e => e.item.isDeclared && new.item.isDefined

/-- The environment with a global in the table of the current module, unless its name is taken. -/
def insert? (env : Env M) (name : String) (e : Entry .checked) : Option (Env M) :=
  if mayReplace ((ModuleContext.globals env.modules).get? name) e then
    some { env with modules := ModuleContext.put env.modules name e }
  else none

theorem insert?_eq_some {env env' : Env M} {name : String} {e : Entry .checked} :
    env.insert? name e = some env' ↔
      mayReplace ((ModuleContext.globals env.modules).get? name) e ∧
        { env with modules := ModuleContext.put env.modules name e } = env' := by
  unfold insert?
  split <;> simp [*]

/-- The environment without a global of the current module. -/
def remove (env : Env M) (name : String) : Env M :=
  { env with modules := ModuleContext.drop env.modules name }

/-- The environment with another current module. -/
def enter (env : Env M) (path : List String) : Env M :=
  { env with modules := ModuleContext.enter env.modules path }

/-- The settings of an environment. -/
def text (env : Env M) : String :=
  "Env \x7b unfold_limit: " ++ toString env.unfoldLimit ++ ", unfold_fuel: "
    ++ toString env.unfoldFuel ++ ", inline_globals: " ++ toString env.inlineGlobals ++ ", .. \x7d"

/-- The definition that a name refers to, if it is a defined function. -/
def function? (env : Env) (g : GlobalName) : Option (Function .checked) :=
  match env.get? g with
  | some ⟨_, _, .defined f⟩ => some f
  | _ => none

/-- The integer type that a type stands for. -/
def intType? (env : Env) (ty : Checked) : Option IntType :=
  match ty.form with
  | .atom (.int t) => some t
  | .atom (.global g) =>
    match env.get? g with
    | some ⟨_, _, .integer t⟩ => some t
    | _ => none
  | _ => none

/-- The fields of the struct that a type stands for. -/
def structOf? (env : Env) (ty : Checked) : Option (Fields .checked) :=
  match ty.form with
  | .atom (.global g) =>
    match env.get? g with
    | some ⟨_, _, .struct fs⟩ => some fs
    | _ => none
  | _ => none

/-- The fields of a struct or sigma type. -/
def fields? (env : Env) (ty : Checked) : Option (Fields .checked) :=
  match ty.form with
  | .bind .sigma fs => some fs
  | _ => env.structOf? ty

end Env

/-- The name of the function that is built in: `slice` without a path. -/
def sliceName : GlobalName :=
  { name := "slice" }

/-- Whether a name refers to the function `slice` that is built in, as the unit does not define
its own. -/
def Env.isBuiltinSlice (env : Env) (g : GlobalName) : Bool :=
  g = sliceName && (env.get? g).isNone

end DependentCore
