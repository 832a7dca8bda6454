import DependentCore.Typing.Elaborate

/-!
# Checking entries

Entries are checked in order, and each is added to the environment. The state of `Declaring` is the
environment; it is kept when checking fails, so what a failed entry leaves behind is a matter of
what `checkEntry` does.

A function is defined in two steps. First its signature is declared, unless it was declared before;
so the body may call the function. If the body is rejected the declaration is withdrawn. Otherwise
the definition replaces it.
-/

namespace DependentCore

variable [c : Indexing]

/-- A check that changes the environment, also if it fails. -/
abbrev Declaring := ExceptT Failure (StateM Env)

/-- The outcome of a check that leaves the environment as it is. -/
def Declaring.ofCheck {α : Type} (c : Check α) : Declaring α :=
  ExceptT.mk (pure c)

/-- Add an entry to the current module. -/
def register (e : Entry .checked) : Declaring Unit := do
  match (← get).insert? e.name e with
  | some env => set env
  | none => throw (.rejected ⟨.redefinition e.name, none, {}, none⟩)

/-- Take an entry out of the current module. -/
def withdraw (name : String) : Declaring Unit :=
  modify (·.remove name)

/-- Check the body of a function whose signature has been declared. -/
def checkFunction (fuel : Nat) (loc : Location) (f : Function .written) :
    Declaring (Function .checked) := do
  Declaring.ofCheck (f.elaborate fuel (← get) (Context.newScopeOf {} f.mutability) loc)

/-- Check the definition of a function and add it to the current module. A declaration that the
name refers to must have the same signature. -/
def checkDefinition (fuel : Nat) (loc : Location) (name : String) (f : Function .written) :
    Declaring (Entry .checked) := do
  let env ← get
  let s ← Declaring.ofCheck (f.signature.elaborate fuel env (Context.newScope {}) loc)
  match env.get? { name := name } with
  | some ⟨_, _, .declared declared⟩ =>
    if declared.alphaEq s then
      let f ← checkFunction fuel loc f
      let e : Entry .checked := ⟨(), name, .defined f⟩
      register e
      return e
    else
      throw (.rejected ⟨.declarationMismatch name, some loc, {}, some (Checked.pi declared)⟩)
  | _ => do
    register ⟨(), name, .declared s⟩
    let f ← tryCatch (checkFunction fuel loc f) fun failure => do
      withdraw name
      throw failure
    let e : Entry .checked := ⟨(), name, .defined f⟩
    register e
    return e

/-- Check an item other than a definition. -/
def checkItem (fuel : Nat) (env : Env) (loc : Location) : Item .written → Check (Item .checked)
  | .integer t => .ok (.integer t)
  | .struct fs => do return .struct (← fs.elaborate fuel env {} loc)
  | .declared s => do return .declared (← s.elaborate fuel env (Context.newScope {}) loc)
  | .external s => do return .external (← s.elaborate fuel env (Context.newScope {}) loc)
  | .defined f => do
    return .defined (← f.elaborate fuel env (Context.newScopeOf {} f.mutability) loc)

/-- Check an entry and add it to the current module. -/
def checkEntry (fuel : Nat) (e : Entry .written) : Declaring (Entry .checked) :=
  match e.item with
  | .defined f => checkDefinition fuel e.mark e.name f
  | item => do
    let item ← Declaring.ofCheck (checkItem fuel (← get) e.mark item)
    let e : Entry .checked := ⟨(), e.name, item⟩
    register e
    return e

/-- Check the entries of a compilation unit in order. -/
def checkUnit (fuel : Nat) (entries : List (Entry .written)) : Declaring (List (Entry .checked)) :=
  entries.mapM (checkEntry fuel)

end DependentCore
