import DependentCore.Globals.Table
import DependentCore.Syntax.Entry

/-!
# Nested modules

Globals live in modules that may have named submodules. The modules from the root to the current one
are open. How they are kept is left to a library; this is what is needed of it, and how it is used.

* `ModuleContext`: the operations of the library,
* `ModuleContext.enter`: close all modules and open those along a path,
* `ModuleContext.get?`: look a name up in the modules that its path leads to.
-/

namespace DependentCore

/-- The globals of a module. -/
abbrev Globals := Table (Entry .checked)

/-- What a library of nested modules provides. -/
class ModuleContext (M : Type) where
  /-- The root alone, which has no globals. -/
  root : M
  /-- How many modules are open below the root. -/
  depth : M → Nat
  /-- The globals of the innermost open module. -/
  globals : M → Globals
  /-- Replace the globals of the innermost open module. -/
  setGlobals : M → Globals → M
  /-- Close the innermost open module, unless it is the root. -/
  close? : M → Option M
  /-- Open a submodule of the innermost open module, or a new one if there is none of the name. -/
  openOrDefault : M → String → M
  /-- The globals of the modules that a path leads to, from each of the open modules, innermost
  first. -/
  find : M → List String → List Globals

namespace ModuleContext

variable {M : Type} [ModuleContext M]

/-- Close modules as long as there are some to close, at most `n` of them. -/
def closeUpTo : Nat → M → M
  | 0, ms => ms
  | n + 1, ms =>
    match close? ms with
    | none => ms
    | some ms => closeUpTo n ms

/-- Close all modules but the root. -/
def closeAll (ms : M) : M :=
  closeUpTo (depth ms) ms

/-- Make the module at a path the current one. -/
def enter (ms : M) (path : List String) : M :=
  path.foldl openOrDefault (closeAll ms)

/-- The global that a name refers to: the first one of this name in the modules found. -/
def get? (ms : M) (g : GlobalName) : Option (Entry .checked) :=
  (find ms g.path).findSome? (·.get? g.name)

/-- Put a global into the table of the current module. -/
def put (ms : M) (name : String) (e : Entry .checked) : M :=
  setGlobals ms ((globals ms).insert name e)

/-- Take a global out of the table of the current module. -/
def drop (ms : M) (name : String) : M :=
  setGlobals ms ((globals ms).erase name)

end ModuleContext

end DependentCore
