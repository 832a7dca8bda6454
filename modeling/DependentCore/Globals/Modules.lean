import DependentCore.Globals.Context

/-!
# Module trees

The modules of a program are kept in a tree, each with a table of globals and named submodules. An
open module is taken out of the submodules of its parent and put back when it is closed, so a change
of the current module is local.

* `ModuleTree`: a module with its submodules,
* `Modules`: the root and the open modules below it, innermost first,
* `Modules.close?`, `Modules.openChild`: put the current module back, and take a submodule out.
-/

namespace DependentCore

/-- A module: its globals and its submodules. -/
inductive ModuleTree where
  | mk (globals : Table (Entry .checked)) (children : List (String × ModuleTree))

namespace ModuleTree

/-- The module without globals and submodules. -/
def empty : ModuleTree :=
  .mk [] []

/-- The globals of a module. -/
def globals : ModuleTree → Globals
  | .mk globals _ => globals

/-- The submodules of a module. -/
def children : ModuleTree → Table ModuleTree
  | .mk _ children => children

/-- The module with its globals replaced. -/
def setGlobals (m : ModuleTree) (globals : Globals) : ModuleTree :=
  .mk globals m.children

/-- The module with a submodule put in place. -/
def putChild (m : ModuleTree) (name : String) (child : ModuleTree) : ModuleTree :=
  .mk m.globals (m.children.insert name child)

/-- The module without a submodule. -/
def dropChild (m : ModuleTree) (name : String) : ModuleTree :=
  .mk m.globals (m.children.erase name)

/-- The module reached by following a path through submodules. -/
def descend? : List String → ModuleTree → Option ModuleTree
  | [], m => some m
  | name :: path, m => (m.children.get? name).bind (descend? path)

end ModuleTree

/-- A tree of modules of which those along one path are open. -/
structure Modules where
  root : ModuleTree := .empty
  /-- The open modules below the root, innermost first. -/
  opened : List (String × ModuleTree) := []

namespace Modules

/-- The path of the current module, outermost first. -/
def path (ms : Modules) : List String :=
  (ms.opened.map (·.1)).reverse

/-- The open modules, innermost first, the root last. -/
def enclosing (ms : Modules) : List ModuleTree :=
  ms.opened.map (·.2) ++ [ms.root]

/-- The innermost open module. -/
def current (ms : Modules) : ModuleTree :=
  match ms.opened with
  | [] => ms.root
  | (_, m) :: _ => m

/-- Apply a function to the innermost open module. -/
def modifyCurrent (f : ModuleTree → ModuleTree) (ms : Modules) : Modules :=
  match ms.opened with
  | [] => { ms with root := f ms.root }
  | (name, m) :: outer => { ms with opened := (name, f m) :: outer }

/-- Put the innermost open module back into the one around it, unless it is the root. -/
def close? (ms : Modules) : Option Modules :=
  match ms.opened with
  | [] => none
  | (name, m) :: outer => some (modifyCurrent (·.putChild name m) { ms with opened := outer })

/-- Open a submodule of the current module, creating it if there is none. -/
def openChild (ms : Modules) (name : String) : Modules :=
  let child := (ms.current.children.get? name).getD .empty
  let outer := ms.modifyCurrent (·.dropChild name)
  { outer with opened := (name, child) :: outer.opened }

instance : ModuleContext Modules where
  root := {}
  depth ms := ms.opened.length
  globals ms := ms.current.globals
  setGlobals ms globals := ms.modifyCurrent (·.setGlobals globals)
  close? := close?
  openOrDefault := openChild
  find ms path := ms.enclosing.filterMap fun m => (m.descend? path).map (·.globals)

end Modules

end DependentCore
