import DependentCore.Syntax.Term

/-!
# Entries of a compilation unit

An `Entry` gives a name to an `Item`: an integer alias, a struct, a function that is declared,
provided from outside, or defined. A compilation unit is a list of entries.
-/

namespace DependentCore

variable {p : Phase}

/-- What an entry stands for. -/
inductive Item (p : Phase) where
  /-- An alias of a fixed-width integer type. -/
  | integer (ty : IntType)
  /-- A struct, where the type of a field may depend on earlier fields. -/
  | struct (fs : Fields p)
  /-- A function to be defined later. -/
  | declared (s : Signature p)
  /-- A function provided from outside. -/
  | external (s : Signature p)
  | defined (f : Function p)

/-- A named item. -/
structure Entry (p : Phase) where
  mark : Mark p
  name : String
  item : Item p

/-- The signature of an item that is a function. -/
def Item.signature? : Item p → Option (Signature p)
  | .integer _ | .struct _ => none
  | .declared s | .external s => some s
  | .defined f => some f.signature

/-- Whether the item declares a function to be defined later. -/
def Item.isDeclared : Item p → Bool
  | .declared _ => true
  | _ => false

/-- Whether the item defines a function. -/
def Item.isDefined : Item p → Bool
  | .defined _ => true
  | _ => false

end DependentCore
