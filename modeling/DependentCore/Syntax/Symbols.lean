/-!
# Symbols of the language

The leaves of the syntax: names, quantities, the fixed-width integer types and the operators.

* `Var`: a variable name with an index that tells renamed variables apart,
* `GlobalName`: a global, possibly qualified by a module path,
* `Quantity`, `Mutability`: how often an argument is used, whether a function has effects,
* `IntType`: a sign and a width,
* `BoolOp`, `RelOp`, `ArithOp`: the binary operators.

Each symbol has a `text`, the spelling under which it is printed.
-/

namespace DependentCore

/-- A variable is a name together with an index. Index `0` is the variable as it was written;
renaming only produces larger indices. -/
structure Var where
  /-- The name as written. -/
  name : String
  /-- The index that tells renamed variables of one name apart. -/
  index : Nat := 0
deriving DecidableEq, Repr, Inhabited

/-- The index is printed only if the variable was renamed. -/
def Var.text (v : Var) : String :=
  if v.index = 0 then v.name else v.name ++ ":" ++ toString v.index

/-- Variables are ordered by name and then by index. -/
def Var.before (v w : Var) : Bool :=
  v.name < w.name || (v.name == w.name && v.index < w.index)

/-- A reference to a global, qualified by the modules it is reached through. -/
structure GlobalName where
  /-- The submodules to descend through, outermost first. -/
  path : List String := []
  /-- The name in the table of the module reached. -/
  name : String
deriving DecidableEq, Repr, Inhabited

/-- Each module of the path is followed by two colons. -/
def GlobalName.text (g : GlobalName) : String :=
  g.path.foldr (fun m rest => m ++ "::" ++ rest) g.name

/-- How often an argument is meant to be used. -/
inductive Quantity where
  | zero
  | one
  | many
deriving DecidableEq, Repr

/-- The quantity as it stands before the type of an argument. -/
def Quantity.text : Quantity → String
  | .zero => "0 "
  | .one => "1 "
  | .many => ""

/-- Whether calling a function may have side effects. -/
inductive Mutability where
  | no
  | yes
deriving DecidableEq, Repr

/-- Whether the values of an integer type include negative ones. -/
inductive Sign where
  | signed
  | unsigned
deriving DecidableEq, Repr

/-- The widths of the integer types. -/
inductive Width where
  | w8
  | w16
  | w32
  | w64
deriving DecidableEq, Repr

/-- The number of bits of a width. -/
def Width.bits : Width → Nat
  | .w8 => 8
  | .w16 => 16
  | .w32 => 32
  | .w64 => 64

/-- A fixed-width integer type. -/
structure IntType where
  sign : Sign
  width : Width
deriving DecidableEq, Repr

/-- The letter `i` or `u` followed by the width in bits. -/
def IntType.text (t : IntType) : String :=
  (match t.sign with
    | .signed => "i"
    | .unsigned => "u") ++ toString t.width.bits

/-- The unsigned 64-bit type, in which sizes and positions are counted. -/
def IntType.u64 : IntType := ⟨.unsigned, .w64⟩

/-- Operators on booleans. -/
inductive BoolOp where
  | and
  | or
  | xor
deriving DecidableEq, Repr

/-- The spelling of an operator on booleans. -/
def BoolOp.text : BoolOp → String
  | .and => "and"
  | .or => "or"
  | .xor => "xor"

/-- Comparisons. -/
inductive RelOp where
  | eq
  | neq
  | lt
  | lte
  | gt
  | gte
deriving DecidableEq, Repr

/-- The spelling of a comparison. -/
def RelOp.text : RelOp → String
  | .eq => "=="
  | .neq => "!="
  | .lt => "<"
  | .lte => "<="
  | .gt => ">"
  | .gte => ">="

/-- Arithmetic operators. -/
inductive ArithOp where
  | plus
  | minus
  | times
  | div
deriving DecidableEq, Repr

/-- The spelling of an arithmetic operator. -/
def ArithOp.text : ArithOp → String
  | .plus => "+"
  | .minus => "-"
  | .times => "*"
  | .div => "/"

end DependentCore
