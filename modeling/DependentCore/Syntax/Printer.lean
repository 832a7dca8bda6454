import DependentCore.Syntax.Entry
import DependentCore.Text.Quoted

/-!
# Printing trees

`Term.text` and its companions give the text under which trees appear in reports. Notes are not
printed. An operand is put in parentheses if it is itself the application of an operator, and a
function applied is put in parentheses if it is an abstraction.
-/

namespace DependentCore

variable {p : Phase}

/-- The spelling of an atom. -/
def Atom.text : Atom → String
  | .typename => "typename"
  | .auto => "auto"
  | .bool => "bool"
  | .unit => "unit_t"
  | .cstr => "cstr_t"
  | .scope => "scope_t"
  | .int ty => ty.text
  | .lit b => if b then "true" else "false"
  | .num n => toString n
  | .str s => Text.quote s
  | .global g => g.text

/-- The symbol of a binary form that is written between its operands. -/
def Binary.symbol? : Binary → Option String
  | .arrayT | .refT | .subscript => none
  | .because => some "because"
  | .logic op => some op.text
  | .compare op => some op.text
  | .arith op => some op.text

/-- Whether a form is the application of an operator, so that it needs parentheses as an
operand. -/
def Form.isOperator : Form p → Bool
  | .unary .not _ => true
  | .binary op _ _ => op.symbol?.isSome
  | _ => false

/-- Whether a form is an abstraction, so that it needs parentheses when applied. -/
def Form.isAbs : Form p → Bool
  | .bind .abs _ => true
  | _ => false

/-- Put a text in parentheses if asked. -/
def parenthesize (b : Bool) (s : String) : String :=
  if b then "(" ++ s ++ ")" else s

/-- The word that stands between the arguments of a function and the arrow. -/
def Mutability.text : Mutability → String
  | .no => ""
  | .yes => "mutable "

/-- A form with one subterm, where `operand` is the subterm parenthesised if needed. -/
def Unary.apply (inner operand : String) : Unary → String
  | .trueT => "true_t(" ++ inner ++ ")"
  | .addressOf => "addressof(" ++ inner ++ ")"
  | .deref => "deref(" ++ inner ++ ")"
  | .scopeOf => "scopeof(" ++ inner ++ ")"
  | .not => "not " ++ operand
  | .member field => operand ++ "." ++ field

/-- A block of statements: braces around the statements, separated by blanks. -/
def blockText (stmts : List String) : String :=
  if stmts.isEmpty then "\x7b\x7d" else "\x7b " ++ " ".intercalate stmts ++ " \x7d"

/-- An argument: quantity, type and name. -/
def argText (qty : Quantity) (ty : String) (var : Option Var) : String :=
  qty.text ++ ty ++ (match var with
    | none => ""
    | some v => " " ++ v.text)

/-- What separates the arguments of a binder. -/
def Binder.separator : Binder → String
  | .sigma => "; "
  | .pi | .abs => ", "

mutual

/-- The text of a term. -/
def Term.text : Term p → String
  | .mk _ form => form.text

/-- The text of a form. -/
def Form.text : Form p → String
  | .atom a => a.text
  | .var v => v.text
  | .unary op x => op.apply x.text (parenthesize x.form.isOperator x.text)
  | .binary .arrayT x y => "array_t(" ++ x.text ++ ", " ++ y.text ++ ")"
  | .binary .refT x y => "ref_t(" ++ x.text ++ ", " ++ y.text ++ ")"
  | .binary .subscript x y => parenthesize x.form.isOperator x.text ++ "[" ++ y.text ++ "]"
  | .binary op x y =>
    parenthesize x.form.isOperator x.text ++ " " ++ op.symbol?.getD "" ++ " "
      ++ parenthesize y.form.isOperator y.text
  | .app f args =>
    parenthesize f.form.isAbs f.text ++ "(" ++ ", ".intercalate (textList args) ++ ")"
  | .list xs => "\x7b" ++ ", ".intercalate (textList xs) ++ "\x7d"
  | .bind k t => "(" ++ k.separator.intercalate t.argTexts ++ ")" ++ t.endText

/-- The texts of the arguments of a telescope. -/
def Tele.argTexts {k : Binder} : Tele p k → List String
  | .fields | .returns _ _ | .runs _ _ _ => []
  | .arg _ qty ty var rest => argText qty ty.text var :: rest.argTexts

/-- The text of what follows the arguments of a telescope. -/
def Tele.endText {k : Binder} : Tele p k → String
  | .fields => ""
  | .returns m ret => " " ++ m.text ++ "-> " ++ ret.text
  | .runs m ret body => " " ++ m.text ++ "-> " ++ ret.text ++ " " ++ blockText (textStmts body)
  | .arg _ _ _ _ rest => rest.endText

/-- The text of a statement. -/
def Stmt.text : Stmt p → String
  | .call _ x => x.text ++ ";"
  | .ifThen _ cond yes => "if (" ++ cond.text ++ ") " ++ blockText (textStmts yes)
  | .ifElse _ cond yes no =>
    "if (" ++ cond.text ++ ") " ++ blockText (textStmts yes) ++ " else " ++ blockText (textStmts no)
  | .ret _ x => "return " ++ x.text ++ ";"
  | .retUnit _ => "return;"
  | .impossible _ => "impossible;"
  | .impossibleBy _ x => "impossible because " ++ x.text ++ ";"

/-- The texts of the terms of a list. -/
def textList : List (Term p) → List String
  | [] => []
  | x :: xs => x.text :: textList xs

/-- The texts of the statements of a body. -/
def textStmts : List (Stmt p) → List String
  | [] => []
  | s :: rest => s.text :: textStmts rest

end

/-- The text of an argument. -/
def Arg.text (a : Arg p) : String :=
  argText a.qty a.ty.text a.var

/-- The text of a telescope as a term. -/
def Tele.text {k : Binder} (t : Tele p k) : String :=
  Form.text (.bind k t)

/-- The text of a body: its statements separated by blanks. -/
def Body.text (b : Body p) : String :=
  " ".intercalate (textStmts b)

/-- The text of an item under a name. -/
def Item.text (name : String) : Item p → String
  | .integer ty => "typedef " ++ name ++ " = " ++ ty.text ++ ";"
  | .struct fs =>
    "typedef " ++ name ++ " = struct \x7b " ++ String.join (fs.argTexts.map (· ++ "; "))
      ++ "\x7d;"
  | .declared s => name ++ ": " ++ s.text ++ ";"
  | .external s => "extern " ++ name ++ ": " ++ s.text ++ ";"
  | .defined f => name ++ " = " ++ f.text

/-- The text of an entry. -/
def Entry.text (e : Entry p) : String :=
  e.item.text e.name

/-- The text of a compilation unit: one entry a line. -/
def unitText (entries : List (Entry p)) : String :=
  String.join (entries.map (·.text ++ "\n"))

end DependentCore
