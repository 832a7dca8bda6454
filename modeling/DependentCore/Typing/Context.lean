import DependentCore.Report
import DependentCore.Syntax.Printer

/-!
# Contexts

A `Context` says what the variables in scope stand for and which facts hold. It is a chain of
scopes; a variable is declared at most once in each of them, and the innermost declaration counts.

* `Context.declare`: declare a variable in the innermost scope, or report the `Conflict`,
* `Context.lookup?`, `Context.lookupType?`, `Context.lookupTerm?`: the innermost declaration of a
  variable, of either kind or of one kind only,
* `Context.assumptions`: the facts that hold, innermost and latest first.
-/

namespace DependentCore

/-- What a variable stands for: a type, or a term of a type. -/
inductive Meaning where
  | type
  | term (qty : Quantity) (ty : Checked)

/-- A declaration and where it was made. -/
structure Declaration where
  origin : Option Location
  meaning : Meaning

/-- The declarations and facts of one scope, the latest first. -/
structure Scope where
  decls : List (Var × Declaration) := []
  facts : List Checked := []

/-- A chain of scopes, in code that may have effects or not. -/
structure Context where
  inner : Scope := {}
  /-- The scopes around the inner one, innermost first. -/
  outer : List Scope := []
  mutability : Mutability := .no

/-- A variable was declared twice in one scope. -/
structure Conflict where
  var : Var
  origin : Option Location
  /-- Where the variable was declared before. -/
  previous : Option Location

/-- The report of a conflict: its reason is the previous declaration. -/
def Conflict.report (c : Conflict) : Report :=
  .mk ("conflicting declaration of " ++ c.var.text) c.origin
    [.mk ("previous declaration of " ++ c.var.text) c.previous []]

/-- The declaration of a variable in one scope. -/
def Scope.find? (s : Scope) (v : Var) : Option Declaration :=
  (s.decls.find? fun d => d.1 = v).map (·.2)

namespace Context

/-- The scopes of a context, innermost first. -/
def scopes (ctx : Context) : List Scope :=
  ctx.inner :: ctx.outer

/-- The context with a new scope, in code of the given mutability. -/
def newScopeOf (ctx : Context) (m : Mutability) : Context :=
  { inner := {}, outer := ctx.scopes, mutability := m }

/-- The context with a new scope. -/
def newScope (ctx : Context) : Context :=
  ctx.newScopeOf ctx.mutability

/-- The context in which a variable is declared in the innermost scope, unless it is already. -/
def declare (ctx : Context) (v : Var) (d : Declaration) : Except Conflict Context :=
  match ctx.inner.find? v with
  | some previous => .error ⟨v, d.origin, previous.origin⟩
  | none => .ok { ctx with inner := { ctx.inner with decls := (v, d) :: ctx.inner.decls } }

/-- The context in which a fact holds. -/
def assume (ctx : Context) (fact : Checked) : Context :=
  { ctx with inner := { ctx.inner with facts := fact :: ctx.inner.facts } }

/-- The declarations of a variable, innermost first. -/
def declarations (ctx : Context) (v : Var) : List Declaration :=
  ctx.scopes.filterMap (·.find? v)

/-- The innermost declaration of a variable. -/
def lookup? (ctx : Context) (v : Var) : Option Declaration :=
  (ctx.declarations v).head?

/-- The innermost declaration of a variable as a type. -/
def lookupType? (ctx : Context) (v : Var) : Option Declaration :=
  (ctx.declarations v).find? fun d =>
    match d.meaning with
    | .type => true
    | .term _ _ => false

/-- The quantity and type of the innermost declaration of a variable as a term. -/
def lookupTerm? (ctx : Context) (v : Var) : Option (Quantity × Checked) :=
  (ctx.declarations v).findSome? fun d =>
    match d.meaning with
    | .type => none
    | .term qty ty => some (qty, ty)

/-- The facts that hold, innermost and latest first. -/
def assumptions (ctx : Context) : List Checked :=
  ctx.scopes.flatMap (·.facts)

end Context

/-! ## Printing -/

/-- A declaration is printed as the type of the variable. -/
def Meaning.text : Meaning → String
  | .type => "typename"
  | .term qty ty => qty.text ++ ty.text

/-- Insert a declaration into a list that is ordered by variable. -/
def insertByVar (d : Var × Declaration) : List (Var × Declaration) → List (Var × Declaration)
  | [] => [d]
  | e :: rest => if d.1.before e.1 then d :: e :: rest else e :: insertByVar d rest

/-- The declarations of a scope ordered by variable. -/
def Scope.sorted (s : Scope) : List (Var × Declaration) :=
  s.decls.foldr insertByVar []

/-- The declarations of a scope ordered by variable, and then its facts in the order in which they
were added. Each is followed by a comma. -/
def Scope.text (s : Scope) : String :=
  String.join (s.sorted.map fun d => d.1.text ++ ": " ++ d.2.meaning.text ++ ", ")
    ++ String.join (s.facts.reverse.map fun fact => fact.text ++ ", ")

/-- The scopes of a context, outermost first. -/
def Context.text (ctx : Context) : String :=
  "[" ++ String.join (ctx.scopes.reverse.map (·.text)) ++ "]"

end DependentCore
