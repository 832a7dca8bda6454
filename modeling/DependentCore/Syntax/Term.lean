import DependentCore.Syntax.Symbols

/-!
# Terms

Types and terms share one syntax. A tree exists in two phases: as written, where every node
carries its place in the source, and as checked, where every node carries its sort.

* `Note`: what a node of a term carries, depending on the phase,
* `Term`: a note and a `Form`,
* `Form`: the shape of a term; operators are grouped by arity, so that a function on trees has
  one case per arity,
* `Tele`: the telescope of a binder. It lists the arguments, and ends with what stands under them:
  nothing for a sigma type, a return type for a pi type, a return type and a body for an
  abstraction. All that an argument binds is the `rest` of the telescope,
* `Stmt`: a statement of a body.

The end of a telescope is fixed by its `Binder`, so `Signature` and `Function` are telescopes of
their own type.
-/

namespace DependentCore

/-- A place in the source, with the text that stands there. -/
structure Location where
  line : Nat := 0
  col : Nat := 0
  text : String := ""
deriving DecidableEq, Repr, Inhabited

/-- The two phases of a tree: as written and as checked. -/
inductive Phase where
  | written
  | checked
deriving DecidableEq, Repr

/-- What arguments and statements carry: their place before checking, nothing afterwards. -/
abbrev Mark : Phase → Type
  | .written => Location
  | .checked => Unit

/-- What a term of a phase carries, where `τ` is the type of terms. A checked term carries its
sort, except for `typename`, whose sort is no term. -/
inductive Note (p : Phase) (τ : Type) where
  | place (loc : Location) (h : p = .written)
  | kind (h : p = .checked)
  | sort (ty : τ) (h : p = .checked)

/-- The forms without subterms, variables apart. -/
inductive Atom where
  /-- The type of types. -/
  | typename
  /-- A placeholder for an argument to be inferred. -/
  | auto
  | bool
  | unit
  | cstr
  /-- The type of memory regions. -/
  | scope
  | int (ty : IntType)
  | lit (b : Bool)
  | num (n : Int)
  | str (s : String)
  | global (g : GlobalName)
deriving DecidableEq, Repr

/-- The forms with one subterm. -/
inductive Unary where
  /-- The proposition that a condition holds. -/
  | trueT
  | addressOf
  | deref
  | scopeOf
  | not
  | member (field : String)
deriving DecidableEq, Repr

/-- The forms with two subterms. -/
inductive Binary where
  /-- Element type and size. -/
  | arrayT
  /-- Element type and region. -/
  | refT
  | subscript
  /-- A value and its justification. -/
  | because
  | logic (op : BoolOp)
  | compare (op : RelOp)
  | arith (op : ArithOp)
deriving DecidableEq, Repr

/-- The binders of the language. -/
inductive Binder where
  | sigma
  | pi
  | abs
deriving DecidableEq, Repr

mutual

/-- A term or type. -/
inductive Term (p : Phase) : Type where
  | mk (note : Note p (Term p)) (form : Form p)

/-- The shape of a term. -/
inductive Form (p : Phase) : Type where
  | atom (a : Atom)
  | var (v : Var)
  | unary (op : Unary) (x : Term p)
  | binary (op : Binary) (x y : Term p)
  | app (f : Term p) (args : List (Term p))
  /-- An initializer list. -/
  | list (xs : List (Term p))
  | bind (k : Binder) (t : Tele p k)

/-- A telescope of arguments, each of which may occur in all that follows it. -/
inductive Tele (p : Phase) : Binder → Type where
  | fields : Tele p .sigma
  | returns (m : Mutability) (ret : Term p) : Tele p .pi
  | runs (m : Mutability) (ret : Term p) (body : List (Stmt p)) : Tele p .abs
  | arg {k : Binder} (mark : Mark p) (qty : Quantity) (ty : Term p) (var : Option Var)
      (rest : Tele p k) : Tele p k

/-- A statement. -/
inductive Stmt (p : Phase) : Type where
  /-- A call whose result is dropped. -/
  | call (mark : Mark p) (x : Term p)
  | ifThen (mark : Mark p) (cond : Term p) (yes : List (Stmt p))
  | ifElse (mark : Mark p) (cond : Term p) (yes no : List (Stmt p))
  | ret (mark : Mark p) (x : Term p)
  | retUnit (mark : Mark p)
  /-- A point that is never reached. -/
  | impossible (mark : Mark p)
  /-- A point that is never reached, for the reason given. -/
  | impossibleBy (mark : Mark p) (reason : Term p)

end

/-- Terms as written. -/
abbrev Written := Term .written

/-- Terms as checked. -/
abbrev Checked := Term .checked

/-- The statements of a function or branch. -/
abbrev Body (p : Phase) := List (Stmt p)

/-- The fields of a struct or sigma type. -/
abbrev Fields (p : Phase) := Tele p .sigma

/-- The signature of a function, the content of a pi type. -/
abbrev Signature (p : Phase) := Tele p .pi

/-- The content of an abstraction. -/
abbrev Function (p : Phase) := Tele p .abs

variable {p : Phase} {k : Binder}

/-! ## Parts of a term -/

/-- What a term carries. -/
def Term.note : Term p → Note p (Term p)
  | .mk n _ => n

/-- The shape of a term. -/
def Term.form : Term p → Form p
  | .mk _ f => f

/-- The sort that a note holds. -/
def Note.sort? {τ : Type} : Note p τ → Option τ
  | .sort ty _ => some ty
  | _ => none

/-- The type of a term, which written terms and `typename` lack. -/
def Term.sort? (t : Term p) : Option (Term p) :=
  t.note.sort?

/-- The place of a written term. -/
def Term.loc : Written → Location
  | .mk (.place loc _) _ => loc

/-- The signature of a term whose sort is a pi type. -/
def Term.piSort? (t : Term p) : Option (Signature p) :=
  match t.sort? with
  | some (.mk _ (.bind .pi s)) => some s
  | _ => none

/-- Whether a term is the boolean literal `b`. -/
def Term.isLit (b : Bool) : Term p → Bool
  | .mk _ (.atom (.lit c)) => c == b
  | _ => false

/-- The place of a written statement. -/
def Stmt.loc : Stmt .written → Location
  | .call m _ | .ifThen m _ _ | .ifElse m _ _ _ | .ret m _ | .retUnit m | .impossible m
  | .impossibleBy m _ => m

/-! ## Parts of a telescope -/

/-- Induction over the arguments of a telescope. -/
theorem Tele.args_induction {P : (k : Binder) → Tele p k → Prop} (fields : P .sigma .fields)
    (returns : ∀ m ret, P .pi (.returns m ret)) (runs : ∀ m ret body, P .abs (.runs m ret body))
    (arg : ∀ (k : Binder) mark qty ty v (rest : Tele p k), P k rest →
      P k (.arg mark qty ty v rest)) : ∀ (k : Binder) (t : Tele p k), P k t
  | _, .arg _ _ _ _ rest => arg _ _ _ _ _ rest (Tele.args_induction fields returns runs arg _ rest)
  | _, .runs _ _ _ => runs _ _ _
  | _, .returns _ _ => returns _ _
  | _, .fields => fields

/-- An argument of a binder. -/
structure Arg (p : Phase) where
  mark : Mark p
  qty : Quantity
  ty : Term p
  var : Option Var

/-- The arguments of a telescope in order. -/
def Tele.args {k : Binder} : Tele p k → List (Arg p)
  | .fields | .returns _ _ | .runs _ _ _ => []
  | .arg mark qty ty var rest => ⟨mark, qty, ty, var⟩ :: rest.args

/-- The number of arguments. -/
def Tele.arity {k : Binder} : Tele p k → Nat
  | .fields | .returns _ _ | .runs _ _ _ => 0
  | .arg _ _ _ _ rest => rest.arity + 1

/-- Whether the function described has effects. -/
def Tele.mutability {k : Binder} : Tele p k → Mutability
  | .fields => .no
  | .returns m _ | .runs m _ _ => m
  | .arg _ _ _ _ rest => rest.mutability

/-- The return type, which a sigma type lacks. -/
def Tele.ret? {k : Binder} : Tele p k → Option (Term p)
  | .fields => none
  | .returns _ ret | .runs _ ret _ => some ret
  | .arg _ _ _ _ rest => rest.ret?

/-- Only a sigma type lacks a return type. -/
theorem Tele.ret?_isSome {k : Binder} (h : k ≠ .sigma) : ∀ t : Tele p k, t.ret?.isSome
  | .fields => absurd rfl h
  | .returns _ _ | .runs _ _ _ => rfl
  | .arg _ _ _ _ rest => rest.ret?_isSome h

/-- The return type of a signature. -/
def Tele.ret (s : Signature p) : Term p :=
  s.ret?.get (Tele.ret?_isSome (k := .pi) nofun s)

/-- The body, which only an abstraction has. -/
def Tele.body? {k : Binder} : Tele p k → Option (Body p)
  | .fields | .returns _ _ => none
  | .runs _ _ body => some body
  | .arg _ _ _ _ rest => rest.body?

/-- The binder that is left when a body is dropped. -/
def Binder.bare : Binder → Binder
  | .sigma => .sigma
  | .pi | .abs => .pi

/-- The telescope without its body: for an abstraction, its signature. -/
def Tele.bare {k : Binder} : Tele p k → Tele p k.bare
  | .fields => .fields
  | .returns m ret | .runs m ret _ => .returns m ret
  | .arg mark qty ty var rest => .arg mark qty ty var rest.bare

/-- The signature of a function. -/
def Tele.signature (f : Function p) : Signature p :=
  f.bare

/-- Put arguments in front of a telescope. -/
def Tele.ofArgs (args : List (Arg p)) (rest : Tele p k) : Tele p k :=
  args.foldr (fun a t => .arg a.mark a.qty a.ty a.var t) rest

/-! ## Direct subterms -/

/-- The direct subterms of a term, without those in the body of an abstraction: for a binder, the
argument types and then the return type. -/
def Form.children : Form p → List (Term p)
  | .atom _ | .var _ => []
  | .unary _ x => [x]
  | .binary _ x y => [x, y]
  | .app f args => f :: args
  | .list xs => xs
  | .bind _ t => t.args.map (·.ty) ++ t.ret?.toList

end DependentCore
