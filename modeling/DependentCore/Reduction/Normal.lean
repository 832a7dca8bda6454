import DependentCore.Binding.Alpha
import DependentCore.Reduction.Beta
import DependentCore.Reduction.Fold
import DependentCore.Reduction.Prune

/-!
# Normalisation

Checked trees are rewritten until nothing changes: the parts of a tree first, then beta reduction,
folding and the unfolding of global definitions at its root. In bodies, unreachable statements are
deleted and known outcomes pruned.

Unfolding is tentative: a call is replaced by the definition, normalised, and the result is kept
only if it is no longer an applied abstraction. A definition in the course of being unfolded is
unfolded again only at literal arguments; the nesting and the number of attempts are limited by the
environment.

Rewriting need not end, so each function has a bound `fuel` on the depth of its calls, and gives no
result if the bound is exceeded. More fuel never changes a result. The state `Rewriting` is the
number of attempts to unfold that are left.

* `normalizeTerm`, `normalizeBody`: the normal form and whether it differs,
* `Env.normalize?`, `Env.normalizeBody?`, `Env.normalizeUnit?`: normalisation with the attempts
  that the environment allows.
-/

namespace DependentCore

variable [c : Indexing]

/-- A rewriting that counts down the attempts to unfold, and that may run out of fuel. -/
abbrev Rewriting := StateT Nat Option

/-- Whether an atom is a literal or a primitive type. -/
def Atom.isValue : Atom → Bool
  | .auto | .global _ => false
  | _ => true

mutual

/-- Whether a term is a literal value: a literal, a primitive type or a list of such. -/
def Term.isValue {p : Phase} : Term p → Bool
  | .mk _ form => form.isValue

/-- Whether a form is a literal value. -/
def Form.isValue {p : Phase} : Form p → Bool
  | .atom a => a.isValue
  | .list xs => isValueList xs
  | .var _ | .unary _ _ | .binary _ _ _ | .app _ _ | .bind _ _ => false

/-- Whether all terms of a list are literal values. -/
def isValueList {p : Phase} : List (Term p) → Bool
  | [] => true
  | x :: xs => x.isValue && isValueList xs

end

/-- Whether a term is still an applied abstraction. -/
def Term.isStuck : Checked → Bool
  | .mk _ (.app ⟨_, .bind .abs _⟩ _) => true
  | _ => false

/-- The definition to unfold at the root of a term with that definition put in its place: a call of
a defined function without effects, not nested too deeply, and with literal arguments if the
function is being unfolded already. -/
def Term.unfolding? (env : Env) (stack : List GlobalName) (t : Checked) :
    Option (GlobalName × Checked) :=
  match t with
  | .mk note (.app (.mk fnote (.atom (.global g))) args) =>
    match env.function? g with
    | some f =>
      if env.inlineGlobals && !t.hasEffect && stack.length < env.unfoldLimit
          && (!stack.contains g || isValueList args) then
        some (g, .mk note (.app (.mk fnote (.bind .abs f)) args))
      else none
    | none => none
  | _ => none

mutual

/-- Rewrite a term until nothing changes. -/
def normalizeTerm (env : Env) (fuel : Nat) (stack : List GlobalName) (t : Checked) :
    Rewriting (Rewritten Checked) :=
  match fuel with
  | 0 => failure
  | n + 1 => do
    let parts ← normalizeParts env n stack t
    let beta := Rewritten.ofStep parts.result parts.result.beta?
    let fold := Rewritten.ofStep beta.result (beta.result.fold? env)
    let unfold ← unfoldCall env n stack fold.result
    if parts.changed || beta.changed || fold.changed || unfold.changed then
      let again ← normalizeTerm env n stack unfold.result
      return ⟨again.result, true⟩
    else
      return ⟨unfold.result, false⟩

/-- Normalise the parts of a term. -/
def normalizeParts (env : Env) (fuel : Nat) (stack : List GlobalName) (t : Checked) :
    Rewriting (Rewritten Checked) :=
  match fuel with
  | 0 => failure
  | n + 1 => do
    let ⟨note, form⟩ := t
    match form with
    | .atom _ | .var _ => return ⟨t, false⟩
    | .unary op x => do
      let x ← normalizeTerm env n stack x
      return x.map fun x => .mk note (.unary op x)
    | .binary op x y => do
      let x ← normalizeTerm env n stack x
      let y ← normalizeTerm env n stack y
      return x.map₂ (fun x y => .mk note (.binary op x y)) y
    | .app f args => do
      let f ← normalizeTerm env n stack f
      let args ← normalizeList env n stack args
      return f.map₂ (fun f args => .mk note (.app f args)) args
    | .list xs => do
      let xs ← normalizeList env n stack xs
      return xs.map fun xs => .mk note (.list xs)
    | .bind k tele => do
      let tele ← normalizeTele env n stack tele
      return tele.map fun tele => .mk note (.bind k tele)

/-- Normalise the terms of a list. -/
def normalizeList (env : Env) (fuel : Nat) (stack : List GlobalName) (xs : List Checked) :
    Rewriting (Rewritten (List Checked)) :=
  match fuel, xs with
  | 0, _ => failure
  | _ + 1, [] => return ⟨[], false⟩
  | n + 1, x :: xs => do
    let x ← normalizeTerm env n stack x
    let xs ← normalizeList env n stack xs
    return x.map₂ List.cons xs

/-- Normalise the types and the body of a telescope. -/
def normalizeTele {k : Binder} (env : Env) (fuel : Nat) (stack : List GlobalName)
    (t : Tele .checked k) : Rewriting (Rewritten (Tele .checked k)) :=
  match fuel, t with
  | 0, _ => failure
  | _ + 1, .fields => return ⟨.fields, false⟩
  | n + 1, .returns m ret => do
    let ret ← normalizeTerm env n stack ret
    return ret.map fun ret => .returns m ret
  | n + 1, .runs m ret body => do
    let ret ← normalizeTerm env n stack ret
    let body ← normalizeBody env n stack body
    return ret.map₂ (fun ret body => .runs m ret body) body
  | n + 1, .arg mark qty ty v rest => do
    let ty ← normalizeTerm env n stack ty
    let rest ← normalizeTele env n stack rest
    return ty.map₂ (fun ty rest => .arg mark qty ty v rest) rest

/-- Try to unfold the definition called at the root of a term. An attempt is spent even if its
result is not kept. -/
def unfoldCall (env : Env) (fuel : Nat) (stack : List GlobalName) (t : Checked) :
    Rewriting (Rewritten Checked) :=
  match fuel with
  | 0 => failure
  | n + 1 => do
    match t.unfolding? env stack, ← get with
    | some (g, call), attempts + 1 => do
      set attempts
      let u ← normalizeTerm env n (g :: stack) call
      if u.result.isStuck || u.result.alphaEq t then
        return ⟨t, false⟩
      else
        return ⟨u.result, true⟩
    | _, _ => return ⟨t, false⟩

/-- Rewrite a body until nothing changes. -/
def normalizeBody (env : Env) (fuel : Nat) (stack : List GlobalName) (b : Body .checked) :
    Rewriting (Rewritten (Body .checked)) :=
  match fuel with
  | 0 => failure
  | n + 1 => do
    let live := dropUnreachable b
    let stmts ← normalizeStmts env n stack live.result
    let pruned := pruneStmts stmts.result
    if live.changed || stmts.changed || pruned.changed then
      let again ← normalizeBody env n stack pruned.result
      return ⟨again.result, true⟩
    else
      return ⟨pruned.result, false⟩

/-- Normalise the statements of a body, up to the first that always terminates: the others are
deleted in the next round. -/
def normalizeStmts (env : Env) (fuel : Nat) (stack : List GlobalName) (b : Body .checked) :
    Rewriting (Rewritten (Body .checked)) :=
  match fuel, b with
  | 0, _ => failure
  | _ + 1, [] => return ⟨[], false⟩
  | n + 1, s :: rest => do
    let s ← normalizeStmt env n stack s
    if s.result.stops then
      return s.map fun s => s :: rest
    else
      let rest ← normalizeStmts env n stack rest
      return s.map₂ List.cons rest

/-- Normalise a statement. -/
def normalizeStmt (env : Env) (fuel : Nat) (stack : List GlobalName) (s : Stmt .checked) :
    Rewriting (Rewritten (Stmt .checked)) :=
  match fuel, s with
  | 0, _ => failure
  | n + 1, .call m x => do
    let x ← normalizeTerm env n stack x
    return x.map fun x => .call m x
  | n + 1, .ifThen m cond yes => do
    let cond ← normalizeTerm env n stack cond
    let yes ← normalizeBody env n stack yes
    return cond.map₂ (fun cond yes => .ifThen m cond yes) yes
  | n + 1, .ifElse m cond yes no => do
    let cond ← normalizeTerm env n stack cond
    let yes ← normalizeBody env n stack yes
    let no ← normalizeBody env n stack no
    return (cond.map₂ (fun cond yes => Stmt.ifElse m cond yes) yes).map₂ (fun s no => s no) no
  | n + 1, .ret m x => do
    let x ← normalizeTerm env n stack x
    return x.map fun x => .ret m x
  | _ + 1, .retUnit m => return ⟨.retUnit m, false⟩
  | _ + 1, .impossible m => return ⟨.impossible m, false⟩
  | n + 1, .impossibleBy m x => do
    let x ← normalizeTerm env n stack x
    return x.map fun x => .impossibleBy m x

end

/-! ## Entry points -/

/-- The normal form of a term. -/
def Env.normalize? (env : Env) (fuel : Nat) (t : Checked) : Option Checked :=
  ((normalizeTerm env fuel [] t).run env.unfoldFuel).map (·.1.result)

/-- The normal form of a body, where `stack` are the definitions being unfolded. -/
def Env.normalizeBody? (env : Env) (fuel : Nat) (stack : List GlobalName) (b : Body .checked) :
    Option (Body .checked) :=
  ((normalizeBody env fuel stack b).run env.unfoldFuel).map (·.1.result)

/-- Apply a function that may fail to the body of a telescope. -/
def Tele.mapBody? {p : Phase} {k : Binder} (f : Body p → Option (Body p)) :
    Tele p k → Option (Tele p k)
  | .fields => some .fields
  | .returns m ret => some (.returns m ret)
  | .runs m ret body => (f body).map (.runs m ret ·)
  | .arg mark qty ty v rest => (rest.mapBody? f).map (.arg mark qty ty v ·)

/-- Normalise the body of an entry that defines a function. Its calls to itself are unfolded only
at literal arguments. -/
def Env.normalizeEntry? (env : Env) (fuel : Nat) (e : Entry .checked) : Option (Entry .checked) :=
  match e.item with
  | .defined f =>
    (f.mapBody? (env.normalizeBody? fuel [{ name := e.name }])).map fun f =>
      { e with item := .defined f }
  | _ => some e

/-- Normalise the functions that a compilation unit defines. -/
def Env.normalizeUnit? (env : Env) (fuel : Nat) (entries : List (Entry .checked)) :
    Option (List (Entry .checked)) :=
  entries.mapM (env.normalizeEntry? fuel)

end DependentCore
