import DependentCore.Flow.Reachability
import DependentCore.Typing.Entailment
import DependentCore.Typing.Matching
import DependentCore.Typing.Rules

/-!
# Checking terms

Written trees are turned into checked ones. Checking is bidirectional: the `Mode` says whether the
type of a term is to be determined, or the term is checked against a type. Numeric literals and
initializer lists can only be checked against a type.

* `Term.elaborate`: check a term,
* `Tele.elaborate`: check the arguments of a binder and declare them, then what stands under them,
* `Stmt.elaborate`, `elaborateStmts`: check statements; conditions are assumed in the branches they
  guard, and after an `if` one branch of which always returns,
* `elaborateArgs`: check the arguments of a call, each against a type into which the earlier ones
  have been substituted,
* `resolveAuto`: find an argument that was left out.

All recursion is on the written tree. The `fuel` is passed on to the normalisation of types.
-/

namespace DependentCore

variable [c : Indexing]

/-- What is asked of a term. -/
inductive Mode where
  /-- Determine its type. -/
  | assign
  /-- Check it against a type. -/
  | check (expected : Checked)
  /-- Check that it is a type. Also `typename` is one, which has no type itself. -/
  | type

/-- The type that a term is checked against. -/
def Mode.expected? : Mode → Option Checked
  | .assign => none
  | .check ty => some ty
  | .type => some Checked.typename

/-! ## Parts of the rules -/

/-- The type of a checked term, which must not be `typename`. -/
def typeOf (ctx : Context) (loc : Location) (t : Checked) : Check Checked :=
  match t.sort? with
  | some ty => .ok ty
  | none => reject .typenameAsTerm loc ctx

/-- A term whose type was determined, compared with the type that was expected. -/
def conclude (fuel : Nat) (env : Env) (ctx : Context) (loc : Location) (mode : Mode)
    (t : Checked) : Check Checked :=
  match mode.expected? with
  | none => .ok t
  | some expected => do
    let ty ← typeOf ctx loc t
    if ← env.equivalent fuel ty expected then
      return t
    else
      reject (.mismatch ty expected) loc ctx (some expected)

/-- A numeric literal as a value of a type. -/
def elaborateNumeral (env : Env) (ctx : Context) (loc : Location) (n : Int) (expected : Checked) :
    Check Checked :=
  match env.intType? expected with
  | none => reject (.numeralType expected) loc ctx (some expected)
  | some t =>
    if t.contains n then
      .ok (Checked.term expected (.atom (.num n)))
    else
      reject (.numeralRange expected) loc ctx (some expected)

/-- A reference to a global: a type, or a function with its signature. -/
def assignGlobal (env : Env) (ctx : Context) (loc : Location) (g : GlobalName) : Check Checked :=
  match env.get? g with
  | some e =>
    match e.item.signature? with
    | some s => .ok (Checked.term (Checked.pi s) (.atom (.global g)))
    | none => .ok (Checked.type (.atom (.global g)))
  | none =>
    if env.isBuiltinSlice g then
      .ok (Checked.term (Checked.pi Checked.slice) (.atom (.global g)))
    else
      reject (.unboundGlobal g) loc ctx

/-- An atom whose type is determined. -/
def assignAtom (env : Env) (ctx : Context) (loc : Location) : Atom → Check Checked
  | .typename => .ok Checked.typename
  | .auto => reject .autoUnknown loc ctx
  | .lit b => .ok (Checked.term Checked.bool (.atom (.lit b)))
  | .num _ => reject .numeralAlone loc ctx
  | .str s => .ok (Checked.term (Checked.type (.atom .cstr)) (.atom (.str s)))
  | .global g => assignGlobal env ctx loc g
  | a => .ok (Checked.type (.atom a))

/-- A variable: a type, or a term of its declared type. -/
def assignVar (ctx : Context) (loc : Location) (v : Var) : Check Checked :=
  match ctx.lookup? v with
  | some ⟨_, .type⟩ => .ok (Checked.type (.var v))
  | some ⟨_, .term _ ty⟩ => .ok (Checked.term ty (.var v))
  | none => reject (.unboundVar v) loc ctx

/-- An atom in a mode. -/
def elaborateAtom (fuel : Nat) (env : Env) (ctx : Context) (loc : Location) (mode : Mode)
    (a : Atom) : Check Checked :=
  match a, mode with
  | .typename, .type => .ok Checked.typename
  | .num n, mode =>
    match mode.expected? with
    | some expected => elaborateNumeral env ctx loc n expected
    | none => assignAtom env ctx loc (.num n)
  | a, mode => do conclude fuel env ctx loc mode (← assignAtom env ctx loc a)

/-- The type of the first field that is a target, where `access` gives the term that stands for an
earlier field. The number bounds the fields, and `i` is the position of the first one. -/
def typeOfField? (target : Nat → Option Var → Bool) (access : Nat → Option Var → Form .checked) :
    Nat → Nat → Fields .checked → Option Checked
  | n + 1, i, .arg _ _ ty v rest =>
    if target i v then some ty
    else typeOfField? target access n (i + 1) (rest.instantiate v (Checked.term ty (access i v)))
  | _, _, _ => none

/-- The type of the member of a given name of `x`. -/
def memberType? (x : Checked) (field : String) (fs : Fields .checked) : Option Checked :=
  typeOfField? (fun _ v => v.map (·.name) = some field)
    (fun _ v => .unary (.member ((v.map (·.name)).getD "")) x) fs.arity 0 fs

/-- The type of the field of `x` at a position. -/
def positionType? (x : Checked) (pos : Nat) (fs : Fields .checked) : Option Checked :=
  typeOfField? (fun i _ => i = pos)
    (fun i _ => .binary .subscript x (Checked.term Checked.u64 (.atom (.num i)))) fs.arity 0 fs

/-- The access to a member. -/
def assignMember (env : Env) (ctx : Context) (loc : Location) (x : Checked) (field : String) :
    Check Checked := do
  let ty ← typeOf ctx loc x
  match env.fields? ty with
  | none => reject (.noMembers ty) loc ctx
  | some fs =>
    match memberType? x field fs with
    | none => reject (.noMember field) loc ctx
    | some ty => return Checked.term ty (.unary (.member field) x)

/-- Declare an argument, as a type if its type is `typename`. -/
def declareArg (ctx : Context) (loc : Location) (qty : Quantity) (ty : Checked) (v : Option Var) :
    Check Context :=
  match v with
  | none => .ok ctx
  | some v =>
    let meaning : Meaning :=
      match ty.form with
      | .atom .typename => .type
      | _ => .term qty ty
    match ctx.declare v ⟨some loc, meaning⟩ with
    | .ok ctx => .ok ctx
    | .error c => .error (.rejected ⟨.conflict c, some loc, ctx, none⟩)

/-- What is known after a statement: if just one way through an `if` goes on, its condition. -/
def Stmt.learn (ctx : Context) : Stmt .checked → Context
  | .ifThen _ cond yes => if returnsAlways yes then ctx.assume (Checked.not cond) else ctx
  | .ifElse _ cond yes no =>
    if returnsAlways no && !returnsAlways yes then ctx.assume cond else ctx
  | _ => ctx

/-- Whether a type is the unit type, whose functions need no `return`. -/
def Term.isUnit {p : Phase} : Term p → Bool
  | .mk _ (.atom .unit) => true
  | _ => false

/-- Whether a term is a placeholder. -/
def Term.isAuto {p : Phase} : Term p → Bool
  | .mk _ (.atom .auto) => true
  | _ => false

/-- Whether a term is a call. -/
def Term.isCall {p : Phase} : Term p → Bool
  | .mk _ (.app _ _) => true
  | _ => false

/-- Whether a term is a variable. -/
def Term.isVar {p : Phase} : Term p → Bool
  | .mk _ (.var _) => true
  | _ => false

/-- Whether a term can only be checked against a type. -/
def Term.needsType {p : Phase} : Term p → Bool
  | .mk _ (.atom (.num _)) | .mk _ (.list _) | .mk _ (.atom .auto) => true
  | _ => false

/-- Whether a comparison needs an order. -/
def RelOp.isOrdered : RelOp → Bool
  | .eq | .neq => false
  | .lt | .lte | .gt | .gte => true

/-- Determine the type of one operand and check the other one against it, where `goX` and `goY`
check the operands. The second operand comes first if only the first one needs a type. -/
def elaboratePair (ctx : Context) (x y : Written) (goX goY : Mode → Check Checked) :
    Check (Checked × Checked) :=
  if x.needsType && !y.needsType then do
    let y' ← goY .assign
    let x' ← goX (.check (← typeOf ctx y.loc y'))
    return (x', y')
  else do
    let x' ← goX .assign
    let y' ← goY (.check (← typeOf ctx x.loc x'))
    return (x', y')

/-- Check an initializer list of the given length for a type, where `goElements` checks its
elements against one type and `goFields` checks them as fields. -/
def elaborateList (fuel : Nat) (env : Env) (ctx : Context) (loc : Location) (expected : Checked)
    (length : Nat) (goElements : Checked → Check (List Checked))
    (goFields : Fields .checked → Check (List Checked)) : Check (List Checked) :=
  match expected.form, length with
  | .binary .arrayT elem size, _ => do
    match (← env.normal fuel size).form with
    | .atom (.num n) =>
      if n = length then
        goElements elem
      else
        reject (.listLength length n) loc ctx (some expected)
    | _ => reject (.unknownSize expected) loc ctx (some expected)
  | .atom .unit, 0 => return []
  | .unary .trueT cond, 0 => do
    if ← env.provable fuel ctx cond then
      return []
    else
      reject (.notProvable cond) loc ctx (some expected)
  | _, _ =>
    match env.fields? expected with
    | some fs =>
      if length ≠ fs.arity then
        reject (.listLength length fs.arity) loc ctx
      else
        goFields fs
    | none => reject (.listType expected) loc ctx (some expected)

/-! ## The rules -/

mutual

/-- Check a term. -/
def Term.elaborate (fuel : Nat) (env : Env) (ctx : Context) (mode : Mode) :
    Written → Check Checked
  | .mk (.place loc _) form => form.elaborate fuel env ctx loc mode

/-- Check a form at a place. -/
def Form.elaborate (fuel : Nat) (env : Env) (ctx : Context) (loc : Location) (mode : Mode) :
    Form .written → Check Checked
  | .atom a => elaborateAtom fuel env ctx loc mode a
  | .var v => do conclude fuel env ctx loc mode (← assignVar ctx loc v)
  | .unary .trueT x => do
    let x ← x.elaborate fuel env ctx (.check Checked.bool)
    conclude fuel env ctx loc mode (Checked.type (.unary .trueT x))
  | .unary .addressOf x =>
    if x.isVar then do
      let x ← x.elaborate fuel env ctx .assign
      let ty ← typeOf ctx loc x
      let ref := Checked.type (.binary .refT ty (Checked.scopeOf x))
      conclude fuel env ctx loc mode (Checked.term ref (.unary .addressOf x))
    else
      reject .notAddressable loc ctx
  | .unary .deref x => do
    let x ← x.elaborate fuel env ctx .assign
    match (← typeOf ctx loc x).form with
    | .binary .refT ty _ => conclude fuel env ctx loc mode (Checked.term ty (.unary .deref x))
    | _ => reject .notReference loc ctx
  | .unary .scopeOf x => do
    let x ← x.elaborate fuel env ctx .assign
    conclude fuel env ctx loc mode (Checked.scopeOf x)
  | .unary .not x => do
    let x ← x.elaborate fuel env ctx (.check Checked.bool)
    conclude fuel env ctx loc mode (Checked.not x)
  | .unary (.member field) x => do
    let x ← x.elaborate fuel env ctx .assign
    conclude fuel env ctx loc mode (← assignMember env ctx loc x field)
  | .binary .arrayT ty size => do
    let ty ← ty.elaborate fuel env ctx .type
    let size ← size.elaborate fuel env ctx (.check Checked.u64)
    conclude fuel env ctx loc mode (Checked.type (.binary .arrayT ty size))
  | .binary .refT ty scope => do
    let ty ← ty.elaborate fuel env ctx .type
    let scope ← scope.elaborate fuel env ctx (.check Checked.scope)
    conclude fuel env ctx loc mode (Checked.type (.binary .refT ty scope))
  | .binary .subscript x i => do
    let x ← x.elaborate fuel env ctx .assign
    let ty ← typeOf ctx loc x
    match ty.form with
    | .binary .arrayT elem _ => do
      let i ← i.elaborate fuel env ctx (.check Checked.u64)
      conclude fuel env ctx loc mode (Checked.term elem (.binary .subscript x i))
    | .bind .sigma fs =>
      match i.form with
      | .atom (.num n) =>
        match position? n with
        | none => reject .sigmaIndex loc ctx
        | some pos => do
          let i ← i.elaborate fuel env ctx (.check Checked.u64)
          match positionType? x pos fs with
          | none => reject .indexRange loc ctx
          | some ty => conclude fuel env ctx loc mode (Checked.term ty (.binary .subscript x i))
      | _ => reject .sigmaIndex loc ctx
    | _ => reject (.notIndexed ty) loc ctx
  | .binary .because x reason => do
    let reason ← reason.elaborate fuel env ctx (.check Checked.bool)
    let ctx := ctx.newScope.assume reason
    match mode.expected? with
    | none => do
      let x ← x.elaborate fuel env ctx .assign
      let ty ← typeOf ctx loc x
      return Checked.term ty (.binary .because x reason)
    | some expected => do
      let x ← x.elaborate fuel env ctx (.check expected)
      return Checked.term expected (.binary .because x reason)
  | .binary (.logic op) x y => do
    let x ← x.elaborate fuel env ctx (.check Checked.bool)
    let y ← y.elaborate fuel env ctx (.check Checked.bool)
    conclude fuel env ctx loc mode (Checked.term Checked.bool (.binary (.logic op) x y))
  | .binary (.compare op) x y => do
    let (x, y) ← elaboratePair ctx x y (x.elaborate fuel env ctx ·) (y.elaborate fuel env ctx ·)
    let ty ← typeOf ctx loc x
    if op.isOrdered && (env.intType? ty).isNone then
      reject (.notOrdered ty op) loc ctx
    else
      conclude fuel env ctx loc mode (Checked.term Checked.bool (.binary (.compare op) x y))
  | .binary (.arith op) x y =>
    match mode.expected?.filter fun ty => (env.intType? ty).isSome with
    | some expected => do
      let x ← x.elaborate fuel env ctx (.check expected)
      let y ← y.elaborate fuel env ctx (.check expected)
      return Checked.term expected (.binary (.arith op) x y)
    | none => do
      let (x, y) ← elaboratePair ctx x y (x.elaborate fuel env ctx ·) (y.elaborate fuel env ctx ·)
      let ty ← typeOf ctx loc x
      if (env.intType? ty).isNone then
        reject (.notArithmetic ty) loc ctx
      else
        conclude fuel env ctx loc mode (Checked.term ty (.binary (.arith op) x y))
  | .app f args => do
    let f ← f.elaborate fuel env ctx .assign
    match f.piSort? with
    | none => reject (.notFunction f.sort?) loc ctx
    | some s =>
      if s.mutability = .yes ∧ ctx.mutability = .no then
        reject .effectInPure loc ctx
      else if s.arity ≠ args.length then
        reject (.argumentCount s.arity args.length) loc ctx
      else do
        let (actuals, rest) ← elaborateArgs fuel env ctx args s
        conclude fuel env ctx loc mode (Checked.term rest.ret (.app f actuals))
  | .list xs =>
    match mode.expected? with
    | none => reject .listAlone loc ctx
    | some expected => do
      let xs ← elaborateList fuel env ctx loc expected xs.length
        (elaborateElements fuel env ctx · xs) (elaborateFields fuel env ctx xs ·)
      return Checked.term expected (.list xs)
  | .bind .sigma fs => do
    let fs ← fs.elaborate fuel env ctx.newScope loc
    conclude fuel env ctx loc mode (Checked.type (.bind .sigma fs))
  | .bind .pi s => do
    let s ← s.elaborate fuel env ctx.newScope loc
    conclude fuel env ctx loc mode (Checked.pi s)
  | .bind .abs f => do
    let f ← f.elaborate fuel env (ctx.newScopeOf f.mutability) loc
    conclude fuel env ctx loc mode (Checked.term (Checked.pi f.signature) (.bind .abs f))

/-- Check the elements of an array. -/
def elaborateElements (fuel : Nat) (env : Env) (ctx : Context) (ty : Checked) :
    List Written → Check (List Checked)
  | [] => return []
  | x :: xs => do
    let x ← x.elaborate fuel env ctx (.check ty)
    let xs ← elaborateElements fuel env ctx ty xs
    return x :: xs

/-- Check the fields of a struct, each against a type into which the earlier ones have been
substituted. -/
def elaborateFields (fuel : Nat) (env : Env) (ctx : Context) :
    List Written → Fields .checked → Check (List Checked)
  | x :: xs, .arg _ _ ty v rest => do
    let x ← x.elaborate fuel env ctx (.check ty)
    let xs ← elaborateFields fuel env ctx xs (rest.instantiate v x)
    return x :: xs
  | _, _ => return []

/-- Check the arguments of a call, each against a type into which the earlier ones have been
substituted. The result is the arguments and what is left of the signature. -/
def elaborateArgs (fuel : Nat) (env : Env) (ctx : Context) :
    List Written → Signature .checked → Check (List Checked × Signature .checked)
  | x :: xs, .arg _ _ ty v rest => do
    let x ←
      if x.isAuto then resolveAuto fuel env ctx x.loc ty v xs rest
      else x.elaborate fuel env ctx (.check ty)
    let (xs, s) ← elaborateArgs fuel env ctx xs (rest.instantiate v x)
    return (x :: xs, s)
  | _, s => return ([], s)

/-- Find an argument `v` of type `ty` by matching the declared types of the later arguments against
the types they have. A later argument whose type cannot be determined is passed over. -/
def resolveAuto (fuel : Nat) (env : Env) (ctx : Context) (loc : Location) (ty : Checked)
    (v : Option Var) : List Written → Signature .checked → Check Checked
  | x :: xs, .arg _ _ formal _ rest =>
    match v with
    | none => reject .autoUnknown loc ctx
    | some v =>
      if x.isAuto then
        resolveAuto fuel env ctx loc ty (some v) xs rest
      else
        match x.elaborate fuel env ctx .assign with
        | .error .outOfFuel => .error .outOfFuel
        | .error (.rejected _) => resolveAuto fuel env ctx loc ty (some v) xs rest
        | .ok x =>
          match x.sort?.bind (formal.match? v ·) with
          | none => resolveAuto fuel env ctx loc ty (some v) xs rest
          | some value =>
            match value.sort? with
            | none => reject .autoUnknown loc ctx (some ty)
            | some sort => do
              if ← env.equivalent fuel sort ty then
                return value
              else
                reject .autoUnknown loc ctx (some ty)
  | _, _ => reject .autoUnknown loc ctx

/-- Check the types of the arguments of a telescope, each in a context that declares the earlier
ones, and then what stands under them. -/
def Tele.elaborate {k : Binder} (fuel : Nat) (env : Env) (ctx : Context) (loc : Location) :
    Tele .written k → Check (Tele .checked k)
  | .fields => return .fields
  | .returns m ret => do
    let ret ← ret.elaborate fuel env ctx .type
    return .returns m ret
  | .runs m ret body => do
    let ret ← ret.elaborate fuel env ctx .type
    let body ← elaborateStmts fuel env ctx.newScope ret body
    if ret.isUnit || returnsAlways body then
      return .runs m ret body
    else
      reject .missingReturn loc ctx (some ret)
  | .arg mark qty ty v rest => do
    let ty ← ty.elaborate fuel env ctx .type
    let ctx ← declareArg ctx mark qty ty v
    let rest ← rest.elaborate fuel env ctx loc
    return .arg () qty ty v rest

/-- Check a statement of a function with the given return type. -/
def Stmt.elaborate (fuel : Nat) (env : Env) (ctx : Context) (ret : Checked) :
    Stmt .written → Check (Stmt .checked)
  | .call loc x =>
    if x.isCall then do
      let x ← x.elaborate fuel env ctx .assign
      return .call () x
    else
      reject .notACall loc ctx
  | .ifThen _ cond yes => do
    let cond ← cond.elaborate fuel env ctx (.check Checked.bool)
    let yes ← elaborateStmts fuel env (ctx.newScope.assume cond).newScope ret yes
    return .ifThen () cond yes
  | .ifElse _ cond yes no => do
    let cond ← cond.elaborate fuel env ctx (.check Checked.bool)
    let yes ← elaborateStmts fuel env (ctx.newScope.assume cond).newScope ret yes
    let no ← elaborateStmts fuel env (ctx.newScope.assume (Checked.not cond)).newScope ret no
    return .ifElse () cond yes no
  | .ret _ x => do
    let x ← x.elaborate fuel env ctx (.check ret)
    return .ret () x
  | .retUnit loc =>
    if ret.isUnit then
      return .retUnit ()
    else
      reject (.missingValue ret) loc ctx (some ret)
  | .impossible loc => do
    if contradictory (← env.facts fuel ctx) then
      return .impossible ()
    else
      reject .maybeReachable loc ctx
  | .impossibleBy _ reason => do
    let reason ← reason.elaborate fuel env ctx .assign
    return .impossibleBy () reason

/-- Check the statements of a body one after the other. -/
def elaborateStmts (fuel : Nat) (env : Env) (ctx : Context) (ret : Checked) :
    List (Stmt .written) → Check (List (Stmt .checked))
  | [] => return []
  | s :: rest => do
    let s ← s.elaborate fuel env ctx ret
    let rest ← elaborateStmts fuel env (s.learn ctx) ret rest
    return s :: rest

end

/-! ## Entry points -/

/-- Determine the type of a term. -/
def Env.assign (env : Env) (fuel : Nat) (ctx : Context) (t : Written) : Check Checked :=
  t.elaborate fuel env ctx .assign

/-- Check a term against a type. -/
def Env.check (env : Env) (fuel : Nat) (ctx : Context) (t : Written) (expected : Checked) :
    Check Checked :=
  t.elaborate fuel env ctx (.check expected)

/-- Check that a term is a type. -/
def Env.checkType (env : Env) (fuel : Nat) (ctx : Context) (t : Written) : Check Checked :=
  t.elaborate fuel env ctx .type

/-- Check a body with the given return type, in a scope of its own. -/
def Env.checkBody (env : Env) (fuel : Nat) (ctx : Context) (b : Body .written) (ret : Checked) :
    Check (Body .checked) :=
  elaborateStmts fuel env ctx.newScope ret b

end DependentCore
