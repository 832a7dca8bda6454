import DependentCore.Binding.Alpha
import DependentCore.Binding.Free

/-!
# Terms without bound names

The nameless form of a term says for each variable where it is bound, and forgets by which name.
Binders are counted from the inside; an argument without a name is counted like any other, but no
variable refers to it. Variables that are not bound keep their name and index. What nodes carry is
dropped.

* `resolve`: the nearest binder of a variable,
* `Term.nameless`: the nameless form of a term, under binders that are listed from the inside,
* `Term.boundVars`: the variables that the nameless form forgets,
* `Term.alphaEqUnder_iff`: `alphaEqUnder` compares nameless forms, each under the binders of its own
  side. So the pairs that it keeps are two lists of binders, walked in step,
* `Term.occursFree_nameless`: the nameless form of a written term has the free variables of the
  term.
-/

namespace DependentCore

variable {p : Phase}

/-! ## Variables -/

/-- What a variable refers to: the binder at a position, counted from the inside, or, if no binder
around it has its name, itself. -/
inductive Reference where
  | bound (position : Nat)
  | free (x : Var)
deriving DecidableEq, Repr

/-- The same reference, seen from under one more binder. -/
def Reference.under : Reference → Reference
  | .bound i => .bound (i + 1)
  | .free x => .free x

theorem Reference.under_inj {a b : Reference} : a.under = b.under ↔ a = b := by
  cases a <;> cases b <;> simp [Reference.under]

theorem Reference.bound_zero_ne_under (a : Reference) : Reference.bound 0 ≠ a.under := by
  cases a <;> simp [Reference.under]

theorem Reference.under_eq_free {a : Reference} {x : Var} : a.under = .free x ↔ a = .free x := by
  cases a <;> simp [Reference.under]

/-- The nearest binder of a variable. -/
def resolve : List (Option Var) → Var → Reference
  | [], x => .free x
  | v :: outer, x => if v = some x then .bound 0 else (resolve outer x).under

/-- A variable refers to itself if no binder has its name. -/
theorem resolve_eq_free {bound : List (Option Var)} {y x : Var} :
    resolve bound y = .free x ↔ y = x ∧ some y ∉ bound := by
  induction bound with
  | nil => simp [resolve]
  | cons v outer ih =>
    by_cases hv : v = some y
    · simp [resolve, hv]
    · simp [resolve, hv, Ne.symm hv, Reference.under_eq_free, ih]

/-- Two variables are taken for the same under paired binders if each is bound where the other
is. -/
theorem Paired.sameVar_iff {st : Paired} {x y : Var} :
    st.sameVar x y ↔ resolve (st.map (·.1)) x = resolve (st.map (·.2)) y := by
  induction st with
  | nil => simp [Paired.sameVar, resolve]
  | cons pair outer ih =>
    obtain ⟨a, b⟩ := pair
    simp only [Paired.sameVar, List.map_cons, resolve]
    by_cases ha : a = some x
    · by_cases hb : b = some y
      · simp [ha, hb]
      · simpa [ha, hb] using Reference.bound_zero_ne_under _
    · by_cases hb : b = some y
      · simpa [ha, hb] using (Reference.bound_zero_ne_under _).symm
      · simpa [ha, hb, Reference.under_inj] using ih

/-! ## Trees -/

mutual

/-- A term without bound names. -/
inductive Nameless where
  | atom (a : Atom)
  | var (ref : Reference)
  | unary (op : Unary) (x : Nameless)
  | binary (op : Binary) (x y : Nameless)
  | app (f : Nameless) (args : List Nameless)
  | list (xs : List Nameless)
  | bind (t : NamelessTele)

/-- A telescope without bound names. Its end tells which binder it belongs to. -/
inductive NamelessTele where
  | fields
  | returns (m : Mutability) (ret : Nameless)
  | runs (m : Mutability) (ret : Nameless) (body : List NamelessStmt)
  | arg (qty : Quantity) (ty : Nameless) (rest : NamelessTele)

/-- A statement without bound names. -/
inductive NamelessStmt where
  | call (x : Nameless)
  | ifThen (cond : Nameless) (yes : List NamelessStmt)
  | ifElse (cond : Nameless) (yes no : List NamelessStmt)
  | ret (x : Nameless)
  | retUnit
  | impossible
  | impossibleBy (reason : Nameless)

end

mutual

/-- The nameless form of a term under binders that are listed from the inside. -/
def Term.nameless (bound : List (Option Var)) : Term p → Nameless
  | .mk _ form => form.nameless bound

/-- The nameless form of a form. -/
def Form.nameless (bound : List (Option Var)) : Form p → Nameless
  | .atom a => .atom a
  | .var v => .var (resolve bound v)
  | .unary op x => .unary op (x.nameless bound)
  | .binary op x y => .binary op (x.nameless bound) (y.nameless bound)
  | .app f args => .app (f.nameless bound) (namelessList bound args)
  | .list xs => .list (namelessList bound xs)
  | .bind _ t => .bind (t.nameless bound)

/-- The nameless form of a telescope: an argument is a binder for what follows it. -/
def Tele.nameless {k : Binder} (bound : List (Option Var)) : Tele p k → NamelessTele
  | .fields => .fields
  | .returns m ret => .returns m (ret.nameless bound)
  | .runs m ret body => .runs m (ret.nameless bound) (namelessBody bound body)
  | .arg _ qty ty v rest => .arg qty (ty.nameless bound) (rest.nameless (v :: bound))

/-- The nameless form of a statement. -/
def Stmt.nameless (bound : List (Option Var)) : Stmt p → NamelessStmt
  | .call _ x => .call (x.nameless bound)
  | .ifThen _ cond yes => .ifThen (cond.nameless bound) (namelessBody bound yes)
  | .ifElse _ cond yes no =>
    .ifElse (cond.nameless bound) (namelessBody bound yes) (namelessBody bound no)
  | .ret _ x => .ret (x.nameless bound)
  | .retUnit _ => .retUnit
  | .impossible _ => .impossible
  | .impossibleBy _ x => .impossibleBy (x.nameless bound)

/-- The nameless forms of the terms of a list. -/
def namelessList (bound : List (Option Var)) : List (Term p) → List Nameless
  | [] => []
  | x :: xs => x.nameless bound :: namelessList bound xs

/-- The nameless forms of the statements of a body. -/
def namelessBody (bound : List (Option Var)) : List (Stmt p) → List NamelessStmt
  | [] => []
  | s :: rest => s.nameless bound :: namelessBody bound rest

end

mutual

/-- The variables that are bound in a term, in the order of its text. -/
def Term.boundVars : Term p → List (Option Var)
  | .mk _ form => form.boundVars

/-- The variables that are bound in a form. -/
def Form.boundVars : Form p → List (Option Var)
  | .atom _ | .var _ => []
  | .unary _ x => x.boundVars
  | .binary _ x y => x.boundVars ++ y.boundVars
  | .app f args => f.boundVars ++ boundVarsList args
  | .list xs => boundVarsList xs
  | .bind _ t => t.boundVars

/-- The variables that are bound in a telescope. -/
def Tele.boundVars {k : Binder} : Tele p k → List (Option Var)
  | .fields => []
  | .returns _ ret => ret.boundVars
  | .runs _ ret body => ret.boundVars ++ boundVarsBody body
  | .arg _ _ ty v rest => ty.boundVars ++ v :: rest.boundVars

/-- The variables that are bound in a statement. -/
def Stmt.boundVars : Stmt p → List (Option Var)
  | .call _ x | .ret _ x | .impossibleBy _ x => x.boundVars
  | .ifThen _ cond yes => cond.boundVars ++ boundVarsBody yes
  | .ifElse _ cond yes no => cond.boundVars ++ boundVarsBody yes ++ boundVarsBody no
  | .retUnit _ | .impossible _ => []

/-- The variables that are bound in the terms of a list. -/
def boundVarsList : List (Term p) → List (Option Var)
  | [] => []
  | x :: xs => x.boundVars ++ boundVarsList xs

/-- The variables that are bound in the statements of a body. -/
def boundVarsBody : List (Stmt p) → List (Option Var)
  | [] => []
  | s :: rest => s.boundVars ++ boundVarsBody rest

end

/-! ## Equality up to bound names -/

mutual

/-- Terms are equal up to bound names if they have the same nameless form, each under the binders
of its side. -/
theorem Term.alphaEqUnder_iff (st : Paired) : ∀ a b : Term p,
    a.alphaEqUnder st b ↔ a.nameless (st.map (·.1)) = b.nameless (st.map (·.2))
  | .mk _ f, .mk _ g => Form.alphaEqUnder_iff st f g
termination_by structural x _ => x

theorem Form.alphaEqUnder_iff (st : Paired) : ∀ f g : Form p,
    f.alphaEqUnder st g ↔ f.nameless (st.map (·.1)) = g.nameless (st.map (·.2))
  | .atom _, g => by cases g <;> simp [Form.alphaEqUnder, Form.nameless]
  | .var x, g => by
    cases g with
    | var y => simp [Form.alphaEqUnder, Form.nameless, Paired.sameVar_iff]
    | _ => simp [Form.alphaEqUnder, Form.nameless]
  | .unary _ x, g => by
    cases g with
    | unary _ y => simp [Form.alphaEqUnder, Form.nameless, Term.alphaEqUnder_iff st x y]
    | _ => simp [Form.alphaEqUnder, Form.nameless]
  | .binary _ x₁ x₂, g => by
    cases g with
    | binary _ y₁ y₂ =>
      simp [Form.alphaEqUnder, Form.nameless, Term.alphaEqUnder_iff st x₁ y₁,
        Term.alphaEqUnder_iff st x₂ y₂, and_assoc]
    | _ => simp [Form.alphaEqUnder, Form.nameless]
  | .app f xs, g => by
    cases g with
    | app g ys =>
      simp [Form.alphaEqUnder, Form.nameless, Term.alphaEqUnder_iff st f g,
        alphaEqList_iff st xs ys]
    | _ => simp [Form.alphaEqUnder, Form.nameless]
  | .list xs, g => by
    cases g with
    | list ys => simp [Form.alphaEqUnder, Form.nameless, alphaEqList_iff st xs ys]
    | _ => simp [Form.alphaEqUnder, Form.nameless]
  | .bind _ t, g => by
    cases g with
    | bind _ u => simp [Form.alphaEqUnder, Form.nameless, Tele.alphaEqUnder_iff st t u]
    | _ => simp [Form.alphaEqUnder, Form.nameless]
termination_by structural x _ => x

theorem Tele.alphaEqUnder_iff (st : Paired) {k l : Binder} : ∀ (t : Tele p k) (u : Tele p l),
    t.alphaEqUnder st u ↔ t.nameless (st.map (·.1)) = u.nameless (st.map (·.2))
  | .fields, u => by cases u <;> simp [Tele.alphaEqUnder, Tele.nameless]
  | .returns _ ret, u => by
    cases u with
    | returns _ ret' => simp [Tele.alphaEqUnder, Tele.nameless, Term.alphaEqUnder_iff st ret ret']
    | _ => simp [Tele.alphaEqUnder, Tele.nameless]
  | .runs _ ret body, u => by
    cases u with
    | runs _ ret' body' =>
      simp [Tele.alphaEqUnder, Tele.nameless, Term.alphaEqUnder_iff st ret ret',
        alphaEqBody_iff st body body', and_assoc]
    | _ => simp [Tele.alphaEqUnder, Tele.nameless]
  | .arg _ _ ty v rest, u => by
    cases u with
    | arg _ _ ty' v' rest' =>
      -- the two arguments become the innermost binders of their sides
      simp [Tele.alphaEqUnder, Tele.nameless, Term.alphaEqUnder_iff st ty ty',
        Tele.alphaEqUnder_iff ((v, v') :: st) rest rest', and_assoc]
    | _ => simp [Tele.alphaEqUnder, Tele.nameless]
termination_by structural x _ => x

theorem Stmt.alphaEqUnder_iff (st : Paired) : ∀ s s' : Stmt p,
    s.alphaEqUnder st s' ↔ s.nameless (st.map (·.1)) = s'.nameless (st.map (·.2))
  | .call _ x, s' => by
    cases s' with
    | call _ y => simp [Stmt.alphaEqUnder, Stmt.nameless, Term.alphaEqUnder_iff st x y]
    | _ => simp [Stmt.alphaEqUnder, Stmt.nameless]
  | .ifThen _ cond yes, s' => by
    cases s' with
    | ifThen _ cond' yes' =>
      simp [Stmt.alphaEqUnder, Stmt.nameless, Term.alphaEqUnder_iff st cond cond',
        alphaEqBody_iff st yes yes']
    | _ => simp [Stmt.alphaEqUnder, Stmt.nameless]
  | .ifElse _ cond yes no, s' => by
    cases s' with
    | ifElse _ cond' yes' no' =>
      simp [Stmt.alphaEqUnder, Stmt.nameless, Term.alphaEqUnder_iff st cond cond',
        alphaEqBody_iff st yes yes', alphaEqBody_iff st no no', and_assoc]
    | _ => simp [Stmt.alphaEqUnder, Stmt.nameless]
  | .ret _ x, s' => by
    cases s' with
    | ret _ y => simp [Stmt.alphaEqUnder, Stmt.nameless, Term.alphaEqUnder_iff st x y]
    | _ => simp [Stmt.alphaEqUnder, Stmt.nameless]
  | .retUnit _, s' | .impossible _, s' => by
    cases s' <;> simp [Stmt.alphaEqUnder, Stmt.nameless]
  | .impossibleBy _ x, s' => by
    cases s' with
    | impossibleBy _ y => simp [Stmt.alphaEqUnder, Stmt.nameless, Term.alphaEqUnder_iff st x y]
    | _ => simp [Stmt.alphaEqUnder, Stmt.nameless]
termination_by structural x _ => x

theorem alphaEqList_iff (st : Paired) : ∀ xs ys : List (Term p),
    alphaEqList st xs ys ↔ namelessList (st.map (·.1)) xs = namelessList (st.map (·.2)) ys
  | [], ys => by cases ys <;> simp [alphaEqList, namelessList]
  | x :: xs, ys => by
    cases ys with
    | nil => simp [alphaEqList, namelessList]
    | cons y ys =>
      simp [alphaEqList, namelessList, Term.alphaEqUnder_iff st x y, alphaEqList_iff st xs ys]
termination_by structural x _ => x

theorem alphaEqBody_iff (st : Paired) : ∀ b b' : List (Stmt p),
    alphaEqBody st b b' ↔ namelessBody (st.map (·.1)) b = namelessBody (st.map (·.2)) b'
  | [], b' => by cases b' <;> simp [alphaEqBody, namelessBody]
  | s :: b, b' => by
    cases b' with
    | nil => simp [alphaEqBody, namelessBody]
    | cons s' b' =>
      simp [alphaEqBody, namelessBody, Stmt.alphaEqUnder_iff st s s', alphaEqBody_iff st b b']
termination_by structural x _ => x

end

theorem Term.alphaEq_iff {a b : Term p} : a.alphaEq b ↔ a.nameless [] = b.nameless [] :=
  Term.alphaEqUnder_iff [] a b

theorem Tele.alphaEq_iff {k l : Binder} {t : Tele p k} {u : Tele p l} :
    t.alphaEq u ↔ t.nameless [] = u.nameless [] :=
  Tele.alphaEqUnder_iff [] t u

/-! ## Free variables -/

mutual

/-- Whether a variable occurs free in a nameless form. -/
def Nameless.occursFree (x : Var) : Nameless → Bool
  | .atom _ => false
  | .var ref => ref = .free x
  | .unary _ a => a.occursFree x
  | .binary _ a b => a.occursFree x || b.occursFree x
  | .app f args => f.occursFree x || namelessOccursList x args
  | .list xs => namelessOccursList x xs
  | .bind t => t.occursFree x

/-- Whether a variable occurs free in a nameless telescope. -/
def NamelessTele.occursFree (x : Var) : NamelessTele → Bool
  | .fields => false
  | .returns _ ret => ret.occursFree x
  | .runs _ ret body => ret.occursFree x || namelessOccursBody x body
  | .arg _ ty rest => ty.occursFree x || rest.occursFree x

/-- Whether a variable occurs free in a nameless statement. -/
def NamelessStmt.occursFree (x : Var) : NamelessStmt → Bool
  | .call a | .ret a | .impossibleBy a => a.occursFree x
  | .ifThen cond yes => cond.occursFree x || namelessOccursBody x yes
  | .ifElse cond yes no =>
    cond.occursFree x || namelessOccursBody x yes || namelessOccursBody x no
  | .retUnit | .impossible => false

/-- Whether a variable occurs free in a nameless form of a list. -/
def namelessOccursList (x : Var) : List Nameless → Bool
  | [] => false
  | a :: as => a.occursFree x || namelessOccursList x as

/-- Whether a variable occurs free in a nameless statement of a body. -/
def namelessOccursBody (x : Var) : List NamelessStmt → Bool
  | [] => false
  | s :: rest => s.occursFree x || namelessOccursBody x rest

end

mutual

/-- The nameless form of a written term has the free variables of the term, those apart that are
bound around it. -/
theorem Term.occursFree_nameless {x : Var} {bound : List (Option Var)} : ∀ t : Written,
    (t.nameless bound).occursFree x ↔ some x ∉ bound ∧ t.occursFree x
  | .mk (.place _ _) f => by
    simpa [Term.nameless, Term.occursFree, Note.occursFree] using f.occursFree_nameless

theorem Form.occursFree_nameless {x : Var} {bound : List (Option Var)} : ∀ f : Form .written,
    (f.nameless bound).occursFree x ↔ some x ∉ bound ∧ f.occursFree x
  | .atom _ => by simp [Form.nameless, Nameless.occursFree, Form.occursFree]
  | .var v => by
    simp only [Form.nameless, Nameless.occursFree, Form.occursFree, decide_eq_true_eq,
      resolve_eq_free]
    grind
  | .unary _ a => a.occursFree_nameless
  | .binary _ a b => by
    simp only [Form.nameless, Nameless.occursFree, Form.occursFree, Bool.or_eq_true,
      a.occursFree_nameless, b.occursFree_nameless, ← and_or_left]
  | .app f args => by
    simp only [Form.nameless, Nameless.occursFree, Form.occursFree, Bool.or_eq_true,
      f.occursFree_nameless, occursFreeList_nameless args, ← and_or_left]
  | .list xs => occursFreeList_nameless xs
  | .bind _ t => t.occursFree_nameless

theorem Tele.occursFree_nameless {x : Var} {k : Binder} : ∀ {bound : List (Option Var)}
    (t : Tele .written k), (t.nameless bound).occursFree x ↔ some x ∉ bound ∧ t.occursFree x
  | _, .fields => by simp [Tele.nameless, NamelessTele.occursFree, Tele.occursFree]
  | _, .returns _ ret => ret.occursFree_nameless
  | _, .runs _ ret body => by
    simp only [Tele.nameless, NamelessTele.occursFree, Tele.occursFree, Bool.or_eq_true,
      ret.occursFree_nameless, occursFreeBody_nameless body, ← and_or_left]
  | _, .arg _ _ ty v rest => by
    simp only [Tele.nameless, NamelessTele.occursFree, Tele.occursFree, Bool.or_eq_true,
      Bool.and_eq_true, decide_eq_true_eq, ty.occursFree_nameless, rest.occursFree_nameless,
      List.mem_cons, not_or, ne_comm, and_or_left, and_assoc, and_left_comm]

theorem Stmt.occursFree_nameless {x : Var} {bound : List (Option Var)} : ∀ s : Stmt .written,
    (s.nameless bound).occursFree x ↔ some x ∉ bound ∧ s.occursFree x
  | .call _ a | .ret _ a | .impossibleBy _ a => a.occursFree_nameless
  | .ifThen _ cond yes => by
    simp only [Stmt.nameless, NamelessStmt.occursFree, Stmt.occursFree, Bool.or_eq_true,
      cond.occursFree_nameless, occursFreeBody_nameless yes, ← and_or_left]
  | .ifElse _ cond yes no => by
    simp only [Stmt.nameless, NamelessStmt.occursFree, Stmt.occursFree, Bool.or_eq_true,
      cond.occursFree_nameless, occursFreeBody_nameless yes, occursFreeBody_nameless no,
      ← and_or_left]
  | .retUnit _ | .impossible _ => by
    simp [Stmt.nameless, NamelessStmt.occursFree, Stmt.occursFree]

theorem occursFreeList_nameless {x : Var} {bound : List (Option Var)} : ∀ ts : List Written,
    namelessOccursList x (namelessList bound ts) ↔ some x ∉ bound ∧ occursFreeList x ts
  | [] => by simp [namelessList, namelessOccursList, occursFreeList]
  | t :: ts => by
    simp only [namelessList, namelessOccursList, occursFreeList, Bool.or_eq_true,
      t.occursFree_nameless, occursFreeList_nameless ts, ← and_or_left]

theorem occursFreeBody_nameless {x : Var} {bound : List (Option Var)} :
    ∀ b : List (Stmt .written),
      namelessOccursBody x (namelessBody bound b) ↔ some x ∉ bound ∧ occursFreeBody x b
  | [] => by simp [namelessBody, namelessOccursBody, occursFreeBody]
  | s :: b => by
    simp only [namelessBody, namelessOccursBody, occursFreeBody, Bool.or_eq_true,
      s.occursFree_nameless, occursFreeBody_nameless b, ← and_or_left]

end

/-- Written terms that are equal up to bound names have the same free variables. -/
theorem Term.occursFree_eq_of_alphaEq {a b : Written} (h : a.alphaEq b) (x : Var) :
    a.occursFree x = b.occursFree x := by
  rw [Bool.eq_iff_iff]
  calc a.occursFree x
      ↔ (a.nameless []).occursFree x := by simp [Term.occursFree_nameless]
    _ ↔ (b.nameless []).occursFree x := by rw [Term.alphaEq_iff.mp h]
    _ ↔ b.occursFree x := by simp [Term.occursFree_nameless]

/-- Equality up to bound names is equality of nameless forms. So it is an equivalence, and on
written terms it keeps the free variables. -/
theorem alphaEq_iff_nameless_eq (p : Phase) :
    (∀ a b : Term p, a.alphaEq b ↔ a.nameless [] = b.nameless []) ∧
    Equivalence (fun a b : Term p => a.alphaEq b = true) ∧
    ∀ a b : Written, a.alphaEq b → ∀ x, a.occursFree x = b.occursFree x := by
  refine ⟨fun a b => Term.alphaEq_iff, ⟨fun a => ?_, fun {a b} h => ?_, fun {a b c} h h' => ?_⟩,
    fun a b h => Term.occursFree_eq_of_alphaEq h⟩
  · exact Term.alphaEq_iff.mpr rfl
  · exact Term.alphaEq_iff.mpr (Term.alphaEq_iff.mp h).symm
  · exact Term.alphaEq_iff.mpr ((Term.alphaEq_iff.mp h).trans (Term.alphaEq_iff.mp h'))

/-- In `(u64 x, u64 x) -> array_t(u64, x)` the later one of the two arguments is meant. -/
example :
    let loc : Note .written Written := .place {} rfl
    let u64 : Written := .mk loc (.atom (.int .u64))
    let pi (a b size : String) : Written := .mk loc (.bind .pi
      (.arg {} .many u64 (some { name := a }) (.arg {} .many u64 (some { name := b })
        (.returns .no (.mk loc (.binary .arrayT u64 (.mk loc (.var { name := size }))))))))
    (pi "x" "x" "x").alphaEq (pi "y" "z" "z") = true ∧
      (pi "x" "x" "x").alphaEq (pi "y" "z" "y") = false :=
  ⟨rfl, rfl⟩

end DependentCore
