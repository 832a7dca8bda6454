import DependentCore.Binding.Free
import DependentCore.Binding.Index
import DependentCore.Binding.Size

/-!
# Substitution

`t.subst x r` replaces every free occurrence of `x` in `t` by `r`. An occurrence is replaced
together with its note; all other notes have `r` substituted in their sorts.

Telescopes are walked from left to right. An argument that binds `x` ends the substitution for the
rest of its telescope. An argument whose variable occurs free in `r` would capture it, so the
argument is renamed first, to an index above those of its scope and of `r`.

To rename an argument is to substitute a variable for a variable in the scope of the argument
(`Tele.refresh`). So an `Image`, which is what is put for a variable, is either a term or a
variable. A variable leaves the notes of the occurrences in place. It may be captured like the
variables of a term, and then the argument that captures it is renamed in turn.

The renamed rest of a telescope is no subterm of the telescope, but it has the same size. So the
recursion is on a bound for the size, which the wrappers `Term.replace`, `Tele.replace` and
`Stmt.replace` supply. All bounds that are large enough give the same result (`replace_bound`), so
the wrappers have an equation for each form in which no bound occurs.
-/

namespace DependentCore

variable {p : Phase}

/-- What is put for a variable. -/
inductive Image (p : Phase) where
  /-- A term, which replaces an occurrence together with its note. -/
  | term (r : Term p)
  /-- A variable, which leaves the note of an occurrence in place. -/
  | var (y : Var)

/-- Whether a variable occurs free in an image. -/
def Image.occursFree (v : Var) : Image p → Bool
  | .term r => r.occursFree v
  | .var y => y = v

/-- The largest index in an image. -/
def Image.maxIndex : Image p → Nat
  | .term r => r.maxIndex
  | .var y => y.index

/-- What an occurrence becomes, where `note` is its note with the image put in. -/
def Image.instead (note : Note p (Term p)) : Image p → Term p
  | .term r => r
  | .var y => .mk note (.var y)

/-- Apply a function to the sort that a note holds. -/
def Note.map {τ : Type} (f : τ → τ) : Note p τ → Note p τ
  | .place loc h => .place loc h
  | .kind h => .kind h
  | .sort ty h => .sort (f ty) h

section
variable [c : Indexing]

mutual

/-- Substitution in a term of size at most `bound`. -/
def substTerm (bound : Nat) (x : Var) (w : Image p) (t : Term p) : Term p :=
  match bound, t with
  | 0, t => t
  | n + 1, .mk note form =>
    let keep := note.map (substTerm n x w)
    match form with
    | .atom a => .mk keep (.atom a)
    | .var v => if v = x then w.instead keep else .mk keep (.var v)
    | .unary op a => .mk keep (.unary op (substTerm n x w a))
    | .binary op a b => .mk keep (.binary op (substTerm n x w a) (substTerm n x w b))
    | .app f args => .mk keep (.app (substTerm n x w f) (args.map (substTerm n x w)))
    | .list xs => .mk keep (.list (xs.map (substTerm n x w)))
    | .bind k tele => .mk keep (.bind k (substTele n x w tele))

/-- Substitution in a telescope of size at most `bound`. -/
def substTele {k : Binder} (bound : Nat) (x : Var) (w : Image p) (t : Tele p k) : Tele p k :=
  match bound, t with
  | 0, t => t
  | _ + 1, .fields => .fields
  | n + 1, .returns m ret => .returns m (substTerm n x w ret)
  | n + 1, .runs m ret body => .runs m (substTerm n x w ret) (body.map (substStmt n x w))
  | n + 1, .arg mark qty ty none rest =>
    .arg mark qty (substTerm n x w ty) none (substTele n x w rest)
  | n + 1, .arg mark qty ty (some v) rest =>
    if v = x then
      .arg mark qty (substTerm n x w ty) (some v) rest
    else if w.occursFree v then
      -- the argument would capture the image, so it is renamed along with its scope
      let new := rest.fresh v w.maxIndex
      let renamed := substTele n v (.var new) rest
      .arg mark qty (substTerm n x w ty) (some new) (substTele n x w renamed)
    else
      .arg mark qty (substTerm n x w ty) (some v) (substTele n x w rest)

/-- Substitution in a statement of size at most `bound`. -/
def substStmt (bound : Nat) (x : Var) (w : Image p) (s : Stmt p) : Stmt p :=
  match bound, s with
  | 0, s => s
  | n + 1, .call mark a => .call mark (substTerm n x w a)
  | n + 1, .ifThen mark cond yes =>
    .ifThen mark (substTerm n x w cond) (yes.map (substStmt n x w))
  | n + 1, .ifElse mark cond yes no =>
    .ifElse mark (substTerm n x w cond) (yes.map (substStmt n x w)) (no.map (substStmt n x w))
  | n + 1, .ret mark a => .ret mark (substTerm n x w a)
  | _ + 1, .retUnit mark => .retUnit mark
  | _ + 1, .impossible mark => .impossible mark
  | n + 1, .impossibleBy mark a => .impossibleBy mark (substTerm n x w a)

end

/-- Put an image for every free occurrence of `x` in a term. -/
def Term.replace (t : Term p) (x : Var) (w : Image p) : Term p :=
  substTerm t.size x w t

/-- Put an image for every free occurrence of `x` in a telescope. -/
def Tele.replace {k : Binder} (t : Tele p k) (x : Var) (w : Image p) : Tele p k :=
  substTele t.size x w t

/-- Put an image for every free occurrence of `x` in a statement. -/
def Stmt.replace (s : Stmt p) (x : Var) (w : Image p) : Stmt p :=
  substStmt s.size x w s

/-- Replace every free occurrence of `x` in a term by `r`. -/
def Term.subst (t : Term p) (x : Var) (r : Term p) : Term p :=
  t.replace x (.term r)

/-- Replace every free occurrence of `x` in a telescope by `r`. -/
def Tele.subst {k : Binder} (t : Tele p k) (x : Var) (r : Term p) : Tele p k :=
  t.replace x (.term r)

/-- Replace every free occurrence of `x` in a statement by `r`. -/
def Stmt.subst (s : Stmt p) (x : Var) (r : Term p) : Stmt p :=
  s.replace x (.term r)

/-- Rename `v` in the telescope it is bound over to a fresh variable whose index exceeds `floor`.
The fresh variable comes first. -/
def Tele.refresh {k : Binder} (v : Var) (floor : Nat) (t : Tele p k) : Var × Tele p k :=
  (t.fresh v floor, t.replace v (.var (t.fresh v floor)))

/-- Replace every free occurrence of the variable, if there is one, in a telescope by `r`: this
supplies the argument that the telescope stands under. -/
def Tele.instantiate {k : Binder} (t : Tele p k) (v : Option Var) (r : Term p) : Tele p k :=
  match v with
  | none => t
  | some x => t.subst x r

/-! ## The bound does not matter -/

/-- Putting a variable for a variable keeps the size: no subterm is replaced. -/
theorem size_subst_var : ∀ (n : Nat) (x y : Var),
    (∀ t : Term p, (substTerm n x (.var y) t).size = t.size) ∧
    (∀ {k : Binder} (t : Tele p k), (substTele n x (.var y) t).size = t.size) ∧
    (∀ s : Stmt p, (substStmt n x (.var y) s).size = s.size) := by
  intro n
  induction n with
  | zero => exact fun x y => ⟨fun _ => by rw [substTerm], fun _ => by rw [substTele],
      fun _ => by rw [substStmt]⟩
  | succ n ih =>
    intro x y
    obtain ⟨ihTerm, ihTele, ihStmt⟩ := ih x y
    refine ⟨fun ⟨note, form⟩ => ?_, fun t => ?_, fun s => ?_⟩
    · have hnote : (note.map (substTerm n x (.var y))).size = note.size := by
        cases note with
        | place loc h => rfl
        | kind h => rfl
        | sort ty h => exact ihTerm ty
      cases form with
      | var v =>
        rw [substTerm]
        split <;> simp only [Image.instead, Term.size, Form.size, hnote]
      | _ => simp only [substTerm, Term.size, Form.size, hnote, ihTerm, ihTele, sizeList_map ihTerm]
    · cases t with
      | arg mark qty ty v rest =>
        cases v with
        | none => simp only [substTele, Tele.size, ihTerm, ihTele]
        | some v =>
          -- an argument that would capture `y` is renamed by the same operation
          have hrenamed := fun new => (ih v new).2.1 rest
          rw [substTele]
          split
          · rw [Tele.size, Tele.size, ihTerm]
          · split <;> simp only [Tele.size, ihTerm, ihTele, hrenamed]
      | _ => simp only [substTele, Tele.size, ihTerm, sizeBody_map ihStmt]
    · cases s <;> simp only [substStmt, Stmt.size, ihTerm, sizeBody_map ihStmt]

/-- All bounds that are large enough give the same result. -/
theorem replace_bound : ∀ (n : Nat) (x : Var) (w : Image p),
    (∀ (m : Nat) (t : Term p), t.size ≤ n → t.size ≤ m →
      substTerm n x w t = substTerm m x w t) ∧
    (∀ (m : Nat) {k : Binder} (t : Tele p k), t.size ≤ n → t.size ≤ m →
      substTele n x w t = substTele m x w t) ∧
    (∀ (m : Nat) (s : Stmt p), s.size ≤ n → s.size ≤ m →
      substStmt n x w s = substStmt m x w s) := by
  intro n
  induction n with
  | zero =>
    intro x w
    refine ⟨?_, ?_, ?_⟩
    · intro m t hn
      exact absurd t.one_le_size (by omega)
    · intro m k t hn
      exact absurd t.one_le_size (by omega)
    · intro m s hn
      exact absurd s.one_le_size (by omega)
  | succ n ih =>
    intro x w
    obtain ⟨ihTerm, ihTele, ihStmt⟩ := ih x w
    -- bodies and lists are mapped over, so they follow from their members
    have ihList : ∀ (m : Nat) (ts : List (Term p)), sizeList ts ≤ n → sizeList ts ≤ m →
        ts.map (substTerm n x w) = ts.map (substTerm m x w) := by
      intro m ts hn hm
      refine List.map_congr_left fun t ht => ihTerm m t ?_ ?_
      · exact Nat.le_trans (size_le_sizeList ht) hn
      · exact Nat.le_trans (size_le_sizeList ht) hm
    have ihBody : ∀ (m : Nat) (b : List (Stmt p)), sizeBody b ≤ n → sizeBody b ≤ m →
        b.map (substStmt n x w) = b.map (substStmt m x w) := by
      intro m b hn hm
      refine List.map_congr_left fun s hs => ihStmt m s ?_ ?_
      · exact Nat.le_trans (size_le_sizeBody hs) hn
      · exact Nat.le_trans (size_le_sizeBody hs) hm
    refine ⟨?_, ?_, ?_⟩
    · intro m t hn hm
      obtain ⟨note, form⟩ := t
      cases m with
      | zero => exact absurd (Term.one_le_size (.mk note form)) (by omega)
      | succ m =>
        rw [Term.size] at hn hm
        have hnote : note.map (substTerm n x w) = note.map (substTerm m x w) := by
          cases note with
          | place loc h => rfl
          | kind h => rfl
          | sort ty h =>
            rw [Note.size] at hn hm
            rw [Note.map, Note.map, ihTerm m ty (by omega) (by omega)]
        cases form with
        | atom a => simp only [substTerm, hnote]
        | var v => simp only [substTerm, hnote]
        | unary op a =>
          rw [Form.size] at hn hm
          simp only [substTerm, hnote, ihTerm m a (by omega) (by omega)]
        | binary op a b =>
          rw [Form.size] at hn hm
          simp only [substTerm, hnote, ihTerm m a (by omega) (by omega),
            ihTerm m b (by omega) (by omega)]
        | app f args =>
          rw [Form.size] at hn hm
          simp only [substTerm, hnote, ihTerm m f (by omega) (by omega),
            ihList m args (by omega) (by omega)]
        | list xs =>
          rw [Form.size] at hn hm
          simp only [substTerm, hnote, ihList m xs (by omega) (by omega)]
        | bind k t =>
          rw [Form.size] at hn hm
          simp only [substTerm, hnote, ihTele m t (by omega) (by omega)]
    · intro m k t hn hm
      cases m with
      | zero => exact absurd t.one_le_size (by omega)
      | succ m =>
        cases t with
        | fields => rfl
        | returns mu ret =>
          rw [Tele.size] at hn hm
          simp only [substTele, ihTerm m ret (by omega) (by omega)]
        | runs mu ret body =>
          rw [Tele.size] at hn hm
          simp only [substTele, ihTerm m ret (by omega) (by omega),
            ihBody m body (by omega) (by omega)]
        | arg mark qty ty v rest =>
          rw [Tele.size] at hn hm
          have hty := ihTerm m ty (by omega) (by omega)
          have hrest := ihTele m rest (by omega) (by omega)
          cases v with
          | none => simp only [substTele, hty, hrest]
          | some v =>
            -- the renamed rest is the same, and has the size of the rest
            have hrenamed : ∀ new : Var, substTele n v (.var new) rest
                = substTele m v (.var new) rest := fun new =>
              (ih v (.var new)).2.1 m rest (by omega) (by omega)
            have hnew : ∀ new : Var, substTele n x w (substTele m v (.var new) rest)
                = substTele m x w (substTele m v (.var new) rest) := fun new =>
              ihTele m _ (by rw [(size_subst_var m v new).2.1]; omega)
                (by rw [(size_subst_var m v new).2.1]; omega)
            simp only [substTele, hty, hrest, hrenamed, hnew]
    · intro m s hn hm
      cases m with
      | zero => exact absurd s.one_le_size (by omega)
      | succ m =>
        cases s with
        | call mark a =>
          rw [Stmt.size] at hn hm
          simp only [substStmt, ihTerm m a (by omega) (by omega)]
        | ifThen mark cond yes =>
          rw [Stmt.size] at hn hm
          simp only [substStmt, ihTerm m cond (by omega) (by omega),
            ihBody m yes (by omega) (by omega)]
        | ifElse mark cond yes no =>
          rw [Stmt.size] at hn hm
          simp only [substStmt, ihTerm m cond (by omega) (by omega),
            ihBody m yes (by omega) (by omega), ihBody m no (by omega) (by omega)]
        | ret mark a =>
          rw [Stmt.size] at hn hm
          simp only [substStmt, ihTerm m a (by omega) (by omega)]
        | retUnit mark => rfl
        | impossible mark => rfl
        | impossibleBy mark a =>
          rw [Stmt.size] at hn hm
          simp only [substStmt, ihTerm m a (by omega) (by omega)]

theorem substTerm_eq_replace {n : Nat} (x : Var) (w : Image p) (t : Term p) (h : t.size ≤ n) :
    substTerm n x w t = t.replace x w :=
  (replace_bound n x w).1 t.size t h (Nat.le_refl _)

theorem substTele_eq_replace {n : Nat} {k : Binder} (x : Var) (w : Image p) (t : Tele p k)
    (h : t.size ≤ n) : substTele n x w t = t.replace x w :=
  (replace_bound n x w).2.1 t.size t h (Nat.le_refl _)

theorem substStmt_eq_replace {n : Nat} (x : Var) (w : Image p) (s : Stmt p) (h : s.size ≤ n) :
    substStmt n x w s = s.replace x w :=
  (replace_bound n x w).2.2 s.size s h (Nat.le_refl _)

theorem map_substTerm {n : Nat} (x : Var) (w : Image p) (ts : List (Term p))
    (h : sizeList ts ≤ n) : ts.map (substTerm n x w) = ts.map (·.replace x w) :=
  List.map_congr_left fun t ht =>
    substTerm_eq_replace x w t (Nat.le_trans (size_le_sizeList ht) h)

theorem map_substStmt {n : Nat} (x : Var) (w : Image p) (b : List (Stmt p))
    (h : sizeBody b ≤ n) : b.map (substStmt n x w) = b.map (·.replace x w) :=
  List.map_congr_left fun s hs =>
    substStmt_eq_replace x w s (Nat.le_trans (size_le_sizeBody hs) h)

theorem Note.map_substTerm {n : Nat} (x : Var) (w : Image p) (note : Note p (Term p))
    (h : note.size ≤ n) : note.map (substTerm n x w) = note.map (·.replace x w) := by
  cases note with
  | place loc h => rfl
  | kind h => rfl
  | sort ty hp => exact congrArg (Note.sort · hp) (substTerm_eq_replace x w ty h)

/-- A telescope that is renamed keeps its size. -/
@[simp]
theorem Tele.size_refresh {k : Binder} (v : Var) (floor : Nat) (t : Tele p k) :
    (t.refresh v floor).2.size = t.size :=
  (size_subst_var t.size v _).2.1 t

/-! ## Equations -/

section
variable (x : Var) (w : Image p)

theorem Term.replace_atom (note : Note p (Term p)) (a : Atom) :
    (Term.mk note (.atom a)).replace x w = .mk (note.map (·.replace x w)) (.atom a) := by
  show Term.mk (note.map (substTerm note.size x w)) (.atom a) = _
  rw [Note.map_substTerm x w note (Nat.le_refl _)]

theorem Term.replace_var (note : Note p (Term p)) (v : Var) :
    (Term.mk note (.var v)).replace x w = if v = x then w.instead (note.map (·.replace x w))
      else .mk (note.map (·.replace x w)) (.var v) := by
  show (if v = x then w.instead (note.map (substTerm note.size x w))
    else .mk (note.map (substTerm note.size x w)) (.var v)) = _
  rw [Note.map_substTerm x w note (Nat.le_refl _)]

theorem Term.replace_unary (note : Note p (Term p)) (op : Unary) (a : Term p) :
    (Term.mk note (.unary op a)).replace x w
      = .mk (note.map (·.replace x w)) (.unary op (a.replace x w)) := by
  show Term.mk (note.map (substTerm (note.size + a.size) x w))
    (.unary op (substTerm (note.size + a.size) x w a)) = _
  rw [Note.map_substTerm x w note (by omega), substTerm_eq_replace x w a (by omega)]

theorem Term.replace_binary (note : Note p (Term p)) (op : Binary) (a b : Term p) :
    (Term.mk note (.binary op a b)).replace x w
      = .mk (note.map (·.replace x w)) (.binary op (a.replace x w) (b.replace x w)) := by
  show Term.mk (note.map (substTerm (note.size + (a.size + b.size)) x w))
    (.binary op (substTerm (note.size + (a.size + b.size)) x w a)
      (substTerm (note.size + (a.size + b.size)) x w b)) = _
  rw [Note.map_substTerm x w note (by omega), substTerm_eq_replace x w a (by omega),
    substTerm_eq_replace x w b (by omega)]

theorem Term.replace_app (note : Note p (Term p)) (f : Term p) (args : List (Term p)) :
    (Term.mk note (.app f args)).replace x w
      = .mk (note.map (·.replace x w)) (.app (f.replace x w) (args.map (·.replace x w))) := by
  show Term.mk (note.map (substTerm (note.size + (f.size + sizeList args)) x w))
    (.app (substTerm (note.size + (f.size + sizeList args)) x w f)
      (args.map (substTerm (note.size + (f.size + sizeList args)) x w))) = _
  rw [Note.map_substTerm x w note (by omega), substTerm_eq_replace x w f (by omega),
    map_substTerm x w args (by omega)]

theorem Term.replace_list (note : Note p (Term p)) (xs : List (Term p)) :
    (Term.mk note (.list xs)).replace x w
      = .mk (note.map (·.replace x w)) (.list (xs.map (·.replace x w))) := by
  show Term.mk (note.map (substTerm (note.size + sizeList xs) x w))
    (.list (xs.map (substTerm (note.size + sizeList xs) x w))) = _
  rw [Note.map_substTerm x w note (by omega), map_substTerm x w xs (by omega)]

theorem Term.replace_bind (note : Note p (Term p)) (k : Binder) (t : Tele p k) :
    (Term.mk note (.bind k t)).replace x w
      = .mk (note.map (·.replace x w)) (.bind k (t.replace x w)) := by
  show Term.mk (note.map (substTerm (note.size + t.size) x w))
    (.bind k (substTele (note.size + t.size) x w t)) = _
  rw [Note.map_substTerm x w note (by omega), substTele_eq_replace x w t (by omega)]

theorem Tele.replace_runs (m : Mutability) (ret : Term p) (body : List (Stmt p)) :
    (Tele.runs m ret body).replace x w
      = .runs m (ret.replace x w) (body.map (·.replace x w)) := by
  show Tele.runs m (substTerm (ret.size + sizeBody body) x w ret)
    (body.map (substStmt (ret.size + sizeBody body) x w)) = _
  rw [substTerm_eq_replace x w ret (by omega), map_substStmt x w body (by omega)]

/-- An argument without a name binds nothing. -/
theorem Tele.replace_arg_none {k : Binder} (mark : Mark p) (qty : Quantity) (ty : Term p)
    (rest : Tele p k) : (Tele.arg mark qty ty none rest).replace x w
      = .arg mark qty (ty.replace x w) none (rest.replace x w) := by
  show Tele.arg mark qty (substTerm (ty.size + rest.size) x w ty) none
    (substTele (ty.size + rest.size) x w rest) = _
  rw [substTerm_eq_replace x w ty (by omega), substTele_eq_replace x w rest (by omega)]

/-- An argument that binds `x` ends the substitution, and one that occurs free in the image is
renamed. -/
theorem Tele.replace_arg_some {k : Binder} (mark : Mark p) (qty : Quantity) (ty : Term p) (v : Var)
    (rest : Tele p k) : (Tele.arg mark qty ty (some v) rest).replace x w
      = if v = x then .arg mark qty (ty.replace x w) (some v) rest
        else if w.occursFree v then
          .arg mark qty (ty.replace x w) (some (rest.refresh v w.maxIndex).1)
            ((rest.refresh v w.maxIndex).2.replace x w)
        else .arg mark qty (ty.replace x w) (some v) (rest.replace x w) := by
  have hnew : (rest.refresh v w.maxIndex).2.size ≤ ty.size + rest.size := by
    rw [Tele.size_refresh]
    omega
  show (if v = x then Tele.arg mark qty (substTerm (ty.size + rest.size) x w ty) (some v) rest
    else if w.occursFree v then
      .arg mark qty (substTerm (ty.size + rest.size) x w ty) (some (rest.fresh v w.maxIndex))
        (substTele (ty.size + rest.size) x w
          (substTele (ty.size + rest.size) v (.var (rest.fresh v w.maxIndex)) rest))
    else
      .arg mark qty (substTerm (ty.size + rest.size) x w ty) (some v)
        (substTele (ty.size + rest.size) x w rest)) = _
  rw [substTerm_eq_replace x w ty (by omega), substTele_eq_replace x w rest (by omega),
    substTele_eq_replace v _ rest (by omega)]
  exact congrArg _ (congrArg (ite _ · _) (congrArg _ (substTele_eq_replace x w _ hnew)))

theorem Stmt.replace_ifThen (mark : Mark p) (cond : Term p) (yes : List (Stmt p)) :
    (Stmt.ifThen mark cond yes).replace x w
      = .ifThen mark (cond.replace x w) (yes.map (·.replace x w)) := by
  show Stmt.ifThen mark (substTerm (cond.size + sizeBody yes) x w cond)
    (yes.map (substStmt (cond.size + sizeBody yes) x w)) = _
  rw [substTerm_eq_replace x w cond (by omega), map_substStmt x w yes (by omega)]

theorem Stmt.replace_ifElse (mark : Mark p) (cond : Term p) (yes no : List (Stmt p)) :
    (Stmt.ifElse mark cond yes no).replace x w
      = .ifElse mark (cond.replace x w) (yes.map (·.replace x w)) (no.map (·.replace x w)) := by
  show Stmt.ifElse mark (substTerm (cond.size + sizeBody yes + sizeBody no) x w cond)
    (yes.map (substStmt (cond.size + sizeBody yes + sizeBody no) x w))
    (no.map (substStmt (cond.size + sizeBody yes + sizeBody no) x w)) = _
  rw [substTerm_eq_replace x w cond (by omega), map_substStmt x w yes (by omega),
    map_substStmt x w no (by omega)]

end

/-! ## Equations for terms -/

section
variable (x : Var) (r : Term p)

@[simp]
theorem Term.subst_atom (note : Note p (Term p)) (a : Atom) :
    (Term.mk note (.atom a)).subst x r = .mk (note.map (·.subst x r)) (.atom a) :=
  Term.replace_atom x (.term r) note a

@[simp]
theorem Term.subst_var (note : Note p (Term p)) (v : Var) :
    (Term.mk note (.var v)).subst x r
      = if v = x then r else .mk (note.map (·.subst x r)) (.var v) :=
  Term.replace_var x (.term r) note v

@[simp]
theorem Term.subst_unary (note : Note p (Term p)) (op : Unary) (a : Term p) :
    (Term.mk note (.unary op a)).subst x r
      = .mk (note.map (·.subst x r)) (.unary op (a.subst x r)) :=
  Term.replace_unary x (.term r) note op a

@[simp]
theorem Term.subst_binary (note : Note p (Term p)) (op : Binary) (a b : Term p) :
    (Term.mk note (.binary op a b)).subst x r
      = .mk (note.map (·.subst x r)) (.binary op (a.subst x r) (b.subst x r)) :=
  Term.replace_binary x (.term r) note op a b

@[simp]
theorem Term.subst_app (note : Note p (Term p)) (f : Term p) (args : List (Term p)) :
    (Term.mk note (.app f args)).subst x r
      = .mk (note.map (·.subst x r)) (.app (f.subst x r) (args.map (·.subst x r))) :=
  Term.replace_app x (.term r) note f args

@[simp]
theorem Term.subst_list (note : Note p (Term p)) (xs : List (Term p)) :
    (Term.mk note (.list xs)).subst x r
      = .mk (note.map (·.subst x r)) (.list (xs.map (·.subst x r))) :=
  Term.replace_list x (.term r) note xs

@[simp]
theorem Term.subst_bind (note : Note p (Term p)) (k : Binder) (t : Tele p k) :
    (Term.mk note (.bind k t)).subst x r
      = .mk (note.map (·.subst x r)) (.bind k (t.subst x r)) :=
  Term.replace_bind x (.term r) note k t

@[simp]
theorem Tele.subst_fields : (Tele.fields : Fields p).subst x r = .fields :=
  rfl

@[simp]
theorem Tele.subst_returns (m : Mutability) (ret : Term p) :
    (Tele.returns m ret).subst x r = .returns m (ret.subst x r) :=
  rfl

@[simp]
theorem Tele.subst_runs (m : Mutability) (ret : Term p) (body : List (Stmt p)) :
    (Tele.runs m ret body).subst x r = .runs m (ret.subst x r) (body.map (·.subst x r)) :=
  Tele.replace_runs x (.term r) m ret body

@[simp]
theorem Tele.subst_arg_none {k : Binder} (mark : Mark p) (qty : Quantity) (ty : Term p)
    (rest : Tele p k) : (Tele.arg mark qty ty none rest).subst x r
      = .arg mark qty (ty.subst x r) none (rest.subst x r) :=
  Tele.replace_arg_none x (.term r) mark qty ty rest

theorem Tele.subst_arg_some {k : Binder} (mark : Mark p) (qty : Quantity) (ty : Term p) (v : Var)
    (rest : Tele p k) : (Tele.arg mark qty ty (some v) rest).subst x r
      = if v = x then .arg mark qty (ty.subst x r) (some v) rest
        else if r.occursFree v then
          .arg mark qty (ty.subst x r) (some (rest.refresh v r.maxIndex).1)
            ((rest.refresh v r.maxIndex).2.subst x r)
        else .arg mark qty (ty.subst x r) (some v) (rest.subst x r) :=
  Tele.replace_arg_some x (.term r) mark qty ty v rest

@[simp]
theorem Stmt.subst_call (mark : Mark p) (a : Term p) :
    (Stmt.call mark a).subst x r = .call mark (a.subst x r) :=
  rfl

@[simp]
theorem Stmt.subst_ifThen (mark : Mark p) (cond : Term p) (yes : List (Stmt p)) :
    (Stmt.ifThen mark cond yes).subst x r
      = .ifThen mark (cond.subst x r) (yes.map (·.subst x r)) :=
  Stmt.replace_ifThen x (.term r) mark cond yes

@[simp]
theorem Stmt.subst_ifElse (mark : Mark p) (cond : Term p) (yes no : List (Stmt p)) :
    (Stmt.ifElse mark cond yes no).subst x r
      = .ifElse mark (cond.subst x r) (yes.map (·.subst x r)) (no.map (·.subst x r)) :=
  Stmt.replace_ifElse x (.term r) mark cond yes no

@[simp]
theorem Stmt.subst_ret (mark : Mark p) (a : Term p) :
    (Stmt.ret mark a).subst x r = .ret mark (a.subst x r) :=
  rfl

@[simp]
theorem Stmt.subst_retUnit (mark : Mark p) : (Stmt.retUnit mark).subst x r = .retUnit mark :=
  rfl

@[simp]
theorem Stmt.subst_impossible (mark : Mark p) :
    (Stmt.impossible mark).subst x r = .impossible mark :=
  rfl

@[simp]
theorem Stmt.subst_impossibleBy (mark : Mark p) (a : Term p) :
    (Stmt.impossibleBy mark a).subst x r = .impossibleBy mark (a.subst x r) :=
  rfl

end

end

end DependentCore
