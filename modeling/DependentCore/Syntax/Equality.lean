import DependentCore.Syntax.Entry

/-!
# Equality of trees

Whether two trees are the same can be computed, and the computation runs in the kernel. So closed
statements about what the checker and the normaliser return can be decided.

* `Term.same`: compare two terms node by node, with their notes,
* `Term.same_iff`: this is equality.
-/

namespace DependentCore

variable {p : Phase}

instance Mark.decidableEq : ∀ {p : Phase}, DecidableEq (Mark p)
  | .written => inferInstanceAs (DecidableEq Location)
  | .checked => inferInstanceAs (DecidableEq Unit)

mutual

/-- Whether two terms are the same tree. -/
def Term.same : Term p → Term p → Bool
  | .mk (.place loc _) f, .mk (.place loc' _) f' => loc = loc' && f.same f'
  | .mk (.kind _) f, .mk (.kind _) f' => f.same f'
  | .mk (.sort ty _) f, .mk (.sort ty' _) f' => ty.same ty' && f.same f'
  | _, _ => false
termination_by structural t => t

/-- Whether two forms are the same. -/
def Form.same : Form p → Form p → Bool
  | .atom a, .atom a' => a = a'
  | .var v, .var v' => v = v'
  | .unary op x, .unary op' x' => op = op' && x.same x'
  | .binary op x y, .binary op' x' y' => op = op' && x.same x' && y.same y'
  | .app f args, .app f' args' => f.same f' && sameList args args'
  | .list xs, .list xs' => sameList xs xs'
  | .bind k t, .bind k' t' => if h : k' = k then t.same (h ▸ t') else false
  | _, _ => false
termination_by structural t => t

/-- Whether two telescopes are the same. -/
def Tele.same {k : Binder} : Tele p k → Tele p k → Bool
  | .fields, .fields => true
  | .returns m ret, .returns m' ret' => m = m' && ret.same ret'
  | .runs m ret body, .runs m' ret' body' => m = m' && ret.same ret' && sameBody body body'
  | .arg mark qty ty v rest, .arg mark' qty' ty' v' rest' =>
    mark = mark' && qty = qty' && ty.same ty' && v = v' && rest.same rest'
  | _, _ => false
termination_by structural t => t

/-- Whether two statements are the same. -/
def Stmt.same : Stmt p → Stmt p → Bool
  | .call mark x, .call mark' x' | .ret mark x, .ret mark' x'
  | .impossibleBy mark x, .impossibleBy mark' x' => mark = mark' && x.same x'
  | .ifThen mark cond yes, .ifThen mark' cond' yes' =>
    mark = mark' && cond.same cond' && sameBody yes yes'
  | .ifElse mark cond yes no, .ifElse mark' cond' yes' no' =>
    mark = mark' && cond.same cond' && sameBody yes yes' && sameBody no no'
  | .retUnit mark, .retUnit mark' | .impossible mark, .impossible mark' => mark = mark'
  | _, _ => false
termination_by structural t => t

/-- Whether two lists of terms are the same. -/
def sameList : List (Term p) → List (Term p) → Bool
  | [], [] => true
  | x :: xs, x' :: xs' => x.same x' && sameList xs xs'
  | _, _ => false
termination_by structural t => t

/-- Whether two bodies are the same. -/
def sameBody : List (Stmt p) → List (Stmt p) → Bool
  | [], [] => true
  | s :: rest, s' :: rest' => s.same s' && sameBody rest rest'
  | _, _ => false
termination_by structural t => t

end

mutual

/-- Two terms are the same tree if they are equal. -/
theorem Term.same_iff : ∀ a b : Term p, a.same b ↔ a = b
  | .mk n f, .mk n' f' => by
    have hf := Form.same_iff f f'
    cases n with
    | place loc h => cases n' <;> simp [Term.same, hf]
    | kind h => cases n' <;> simp [Term.same, hf]
    | sort ty h =>
      cases n' with
      | sort ty' h' => simp [Term.same, hf, Term.same_iff ty ty']
      | _ => simp [Term.same]
termination_by structural t => t

theorem Form.same_iff : ∀ f g : Form p, f.same g ↔ f = g
  | .atom _, g | .var _, g => by cases g <;> simp [Form.same]
  | .unary op x, g => by
    cases g with
    | unary op' x' => simp [Form.same, Term.same_iff x x']
    | _ => simp [Form.same]
  | .binary op x y, g => by
    cases g with
    | binary op' x' y' => simp [Form.same, Term.same_iff x x', Term.same_iff y y', and_assoc]
    | _ => simp [Form.same]
  | .app f args, g => by
    cases g with
    | app f' args' => simp [Form.same, Term.same_iff f f', sameList_iff args args']
    | _ => simp [Form.same]
  | .list xs, g => by
    cases g with
    | list xs' => simp [Form.same, sameList_iff xs xs']
    | _ => simp [Form.same]
  | .bind k t, g => by
    cases g with
    | bind k' t' =>
      by_cases hk : k = k'
      · subst hk
        simp [Form.same, Tele.same_iff t t']
      · simp [Form.same, hk, Ne.symm hk]
    | _ => simp [Form.same]
termination_by structural t => t

theorem Tele.same_iff {k : Binder} : ∀ t u : Tele p k, t.same u ↔ t = u
  | .fields, u => by cases u <;> simp [Tele.same]
  | .returns m ret, u => by
    cases u with
    | returns m' ret' => simp [Tele.same, Term.same_iff ret ret']
    | arg => simp [Tele.same]
  | .runs m ret body, u => by
    cases u with
    | runs m' ret' body' =>
      simp [Tele.same, Term.same_iff ret ret', sameBody_iff body body', and_assoc]
    | arg => simp [Tele.same]
  | .arg mark qty ty v rest, u => by
    cases u with
    | arg mark' qty' ty' v' rest' =>
      simp [Tele.same, Term.same_iff ty ty', Tele.same_iff rest rest', and_assoc]
    | _ => simp [Tele.same]
termination_by structural t => t

theorem Stmt.same_iff : ∀ s s' : Stmt p, s.same s' ↔ s = s'
  | .call _ x, s' => by
    cases s' with
    | call _ x' => simp [Stmt.same, Term.same_iff x x']
    | _ => simp [Stmt.same]
  | .ifThen _ cond yes, s' => by
    cases s' with
    | ifThen _ cond' yes' =>
      simp [Stmt.same, Term.same_iff cond cond', sameBody_iff yes yes', and_assoc]
    | _ => simp [Stmt.same]
  | .ifElse _ cond yes no, s' => by
    cases s' with
    | ifElse _ cond' yes' no' =>
      simp [Stmt.same, Term.same_iff cond cond', sameBody_iff yes yes', sameBody_iff no no',
        and_assoc]
    | _ => simp [Stmt.same]
  | .ret _ x, s' => by
    cases s' with
    | ret _ x' => simp [Stmt.same, Term.same_iff x x']
    | _ => simp [Stmt.same]
  | .retUnit _, s' | .impossible _, s' => by cases s' <;> simp [Stmt.same]
  | .impossibleBy _ x, s' => by
    cases s' with
    | impossibleBy _ x' => simp [Stmt.same, Term.same_iff x x']
    | _ => simp [Stmt.same]
termination_by structural t => t

theorem sameList_iff : ∀ xs ys : List (Term p), sameList xs ys ↔ xs = ys
  | [], ys => by cases ys <;> simp [sameList]
  | x :: xs, ys => by
    cases ys with
    | nil => simp [sameList]
    | cons y ys => simp [sameList, Term.same_iff x y, sameList_iff xs ys]
termination_by structural t => t

theorem sameBody_iff : ∀ b b' : List (Stmt p), sameBody b b' ↔ b = b'
  | [], b' => by cases b' <;> simp [sameBody]
  | s :: b, b' => by
    cases b' with
    | nil => simp [sameBody]
    | cons s' b' => simp [sameBody, Stmt.same_iff s s', sameBody_iff b b']
termination_by structural t => t

end

instance Term.decidableEq : DecidableEq (Term p) :=
  fun a b => decidable_of_iff _ (Term.same_iff a b)

instance Tele.decidableEq {k : Binder} : DecidableEq (Tele p k) :=
  fun t u => decidable_of_iff _ (Tele.same_iff t u)

instance Form.decidableEq : DecidableEq (Form p) :=
  fun f g => decidable_of_iff _ (Form.same_iff f g)

instance Stmt.decidableEq : DecidableEq (Stmt p) :=
  fun s s' => decidable_of_iff _ (Stmt.same_iff s s')

deriving instance DecidableEq for Item, Entry

/-- Whether a computation that may fail has a given result can be decided, whatever its failures
are. -/
instance decidableEqOk {ε α : Type} [DecidableEq α] : ∀ (x : Except ε α) (a : α),
    Decidable (x = .ok a)
  | .ok b, a => decidable_of_iff (b = a) (by simp)
  | .error _, _ => isFalse nofun

/-- Whether a computation that may fail has a result with a given property can be decided. -/
instance decidableExistsOk {ε α : Type} {P : α → Prop} [DecidablePred P] :
    ∀ x : Except ε α, Decidable (∃ a, x = .ok a ∧ P a)
  | .ok a => decidable_of_iff (P a) (by simp)
  | .error _ => isFalse (by simp)

instance decidableExistsSome {α : Type} {P : α → Prop} [DecidablePred P] :
    ∀ x : Option α, Decidable (∃ a, x = some a ∧ P a)
  | some a => decidable_of_iff (P a) (by simp)
  | none => isFalse (by simp)

end DependentCore
