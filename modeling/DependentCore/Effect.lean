import DependentCore.Syntax.Term

/-!
# Effects

`Term.hasEffect` decides whether evaluating a checked term may have side effects: it contains a
call to a function with a mutable signature. An abstraction has none, since its body is evaluated
only when it is called.
-/

namespace DependentCore

/-- Whether a term is typed as a function with effects. -/
def Term.hasMutableSort (f : Checked) : Bool :=
  match f.piSort? with
  | some s => s.mutability = .yes
  | none => false

mutual

/-- Whether evaluating a term may have side effects. -/
def Term.hasEffect : Checked → Bool
  | .mk _ form => form.hasEffect

/-- Whether evaluating a form may have side effects. -/
def Form.hasEffect : Form .checked → Bool
  | .atom _ | .var _ => false
  | .unary _ x => x.hasEffect
  | .binary _ x y => x.hasEffect || y.hasEffect
  | .app f args => f.hasMutableSort || f.hasEffect || hasEffectList args
  | .list xs => hasEffectList xs
  | .bind k t => k ≠ .abs && t.hasEffect

/-- Whether evaluating the argument types and the return type of a telescope may have side
effects. -/
def Tele.hasEffect {k : Binder} : Tele .checked k → Bool
  | .fields => false
  | .returns _ ret => ret.hasEffect
  | .runs _ ret _ => ret.hasEffect
  | .arg _ _ ty _ rest => ty.hasEffect || rest.hasEffect

/-- Whether evaluating the terms of a list may have side effects. -/
def hasEffectList : List Checked → Bool
  | [] => false
  | x :: xs => x.hasEffect || hasEffectList xs

end

end DependentCore
