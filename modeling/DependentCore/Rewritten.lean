/-!
# Rewriting passes

A pass over a tree gives the new tree and says whether it changed anything. `Rewritten` is such an
outcome; passes over the parts of a tree are combined by `map` and `map₂`.
-/

namespace DependentCore

/-- The result of a rewriting pass, and whether the pass changed anything. -/
structure Rewritten (α : Type) where
  result : α
  changed : Bool

namespace Rewritten

variable {α β γ : Type}

/-- The outcome of an optional step. -/
def ofStep (a : α) (step : Option α) : Rewritten α :=
  match step with
  | some b => ⟨b, true⟩
  | none => ⟨a, false⟩

/-- Apply a function to the result of a pass. -/
def map (f : α → β) (r : Rewritten α) : Rewritten β :=
  ⟨f r.result, r.changed⟩

/-- Combine the results of two passes. -/
def map₂ (f : α → β → γ) (r : Rewritten α) (s : Rewritten β) : Rewritten γ :=
  ⟨f r.result s.result, r.changed || s.changed⟩

end Rewritten

end DependentCore
