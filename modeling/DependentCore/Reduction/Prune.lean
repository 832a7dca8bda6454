import DependentCore.Effect
import DependentCore.Flow.Reachability

/-!
# Pruning

`pruneStmts` removes statements without effect, and `if` statements whose outcome is known because
the condition is literal or because one of the two ways is impossible.
-/

namespace DependentCore

/-- The statements that an `if` may be replaced by, or nothing if it has to stay. The statements
after the `if` are dropped as well if the flag is set.

A condition with effects must stay. Without it, an impossible branch leaves the other one; if there
is no other one and the statements after the `if` are impossible, the branch must be taken. -/
def outcomeOfIf? (cond : Checked) (yes : Body .checked) (no : Option (Body .checked))
    (rest : Body .checked) : Option (Body .checked × Bool) :=
  if cond.isLit true then some (yes, false)
  else if cond.isLit false then some (no.getD [], false)
  else if cond.hasEffect then none
  else if endsImpossible yes then some (no.getD [], false)
  else
    match no with
    | some no => if endsImpossible no then some (yes, false) else none
    | none => if endsImpossible rest then some (yes, true) else none

/-- What one statement is replaced by, given those after it, or nothing if it stays. -/
def Stmt.prune? (rest : Body .checked) : Stmt .checked → Option (Body .checked × Bool)
  | .call _ x => if x.hasEffect then none else some ([], false)
  | .ifThen _ cond yes => outcomeOfIf? cond yes none rest
  | .ifElse _ cond yes no => outcomeOfIf? cond yes (some no) rest
  | _ => none

/-- Remove statements without effect, and `if` statements whose outcome is known. -/
def pruneStmts : Body .checked → Rewritten (Body .checked)
  | [] => ⟨[], false⟩
  | s :: rest =>
    match s.prune? rest with
    | some (spliced, true) => ⟨spliced, true⟩
    | some (spliced, false) => ⟨spliced ++ (pruneStmts rest).result, true⟩
    | none =>
      let rest' := pruneStmts rest
      ⟨s :: rest'.result, rest'.changed⟩

end DependentCore
