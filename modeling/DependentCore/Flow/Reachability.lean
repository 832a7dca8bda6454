import DependentCore.Rewritten
import DependentCore.Syntax.Term

/-!
# Reachability

Which statements control never continues past, and the removal of statements that are never
executed.

* `Stmt.isTerminator`, `returnsAlways`: no path through the statement or body falls off its end,
* `Stmt.stops`: the same, taking into account which branch a literal condition selects,
* `endsImpossible`: an `impossible` is met before a statement that ends the body otherwise,
* `dropUnreachable`: drop what follows a terminator and the branches that are never taken.
-/

namespace DependentCore

variable {p : Phase}

/-! ## Terminators -/

mutual

/-- Whether control never continues past the statement. -/
def Stmt.isTerminator : Stmt p → Bool
  | .call _ _ | .ifThen _ _ _ => false
  | .ifElse _ _ yes no => returnsAlways yes && returnsAlways no
  | .ret _ _ | .retUnit _ | .impossible _ | .impossibleBy _ _ => true

/-- Whether every path through the body ends at a terminator. -/
def returnsAlways : List (Stmt p) → Bool
  | [] => false
  | s :: rest => s.isTerminator || returnsAlways rest

end

/-- Whether control never continues past the statement, where a literal condition selects its
branch. -/
def Stmt.stops : Stmt p → Bool
  | .ifThen _ cond yes => cond.isLit true && returnsAlways yes
  | .ifElse m cond yes no =>
    if cond.isLit true then returnsAlways yes
    else if cond.isLit false then returnsAlways no
    else (Stmt.ifElse m cond yes no).isTerminator
  | s => s.isTerminator

/-! ## Impossible code -/

mutual

/-- Whether the statement is `impossible`, or an `if` both branches of which are impossible. -/
def Stmt.endsImpossible : Stmt p → Bool
  | .impossible _ | .impossibleBy _ _ => true
  | .ifElse _ _ yes no => endsImpossible yes && endsImpossible no
  | .call _ _ | .ifThen _ _ _ | .ret _ _ | .retUnit _ => false

/-- Whether an impossible statement is met before a terminator of another kind. Statements that
may be passed are not looked into. -/
def endsImpossible : List (Stmt p) → Bool
  | [] => false
  | s :: rest => s.endsImpossible || (!s.isTerminator && endsImpossible rest)

end

/-! ## Removal -/

mutual

/-- Remove unreachable code inside a statement: the branch that a literal condition does not
select, and unreachable code in the branches that stay. -/
def Stmt.dropUnreachable : Stmt p → Rewritten (Stmt p)
  | .ifThen m cond yes =>
    if cond.isLit false then
      ⟨.ifThen m cond [], !yes.isEmpty⟩
    else
      let yes' := dropUnreachable yes
      ⟨.ifThen m cond yes'.result, yes'.changed⟩
  | .ifElse m cond yes no =>
    if cond.isLit true then
      let yes' := dropUnreachable yes
      ⟨.ifThen m cond yes'.result, true⟩
    else if cond.isLit false then
      let no' := dropUnreachable no
      ⟨.ifElse m cond [] no'.result, !yes.isEmpty || no'.changed⟩
    else
      let yes' := dropUnreachable yes
      let no' := dropUnreachable no
      ⟨.ifElse m cond yes'.result no'.result, yes'.changed || no'.changed⟩
  | s => ⟨s, false⟩

/-- Remove unreachable code inside the statements of a body, and all statements after a
terminator. -/
def dropUnreachable : List (Stmt p) → Rewritten (List (Stmt p))
  | [] => ⟨[], false⟩
  | s :: rest =>
    let s' := s.dropUnreachable
    if s'.result.isTerminator then
      ⟨[s'.result], s'.changed || !rest.isEmpty⟩
    else
      let rest' := dropUnreachable rest
      ⟨s'.result :: rest'.result, s'.changed || rest'.changed⟩

end

end DependentCore
