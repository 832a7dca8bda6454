import DependentCore.Syntax.Term
import DependentCore.Text.Lines

/-!
# Reports

A `Report` is a message with an optional place in the source and the reasons for it, which are
reports themselves. `Report.text` lays it out:

* the place follows the message; if the text there has several lines, it is quoted below,
* a single reason follows after `because`,
* several reasons are numbered and indented by one level.
-/

namespace DependentCore

/-- A message, where it applies, and why. -/
inductive Report where
  | mk (message : String) (loc : Option Location) (reasons : List Report)

/-- The line and column of a place. -/
def Location.position (loc : Location) : String :=
  toString loc.line ++ ":" ++ toString loc.col

/-- Whether the text at a place has several lines, so that it is quoted. -/
def Location.isMultiline (loc : Location) : Bool :=
  loc.text.toList.contains '\n'

/-- A new line that is indented by a number of levels. -/
def newLine (level : Nat) : String :=
  "\n" ++ String.join (List.replicate level "    ")

/-- The place of a message, with the text there if it has several lines. -/
def placeText (level : Nat) : Option Location → String
  | none => ""
  | some loc =>
    " at " ++ loc.position ++
      if loc.isMultiline then
        String.join ((Text.lines loc.text).map (newLine level ++ "> " ++ ·))
      else ""

/-- Whether the text at a place is quoted below the message. -/
def isQuoted : Option Location → Bool
  | none => false
  | some loc => loc.isMultiline

mutual

/-- The text of a report at a level of indentation. -/
def Report.textAt (level : Nat) : Report → String
  | .mk message loc [] => message ++ placeText level loc
  | .mk message loc [reason] =>
    message ++ placeText level loc ++ (if isQuoted loc then newLine level else " ") ++ "because "
      ++ reason.textAt level
  | .mk message loc reasons =>
    message ++ placeText level loc ++ newLine level ++ "Because:" ++ reasonsText level 1 reasons

/-- The numbered reasons of a report, the first of which has number `i`. -/
def reasonsText (level i : Nat) : List Report → String
  | [] => ""
  | reason :: rest =>
    newLine level ++ toString i ++ ". " ++ reason.textAt (level + 1)
      ++ reasonsText level (i + 1) rest

end

/-- The text of a report. -/
def Report.text (r : Report) : String :=
  r.textAt 0

end DependentCore
