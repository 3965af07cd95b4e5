import Precedence.Kind
import Precedence.Position
import Precedence.Text.Quoted

/-!
# Faults

A fault says what is wrong with an expression and where. Its cause has a name, a
message and, with one exception, a tip for the reader.
-/

namespace Precedence

/-- What can be wrong with an expression. -/
inductive Cause where
  /-- No expression starts with a token of this text. -/
  | noPrefixRule (text : String)
  /-- A token of one kind stands where another is needed. -/
  | unexpectedToken (expected found : Kind)
  /-- Something other than a name is assigned to. -/
  | invalidAssignmentTarget
  /-- Expressions are nested in one another more than `limit` deep. -/
  | nestingTooDeep (limit : Nat)
deriving DecidableEq, Repr, Inhabited

namespace Cause

/-- The name of a cause. -/
def name : Cause → String
  | noPrefixRule _ => "NoPrefixRule"
  | unexpectedToken _ _ => "UnexpectedToken"
  | invalidAssignmentTarget => "InvalidAssignmentTarget"
  | nestingTooDeep _ => "NestingTooDeep"

/-- The message of a cause. -/
def message : Cause → String
  | noPrefixRule text => "could not parse " ++ Text.quote text
  | unexpectedToken expected found =>
    "expected token " ++ expected.display ++ " and found " ++ found.display
  | invalidAssignmentTarget => "the left-hand side of an assignment must be a name"
  | nestingTooDeep limit => "expression nests deeper than " ++ limit.repr ++ " levels"

/-- What the reader is told about a cause. A token without text is the end of
the input. -/
def tip? : Cause → Option String
  | noPrefixRule text =>
    if text.isEmpty then
      some "Input ended where an expression was expected"
    else
      some ("`" ++ text ++ "` cannot start an expression")
  | unexpectedToken expected found =>
    some ("Expected `" ++ expected.display ++ "`, found `" ++ found.display ++ "`")
  | invalidAssignmentTarget => some "The left-hand side of an assignment must be a name"
  | nestingTooDeep _ => none

end Cause

/-- A cause and the position it is reported at. -/
structure Fault where
  cause : Cause
  position : Position
deriving DecidableEq, Repr, Inhabited

end Precedence
