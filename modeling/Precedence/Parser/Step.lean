import Precedence.Parser.Expression

/-!
# Steps of a parser

A parser can be driven step by step. Each step has a reply and leaves the parser
ready for the next step, whether it succeeds or not.
-/

namespace Precedence

/-- What a parser can be asked to do. -/
inductive Step where
  /-- Parse an expression whose operators bind tighter than a level. -/
  | parse (level : Nat)
  /-- Take the next token if it is of a kind. -/
  | accept (kind : Kind)
  /-- Take the next token, which has to be of a kind. -/
  | expect (kind : Kind)
  /-- Take the next token. -/
  | consume
  /-- Look at the token some places ahead. -/
  | lookAhead (distance : Nat)
  /-- Ask for the level at which the next token extends an expression. -/
  | peekLevel
deriving DecidableEq, Repr, Inhabited

/-- What a parser answers. -/
inductive Reply where
  | expr (expr : Expr)
  | token (token : Token)
  | taken (taken : Bool)
  | level (level : Nat)
  | stopped (reason : Stop)
deriving DecidableEq, Repr, Inhabited

/-- The reply of an action, and the parser after it. -/
def ParseM.reply {α : Type} (action : ParseM α) (answer : α → Reply) (parser : Parser) :
    Reply × Parser :=
  match action.run parser with
  | .ok value after => (answer value, after)
  | .stop reason after => (.stopped reason, after)

/-- The reply to a step, and the parser after it. -/
def Step.run (grammar : Grammar) (parser : Parser) : Step → Reply × Parser
  | parse level => (Parser.parseExpr grammar level).reply .expr parser
  | accept kind => (Parser.accept kind).reply .taken parser
  | expect kind => (Parser.expect kind).reply .token parser
  | consume => Parser.consume.reply .token parser
  | lookAhead distance => (Parser.lookAhead distance).reply .token parser
  | peekLevel => (Parser.peekLevel grammar).reply .level parser

/-- The replies to steps taken one after the other, each with the parser after it. -/
def Step.runAll (grammar : Grammar) : Parser → List Step → List (Reply × Parser)
  | _, [] => []
  | parser, step :: steps =>
    step.run grammar parser :: runAll grammar (step.run grammar parser).2 steps

end Precedence
