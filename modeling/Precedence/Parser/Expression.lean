import Precedence.Expr
import Precedence.Parser.Basic

/-!
# Parsing an expression

An expression starts by the prefix rule of its first token. It is extended by the
infix rules of the tokens that follow, as long as these bind tighter than a given
level. Each rule parses its operands by the same procedure one level of nesting
deeper.

The procedure counts down a fuel. `Parser.fuel` is enough of it for every parse
that ends: each turn of a loop takes a token, and past the last token of a supply
every turn is like the one before. `Stop.endless` therefore says that the parse
does not end.
-/

namespace Precedence

/-- How a rule parses an operand whose operators bind tighter than a level. -/
abbrev Operand := Nat → ParseM Expr

/-- Parses the rest of an expression that starts with `token`. -/
def PrefixRule.parse (operand : Operand) (token : Token) : PrefixRule → ParseM Expr
  | name => return .name token.value
  | group => do
    let expr ← operand Power.lowest.level
    let _ ← Parser.expect .closeParen
    return expr
  | operator power => do
    let right ← operand power.level
    return .prefixed token.kind right

/-- Parses arguments that are divided by commas. -/
def Operand.separated (operand : Operand) : Nat → ParseM (List Expr)
  | 0 => .stop .endless
  | fuel + 1 => do
    let first ← operand Power.lowest.level
    if ← Parser.accept .comma then
      let rest ← operand.separated fuel
      return first :: rest
    else
      return [first]

/-- Parses the arguments of a call, up to and including the closing parenthesis. -/
def Operand.arguments (operand : Operand) (fuel : Nat) : ParseM (List Expr) := do
  if ← Parser.accept .closeParen then
    return []
  else
    let exprs ← operand.separated fuel
    let _ ← Parser.expect .closeParen
    return exprs

/-- Parses the rest of an expression that starts with `left` and goes on with `token`. -/
def InfixRule.parse (operand : Operand) (fuel : Nat) (left : Expr) (token : Token) :
    InfixRule → ParseM Expr
  | postfixed _ => return .postfixed left token.kind
  | binary power associativity => do
    let right ← operand (associativity.threshold power)
    return .binary left token.kind right
  | conditional => do
    let yes ← operand Power.lowest.level
    let _ ← Parser.expect .colon
    let no ← operand (Power.conditional.level - 1)
    return .conditional left yes no
  | call => do
    let arguments ← operand.arguments fuel
    return .call left arguments
  | assign => do
    let value ← operand (Power.assignment.level - 1)
    match left.assignTo value token.start with
    | .ok expr => return expr
    | .error fault => .stop (.fault fault)

namespace Parser

/-- Extends `left` while the next token binds tighter than `level`. -/
def extend (grammar : Grammar) (operand : Operand) (level : Nat) : Nat → Expr → ParseM Expr
  | 0, _ => .stop .endless
  | fuel + 1, left => do
    let following ← peek
    match grammar.infixRule following.kind with
    | none => return left
    | some rule =>
      if rule.level ≤ level then
        return left
      else
        let token ← consume
        let longer ← rule.parse operand fuel left token
        extend grammar operand level fuel longer

/-- Parses an expression whose operators bind tighter than a level. -/
def expression (grammar : Grammar) : Nat → Operand
  | 0, _ => .stop .endless
  | fuel + 1, level => nested grammar.depthLimit do
    let token ← consume
    match grammar.prefixRule token.kind with
    | none => fail (.noPrefixRule token.value) token.start
    | some rule =>
      let left ← rule.parse (expression grammar fuel) token
      extend grammar (expression grammar fuel) level (fuel + 1) left

/-- The fuel within which every parse that ends does end. -/
def fuel (grammar : Grammar) (parser : Parser) : Nat :=
  parser.ahead.length + parser.supply.size +
    (grammar.depthLimit.map fun limit => limit - parser.depth).getD 0 + 2

/-- Parses an expression whose operators bind tighter than `level`. -/
def parseExpr (grammar : Grammar) (level : Nat) : ParseM Expr :=
  ⟨fun parser => (expression grammar (parser.fuel grammar) level).run parser⟩

/-- A parse runs with the fuel its parser needs. -/
@[simp] theorem run_parseExpr (grammar : Grammar) (level : Nat) (parser : Parser) :
    (parseExpr grammar level).run parser =
      (expression grammar (parser.fuel grammar) level).run parser := rfl

/-- Parses an expression that takes up the whole input. -/
def parseAll (grammar : Grammar) : ParseM Expr := do
  let expr ← parseExpr grammar Power.lowest.level
  let _ ← expect .endOfInput
  return expr

end Parser

end Precedence
