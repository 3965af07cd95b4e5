import Precedence.Parser.Termination

/-!
# Parsing with the standard grammar

The standard grammar limits nesting and does not extend an expression by the end
of the input, so a parse gives an expression or a fault and nothing else. The main
statements tie `parse` to the run of the parser behind it.
-/

namespace Precedence

/-- No standard parse of a whole input is endless. -/
theorem Parser.parseAll_standard_ne_endless (parser after : Parser) :
    (parseAll .standard).run parser ≠ .stop .endless after :=
  (settles_parseAll rfl rfl parser).ne_endless after

/-- The expression that the tokens of a supply form, or the first fault. -/
def parse (supply : Supply) : Except Fault Expr :=
  match h : (Parser.parseAll .standard).run (.ofSupply supply) with
  | .ok expr _ => .ok expr
  | .stop (.fault fault) _ => .error fault
  | .stop .endless after => absurd h (Parser.parseAll_standard_ne_endless _ after)

/-- The expression that a text spells, or the first fault. -/
def parseText (text : String) (file : String := shell) : Except Fault Expr :=
  parse (.text (.ofText text file))

/-- The expression that a list of tokens forms, or the first fault. -/
def parseTokens (tokens : List Token) : Except Fault Expr :=
  parse (.list (.ofList tokens))

/-- A parse gives an expression exactly if the run of the parser does. -/
theorem parse_eq_ok_iff {supply : Supply} {expr : Expr} :
    parse supply = .ok expr ↔
      ∃ after, (Parser.parseAll .standard).run (.ofSupply supply) = .ok expr after := by
  unfold parse
  split
  next value after h => simp [h]
  next fault after h => simp [h]
  next after h => exact absurd h (Parser.parseAll_standard_ne_endless _ after)

/-- A parse gives a fault exactly if the run of the parser stops with it. -/
theorem parse_eq_error_iff {supply : Supply} {fault : Fault} :
    parse supply = .error fault ↔
      ∃ after, (Parser.parseAll .standard).run (.ofSupply supply) = .stop (.fault fault) after := by
  unfold parse
  split
  next value after h => simp [h]
  next other after h => simp [h]
  next after h => exact absurd h (Parser.parseAll_standard_ne_endless _ after)

end Precedence
