import Precedence.Scanner

/-!
# Supplies of tokens

A parser reads from a text or from a list of tokens. Either supply gives finitely
many tokens and then the end mark for ever; `Supply.size` bounds how many
tokens come before that.
-/

namespace Precedence

/-- A list of tokens to be given out, and the position of the end marks given for
ever after. -/
structure Replay where
  tokens : List Token
  stop : Position
deriving DecidableEq, Repr, Inhabited

namespace Replay

/-- Gives out a list of tokens. The end marks stand where the last token stops. -/
def ofList (tokens : List Token) : Replay :=
  ⟨tokens, (tokens.getLast?.map fun token => token.span.stop).getD Position.null⟩

/-- The next token, and what is given out after it. -/
def next (replay : Replay) : Token × Replay :=
  match replay.tokens with
  | [] => (.endMark ⟨replay.stop, replay.stop⟩, replay)
  | token :: tokens => (token, { replay with tokens })

/-- The next `count` tokens. -/
def take : Nat → Replay → List Token
  | 0, _ => []
  | count + 1, replay => replay.next.1 :: take count replay.next.2

end Replay

/-- Where a parser takes its tokens from. -/
inductive Supply where
  | text (scanner : Scanner)
  | list (replay : Replay)
deriving DecidableEq, Repr, Inhabited

namespace Supply

/-- The next token, and the supply after it. -/
def next : Supply → Token × Supply
  | text scanner => (scanner.next.1, text scanner.next.2)
  | list replay => (replay.next.1, list replay.next.2)

/-- A bound on the number of tokens before the end marks that never stop. -/
def size : Supply → Nat
  | text scanner => scanner.rest.length
  | list replay => replay.tokens.length

/-- Taking a token never enlarges a supply. -/
theorem size_next_le (supply : Supply) : supply.next.2.size ≤ supply.size := by
  cases supply with
  | text scanner => exact Scanner.length_scan_le _ _ _
  | list replay =>
    cases h : replay.tokens <;> simp [next, size, Replay.next, h]

/-- A token other than the end mark makes a supply smaller. -/
theorem size_next_lt {supply : Supply} (h : supply.next.1.kind ≠ .endOfInput) :
    supply.next.2.size < supply.size := by
  cases supply with
  | text scanner => exact Scanner.length_scan_lt h
  | list replay =>
    cases htokens : replay.tokens with
    | nil => simp [next, Replay.next, htokens, Token.endMark] at h
    | cons token tokens => simp [next, size, Replay.next, htokens]

end Supply

end Precedence
