import Precedence.Kind
import Precedence.Position

/-!
# Tokens

A token has a kind, the text it was read from and the place where it stood.
-/

namespace Precedence

/-- A token: its kind, its text and its place. -/
structure Token where
  kind : Kind
  value : String
  span : Span
deriving DecidableEq, Repr, Inhabited

namespace Token

/-- The mark that ends the input at the place `span`. -/
def endMark (span : Span) : Token := ⟨.endOfInput, "", span⟩

/-- The first position of a token. -/
def start (token : Token) : Position := token.span.start

/-- The line a listing of tokens shows. Only an identifier shows its text. -/
def listing (token : Token) : String :=
  match token.kind with
  | .identifier => token.kind.name ++ " (" ++ token.value ++ ")"
  | kind => kind.name ++ " ()"

end Token

end Precedence
