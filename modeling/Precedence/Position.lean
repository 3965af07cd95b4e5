/-!
# Positions

A position is a byte offset in a named text. Offsets are 32-bit words: a text
longer than that wraps around.
-/

namespace Precedence

/-- A byte offset together with the name of the text it is an offset of. -/
structure Position where
  offset : UInt32
  file : String
deriving DecidableEq, Repr, Inhabited

/-- The position that belongs to no text. -/
def Position.null : Position := ⟨0, "<null>"⟩

/-- The name of a text that was given none. -/
def shell : String := "shell"

/-- A stretch of text, from its first byte up to the byte after its last. -/
structure Span where
  start : Position
  stop : Position
deriving DecidableEq, Repr, Inhabited

/-- The span from byte `start` up to byte `stop` of a text. -/
def Span.between (file : String) (start stop : Nat) : Span :=
  ⟨⟨start.toUInt32, file⟩, ⟨stop.toUInt32, file⟩⟩

end Precedence
