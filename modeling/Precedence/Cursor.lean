import Precedence.Scanner

/-!
# Reading from any byte

A cursor may be moved to any byte of its text, also inside a character or past
the end, as long as its offset fits a 64-bit word. A move beyond that and a
reading from inside a character fail and leave the cursor where it is.
-/

namespace Precedence

/-- A byte offset in a named text. -/
structure Cursor where
  file : String
  text : String
  offset : Nat
deriving DecidableEq, Repr, Inhabited

namespace Cursor

/-- A cursor at the start of a text. -/
def ofText (text : String) (file : String := shell) : Cursor := ⟨file, text, 0⟩

/-- The number of offsets a cursor can have. -/
def offsets : Nat := UInt64.size

/-- The cursor some bytes further on, if its offset still fits. -/
def advance? (cursor : Cursor) (bytes : Nat) : Option Cursor :=
  if cursor.offset + bytes < offsets then
    some { cursor with offset := cursor.offset + bytes }
  else
    none

/-- Whether a cursor is at the end of its text or past it. -/
def atEnd (cursor : Cursor) : Bool := cursor.text.utf8ByteSize ≤ cursor.offset

/-- The text from the cursor on, if the cursor stands between two characters. -/
def remainder? (cursor : Cursor) : Option String :=
  (Text.splitAt? cursor.offset cursor.text.toList).map fun (_, after) => String.ofList after

/-- The next token, and the cursor after it. At the end and past it that is the
end mark and the cursor itself. -/
def next? (cursor : Cursor) : Option (Token × Cursor) :=
  if cursor.atEnd then
    let size := cursor.text.utf8ByteSize
    some (.endMark (.between cursor.file size size), cursor)
  else
    cursor.remainder?.map fun rest =>
      let (token, scanner) := Scanner.scan cursor.file cursor.offset rest.toList
      (token, { cursor with offset := scanner.offset })

end Cursor

end Precedence
