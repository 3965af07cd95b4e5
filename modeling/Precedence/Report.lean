import Precedence.Fault
import Precedence.Text.Bytes
import Precedence.Text.Lines

/-!
# Reports

A report shows the line a fault is on and a caret under the place of the fault.
The place is given in bytes; the caret counts characters. The spaces that a line
starts with are not shown. The line is searched for with a running count of bytes
and of lines, and every difference of counts is checked; the main statement is that
no check fails. What stands to the left of the line and of the caret is put there by
padding, and no text can be padded beyond a greatest width. A caret that is to be
further to the right has no report.
-/

namespace Precedence

namespace Text

/-- The greatest width to which a text can be padded. -/
def maxWidth : Nat := UInt16.size - 1

/-- A text behind as many filling characters as it takes to reach a width. There is none if that
is more than the greatest width. -/
def padLeft? (fill : Char) (width : Nat) (text : String) : Option String :=
  if width ≤ maxWidth then some (String.ofList (text.toList.leftpad width fill)) else none

end Text

/-- A line of a text, by its number from one, and a byte offset in it. -/
structure Location where
  line : Nat
  text : List Char
  column : Nat
deriving DecidableEq, Repr, Inhabited

namespace Location

/-- The number of bytes from one offset on to another one, which has to be no earlier. -/
def distance? (start stop : Nat) : Option Nat :=
  if start ≤ stop then some (stop - start) else none

/-- The end of a text with some lines, where `number` is one more than there are lines. It belongs
to the last line, or to an empty one after it if that ends with a newline. -/
def ofEnd? (number : Nat) (lines : List (List Char)) : Option Location :=
  match lines.getLast? with
  | some line =>
    if line.getLast? = some '\n' then
      some ⟨number, [], 0⟩
    else
      (distance? 1 number).map fun last => ⟨last, line, Text.byteLength line⟩
  | none => some ⟨number, [], 0⟩

/-- Finds the line that holds a byte among the lines from byte `start` and line `number` on. If none
of them does, the end of all lines is taken. -/
def scan? (lines : List (List Char)) (offset : Nat) : Nat → Nat → List (List Char) → Option Location
  | _, number, [] => ofEnd? number lines
  | start, number, line :: rest =>
    let stop := start + Text.byteLength line
    if start ≤ offset ∧ offset < stop then
      (distance? start offset).map fun column => ⟨number, line, column⟩
    else
      scan? lines offset stop (number + 1) rest

/-- The line that holds a byte of a text, with the newline that ends it. An offset past the end
counts as the end. There is none if a difference of offsets or numbers on the way has no value. -/
def ofOffset? (text : List Char) (offset : Nat) : Option Location :=
  let lines := Text.lines text
  scan? lines (min offset (Text.byteLength text)) 0 1 lines

/-- The end of a text is found if the count of lines starts from one. -/
theorem isSome_ofEnd? {number : Nat} (hnumber : 1 ≤ number) (lines : List (List Char)) :
    (ofEnd? number lines).isSome := by
  unfold ofEnd?
  split
  · split
    · rfl
    · rw [distance?, if_pos hnumber]
      rfl
  · rfl

/-- A byte is found if the search starts no later than it and counts from one. -/
theorem isSome_scan? {offset start number : Nat} (hstart : start ≤ offset) (hnumber : 1 ≤ number)
    (lines rest : List (List Char)) : (scan? lines offset start number rest).isSome := by
  induction rest generalizing start number with
  | nil => exact isSome_ofEnd? hnumber lines
  | cons line rest ih =>
    simp only [scan?]
    split
    next =>
      rw [distance?, if_pos hstart]
      rfl
    next hpast => exact ih (by omega) (by omega)

/-- Every byte of a text is found. -/
theorem isSome_ofOffset? (text : List Char) (offset : Nat) : (ofOffset? text offset).isSome :=
  isSome_scan? (Nat.zero_le _) (Nat.le_refl 1) _ _

/-- The line that holds a byte of a text, with the newline that ends it. An offset
past the end counts as the end. -/
def ofOffset (text : List Char) (offset : Nat) : Location :=
  (ofOffset? text offset).get (isSome_ofOffset? text offset)

/-- The number of spaces the line starts with. -/
def indent (location : Location) : Nat :=
  (location.text.takeWhile (· == ' ')).length

/-- The line as it is shown. -/
def shown (location : Location) : List Char :=
  Text.trimEnd (location.text.dropWhile (· == ' '))

/-- The number of characters before the column. A column inside a character
stands for itself. -/
def caret (location : Location) : Nat :=
  match Text.splitAt? location.column location.text with
  | some (before, _) => before.length
  | none => location.column

/-- The number of characters that are shown before the column. -/
def dashes (location : Location) : Nat := location.caret - location.indent

end Location

namespace Fault

/-- The first line of a report. -/
def headline (fault : Fault) : String :=
  match fault.cause.tip? with
  | some tip => "Error: " ++ fault.cause.name ++ " (" ++ tip ++ ")"
  | none => "Error: " ++ fault.cause.name

/-- The report of a fault in a text. There is none if the caret would be too far to the right. -/
def report? (fault : Fault) (text : String) : Option String := do
  let location := Location.ofOffset text.toList fault.position.offset.toNat
  let number := location.line.repr
  let margin ← Text.padLeft? ' ' (number.length + 2) "|"
  let caret ← Text.padLeft? '-' (location.dashes + 1) "^"
  return fault.headline ++ "\n" ++
    "-> " ++ fault.position.file ++ "\n" ++
    margin ++ "\n" ++
    number ++ " | " ++ String.ofList location.shown ++ "\n" ++
    margin ++ " " ++ caret

end Fault

end Precedence
