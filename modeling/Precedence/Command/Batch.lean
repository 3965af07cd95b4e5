import Precedence.Position
import Precedence.Text.Blank
import Precedence.Text.Lines

/-!
# Batches of expressions

The lines of a file or of the standard input are a batch of expressions. A file
is decoded as a whole and then cut into lines; the standard input is cut into lines
and then decoded line by line. Blank lines are left out.
-/

namespace Precedence.Command

/-- Why a batch could not be read. -/
inductive ReadFailure where
  | missing
  | notDirectory
  | isDirectory
  | nameTooLong
  | invalidText
  | other (message : String)
deriving DecidableEq, Repr, Inhabited

/-- The message of a failure. -/
def ReadFailure.message : ReadFailure → String
  | missing => "No such file or directory (os error 2)"
  | notDirectory => "Not a directory (os error 20)"
  | isDirectory => "Is a directory (os error 21)"
  | nameTooLong => "File name too long (os error 36)"
  | invalidText => "stream did not contain valid UTF-8"
  | other message => message

/-- Expressions, and the name of the text they come from. -/
structure Batch where
  file : String
  expressions : List String
deriving DecidableEq, Repr, Inhabited

namespace Batch

/-- A line without the newline that ends it, nor the carriage return before that. -/
def unterminated (line : List Char) : List Char :=
  match line.getLast? with
  | some '\n' =>
    match line.dropLast.getLast? with
    | some '\r' => line.dropLast.dropLast
    | _ => line.dropLast
  | _ => line

/-- The expressions on some lines. -/
def ofLines (lines : List (List Char)) : List String :=
  ((lines.map unterminated).filter fun line => !line.all Text.isBlank).map String.ofList

/-- The last component of a path. -/
def nameOf (path : String) : String :=
  String.ofList (path.toList.reverse.takeWhile (· ≠ '/')).reverse

/-- The batch of a file that holds some bytes. -/
def ofFile (path : String) (bytes : ByteArray) : Except ReadFailure Batch :=
  match String.fromUTF8? bytes with
  | some text => .ok ⟨nameOf path, ofLines (Text.segments Text.isNewline text.toList)⟩
  | none => .error .invalidText

/-- The text of one line of bytes. -/
def decodeLine (bytes : List UInt8) : Option (List Char) :=
  (String.fromUTF8? bytes.toByteArray).map String.toList

/-- The batch of a standard input that holds some bytes. -/
def ofInput (bytes : ByteArray) : Except ReadFailure Batch :=
  match (Text.segments (· == 10) bytes.toList).mapM decodeLine with
  | some lines => .ok ⟨shell, ofLines lines⟩
  | none => .error .invalidText

/-- The batch of expressions given one by one. -/
def ofExpressions (expressions : List String) : Batch := ⟨shell, expressions⟩

end Batch

end Precedence.Command
