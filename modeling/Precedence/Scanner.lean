import Precedence.Token
import Precedence.Text.Bytes

/-!
# Scanning a text into tokens

A longest run of letters is an identifier, a punctuator is a token by itself,
and every other character is skipped. Past the last token the scanner gives the
end mark for ever. The main statement is that each token other than the end mark
takes at least one character, which is why `Scanner.tokens` ends.
-/

namespace Precedence

/-- A scanner between two characters of a text: the name of the text, the byte
offset reached and the characters still to be read. -/
structure Scanner where
  file : String
  offset : Nat
  rest : List Char
deriving DecidableEq, Repr, Inhabited

namespace Scanner

/-- A scanner at the start of a text. -/
def ofText (text : String) (file : String := shell) : Scanner := ⟨file, 0, text.toList⟩

/-- The next token, and the scanner after it. -/
def scan (file : String) (offset : Nat) : List Char → Token × Scanner
  | [] => (.endMark (.between file offset offset), ⟨file, offset, []⟩)
  | c :: rest =>
    if c.isAlpha then
      let word := c :: rest.takeWhile Char.isAlpha
      let stop := offset + Text.byteLength word
      (⟨.identifier, String.ofList word, .between file offset stop⟩,
        ⟨file, stop, rest.dropWhile Char.isAlpha⟩)
    else
      let stop := offset + c.utf8Size
      match Kind.ofPunctuator? c with
      | some kind => (⟨kind, String.singleton c, .between file offset stop⟩, ⟨file, stop, rest⟩)
      | none => scan file stop rest

/-- The next token, and the scanner after it. -/
def next (scanner : Scanner) : Token × Scanner :=
  scan scanner.file scanner.offset scanner.rest

/-- Scanning never gives characters back. -/
theorem length_scan_le (file : String) (offset : Nat) (text : List Char) :
    (scan file offset text).2.rest.length ≤ text.length := by
  fun_induction scan file offset text with
  | case1 => simp
  | case2 offset c rest hc word stop =>
    have h := (List.dropWhile_sublist Char.isAlpha (l := rest)).length_le
    simp only [List.length_cons]
    omega
  | case3 offset c rest hc stop kind hkind => simp
  | case4 offset c rest hc stop hkind ih =>
    simp only [List.length_cons]
    omega

/-- A token other than the end mark takes at least one character. -/
theorem length_scan_lt {file : String} {offset : Nat} {text : List Char}
    (h : (scan file offset text).1.kind ≠ .endOfInput) :
    (scan file offset text).2.rest.length < text.length := by
  fun_induction scan file offset text with
  | case1 => exact absurd rfl h
  | case2 offset c rest hc word stop =>
    have hle := (List.dropWhile_sublist Char.isAlpha (l := rest)).length_le
    simp only [List.length_cons]
    omega
  | case3 offset c rest hc stop kind hkind => simp
  | case4 offset c rest hc stop hkind ih =>
    have hlt := ih h
    simp only [List.length_cons]
    omega

/-- The tokens of a text, up to and including its end mark. -/
def tokens (scanner : Scanner) : List Token :=
  if scanner.next.1.kind = .endOfInput then
    [scanner.next.1]
  else
    scanner.next.1 :: tokens scanner.next.2
termination_by scanner.rest.length
decreasing_by exact length_scan_lt ‹_›

end Scanner

/-- The tokens of a text, up to and including its end mark. -/
def tokenize (text : String) (file : String := shell) : List Token :=
  (Scanner.ofText text file).tokens

end Precedence
