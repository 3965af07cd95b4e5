/-!
# Kinds of tokens

A token is a punctuator, an identifier or the mark that ends the input. The main
statement is that `Kind.punctuator?` and `Kind.ofPunctuator?` are inverse to
each other, so a punctuator and its kind determine one another.
-/

namespace Precedence

/-- The kinds of tokens. -/
inductive Kind where
  | openParen
  | closeParen
  | comma
  | assignment
  | plus
  | dash
  | star
  | slash
  | caret
  | tilde
  | bang
  | question
  | colon
  | identifier
  | endOfInput
deriving DecidableEq, Repr, Inhabited

namespace Kind

/-- Every kind, punctuators first. -/
def all : List Kind :=
  [openParen, closeParen, comma, assignment, plus, dash, star, slash, caret, tilde, bang,
    question, colon, identifier, endOfInput]

/-- The one character a punctuator is written with. -/
def punctuator? : Kind → Option Char
  | openParen => some '('
  | closeParen => some ')'
  | comma => some ','
  | assignment => some '='
  | plus => some '+'
  | dash => some '-'
  | star => some '*'
  | slash => some '/'
  | caret => some '^'
  | tilde => some '~'
  | bang => some '!'
  | question => some '?'
  | colon => some ':'
  | identifier => none
  | endOfInput => none

/-- The kind that a character is the punctuator of. -/
def ofPunctuator? (c : Char) : Option Kind := all.find? fun kind => kind.punctuator? = some c

/-- The name of a kind, as a listing of tokens shows it. -/
def name : Kind → String
  | openParen => "OpenParen"
  | closeParen => "CloseParen"
  | comma => "Comma"
  | assignment => "Assignment"
  | plus => "Plus"
  | dash => "Dash"
  | star => "Star"
  | slash => "Slash"
  | caret => "Caret"
  | tilde => "Tilde"
  | bang => "Not"
  | question => "Question"
  | colon => "Colon"
  | identifier => "Identifier"
  | endOfInput => "EOF"

/-- A kind as expressions and messages show it: its punctuator, or else its name. -/
def display (kind : Kind) : String :=
  match kind.punctuator? with
  | some c => String.singleton c
  | none => kind.name

/-- A character stands for a kind exactly when it is the punctuator of that kind. -/
theorem ofPunctuator?_eq_some_iff {c : Char} {kind : Kind} :
    ofPunctuator? c = some kind ↔ kind.punctuator? = some c := by
  constructor
  · intro h
    rw [ofPunctuator?] at h
    simpa using List.find?_some h
  · intro h
    cases kind <;> simp only [punctuator?, Option.some.injEq, reduceCtorEq] at h <;> subst h <;> rfl

/-- The kind of a punctuator is not the end of the input. -/
theorem ne_endOfInput_of_ofPunctuator? {c : Char} {kind : Kind}
    (h : ofPunctuator? c = some kind) : kind ≠ endOfInput := by
  rintro rfl
  have := ofPunctuator?_eq_some_iff.mp h
  simp [punctuator?] at this

end Kind

end Precedence
