import Precedence.Kind

/-!
# Grammars

A grammar says, for each kind of token, how an expression starts with it and how
it extends an expression that stands before it. How tightly a token binds belongs
to the rule by which it extends, not to the token. The main statements give the
two tables of the standard grammar.
-/

namespace Precedence

/-- How tightly rules bind, from the loosest to the tightest. -/
inductive Power where
  | lowest
  | assignment
  | conditional
  | sum
  | product
  | exponent
  | prefixed
  | postfixed
  | call
deriving DecidableEq, Repr, Inhabited

namespace Power

/-- The place of a power in the order of powers. -/
def level : Power → Nat
  | lowest => 0
  | assignment => 1
  | conditional => 2
  | sum => 3
  | product => 4
  | exponent => 5
  | prefixed => 6
  | postfixed => 7
  | call => 8

end Power

/-- How a token starts an expression. -/
inductive PrefixRule where
  /-- The token is a name. -/
  | name
  /-- The token opens a group that ends with a closing parenthesis. -/
  | group
  /-- The token is an operator before its operand. -/
  | operator (power : Power)
deriving DecidableEq, Repr, Inhabited

/-- The side from which a chain of one operator is grouped. -/
inductive Associativity where
  | left
  | right
deriving DecidableEq, Repr, Inhabited

/-- The level above which operators may stand in a right operand. One level lower
lets an operator of the same power take that operand. -/
def Associativity.threshold (power : Power) : Associativity → Nat
  | left => power.level
  | right => power.level - 1

/-- How a token extends the expression before it. -/
inductive InfixRule where
  /-- The token is an operator after its operand. -/
  | postfixed (power : Power)
  /-- The token is an operator between two operands. -/
  | binary (power : Power) (associativity : Associativity)
  /-- The token divides a condition from its two arms. -/
  | conditional
  /-- The token opens the arguments of a call. -/
  | call
  /-- The token assigns a value to a name. -/
  | assign
deriving DecidableEq, Repr, Inhabited

namespace InfixRule

/-- How tightly a rule binds. -/
def power : InfixRule → Power
  | postfixed power => power
  | binary power _ => power
  | conditional => .conditional
  | call => .call
  | assign => .assignment

/-- The level of a rule's power. -/
def level (rule : InfixRule) : Nat := rule.power.level

end InfixRule

/-- For each kind the rule by which it starts an expression and the rule by which
it extends one, and how deep expressions may be nested. -/
structure Grammar where
  prefixRule : Kind → Option PrefixRule
  infixRule : Kind → Option InfixRule
  depthLimit : Option Nat

/-- One line of a grammar. -/
inductive Entry where
  | starting (kind : Kind) (rule : PrefixRule)
  | extending (kind : Kind) (rule : InfixRule)
deriving DecidableEq, Repr, Inhabited

namespace Grammar

/-- The deepest nesting that is allowed by default. -/
def maxDepth : Nat := 256

/-- The grammar without rules. -/
def empty : Grammar := ⟨fun _ => none, fun _ => none, some maxDepth⟩

/-- Adds a line to a grammar. The line replaces an earlier one for its kind. -/
def add (grammar : Grammar) : Entry → Grammar
  | .starting kind rule =>
    { grammar with
      prefixRule := fun other => if other = kind then some rule else grammar.prefixRule other }
  | .extending kind rule =>
    { grammar with
      infixRule := fun other => if other = kind then some rule else grammar.infixRule other }

/-- Adds lines to a grammar, one after the other. -/
def addAll (grammar : Grammar) (entries : List Entry) : Grammar := entries.foldl add grammar

/-- The lines of the standard grammar. -/
def standardEntries : List Entry :=
  [.starting .identifier .name,
    .starting .openParen .group,
    .starting .plus (.operator .prefixed),
    .starting .dash (.operator .prefixed),
    .starting .tilde (.operator .prefixed),
    .starting .bang (.operator .prefixed),
    .extending .assignment .assign,
    .extending .question .conditional,
    .extending .openParen .call,
    .extending .bang (.postfixed .postfixed),
    .extending .plus (.binary .sum .left),
    .extending .dash (.binary .sum .left),
    .extending .star (.binary .product .left),
    .extending .slash (.binary .product .left),
    .extending .caret (.binary .exponent .right)]

/-- The standard grammar. -/
def standard : Grammar := empty.addAll standardEntries

/-- The table of rules by which standard expressions start. -/
theorem prefixRule_standard (kind : Kind) :
    standard.prefixRule kind =
      match kind with
      | .identifier => some .name
      | .openParen => some .group
      | .plus | .dash | .tilde | .bang => some (.operator .prefixed)
      | _ => none := by
  cases kind <;> rfl

/-- The table of rules by which standard expressions are extended. -/
theorem infixRule_standard (kind : Kind) :
    standard.infixRule kind =
      match kind with
      | .assignment => some .assign
      | .question => some .conditional
      | .openParen => some .call
      | .bang => some (.postfixed .postfixed)
      | .plus | .dash => some (.binary .sum .left)
      | .star | .slash => some (.binary .product .left)
      | .caret => some (.binary .exponent .right)
      | _ => none := by
  cases kind <;> rfl

end Grammar

end Precedence
