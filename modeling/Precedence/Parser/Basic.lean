import Precedence.Fault
import Precedence.Grammar
import Precedence.Supply

/-!
# The state of a parser

A parser holds a supply of tokens, the tokens it has read ahead of what it has
consumed, and the number of expressions it is inside of. Looking ahead is taking
tokens and putting them back, so it does not change which tokens come next.
-/

namespace Precedence

/-- A parser between two tokens. -/
structure Parser where
  supply : Supply
  ahead : List Token
  depth : Nat
deriving DecidableEq, Repr, Inhabited

/-- Why a parse gives no expression: there is a fault, or the parse never ends. -/
inductive Stop where
  | fault (fault : Fault)
  | endless
deriving DecidableEq, Repr, Inhabited

/-- How an action of a parser ends, and where it leaves the parser. -/
inductive Parsed (α : Type) where
  | ok (value : α) (after : Parser)
  | stop (reason : Stop) (after : Parser)
deriving DecidableEq, Repr, Inhabited

/-- An action of a parser. -/
@[ext] structure ParseM (α : Type) where
  run : Parser → Parsed α

namespace ParseM

/-- An action that stops. -/
def stop {α : Type} (reason : Stop) : ParseM α := ⟨fun parser => .stop reason parser⟩

instance : Monad ParseM where
  pure value := ⟨fun parser => .ok value parser⟩
  bind first second := ⟨fun parser =>
    match first.run parser with
    | .ok value after => (second value).run after
    | .stop reason after => .stop reason after⟩

/-- Stopping leaves the parser as it is. -/
@[simp] theorem run_stop {α : Type} (reason : Stop) (parser : Parser) :
    (stop reason : ParseM α).run parser = .stop reason parser := rfl

/-- Giving a value leaves the parser as it is. -/
@[simp] theorem run_pure {α : Type} (value : α) (parser : Parser) :
    (pure value : ParseM α).run parser = .ok value parser := rfl

/-- A second action runs where the first has given a value. -/
@[simp] theorem run_bind {α β : Type} (first : ParseM α) (second : α → ParseM β)
    (parser : Parser) :
    (first >>= second).run parser =
      match first.run parser with
      | .ok value after => (second value).run after
      | .stop reason after => .stop reason after := rfl

/-- A function changes the value and nothing else. -/
@[simp] theorem run_map {α β : Type} (f : α → β) (action : ParseM α) (parser : Parser) :
    (f <$> action).run parser =
      match action.run parser with
      | .ok value after => .ok (f value) after
      | .stop reason after => .stop reason after := rfl

instance : LawfulMonad ParseM :=
  LawfulMonad.mk' ParseM
    (fun action => by
      ext parser
      rw [run_map]
      cases action.run parser <;> rfl)
    (fun _ _ => rfl)
    (fun first second third => by
      ext parser
      simp only [run_bind]
      cases first.run parser <;> rfl)

end ParseM

namespace Parser

/-- A parser that has read nothing. -/
def ofSupply (supply : Supply) : Parser := ⟨supply, [], 0⟩

/-- The next token, and the parser after it. -/
def next (parser : Parser) : Token × Parser :=
  match parser.ahead with
  | token :: ahead => (token, { parser with ahead })
  | [] => (parser.supply.next.1, { parser with supply := parser.supply.next.2 })

/-- Puts a token back in front of those to come. -/
def unread (parser : Parser) (token : Token) : Parser :=
  { parser with ahead := token :: parser.ahead }

/-- The token some places ahead, and the parser after reading that far. -/
def reach : Nat → Parser → Token × Parser
  | 0, parser => (parser.next.1, parser.next.2.unread parser.next.1)
  | distance + 1, parser =>
    let (token, after) := reach distance parser.next.2
    (token, after.unread parser.next.1)

/-- Takes the next token. -/
def consume : ParseM Token := ⟨fun parser => .ok parser.next.1 parser.next.2⟩

/-- The token some places ahead. Nothing is consumed. -/
def lookAhead (distance : Nat) : ParseM Token :=
  ⟨fun parser => .ok (parser.reach distance).1 (parser.reach distance).2⟩

/-- The next token. Nothing is consumed. -/
def peek : ParseM Token := lookAhead 0

/-- Stops with a fault. -/
def fail {α : Type} (cause : Cause) (position : Position) : ParseM α :=
  .stop (.fault ⟨cause, position⟩)

/-- Takes the next token if it is of the given kind, and says whether it was. -/
def accept (kind : Kind) : ParseM Bool := do
  let token ← peek
  if token.kind = kind then
    let _ ← consume
    return true
  else
    return false

/-- Takes the next token, which has to be of the given kind. -/
def expect (kind : Kind) : ParseM Token := do
  let token ← peek
  if token.kind = kind then
    consume
  else
    fail (.unexpectedToken kind token.kind) token.start

/-- The level at which the next token extends an expression. -/
def peekLevel (grammar : Grammar) : ParseM Nat := do
  let token ← peek
  match grammar.infixRule token.kind with
  | some rule => return rule.level
  | none => return Power.lowest.level

/-- Runs an action one expression deeper. However the action ends, the depth is
what it was before. -/
def deeper {α : Type} (action : ParseM α) : ParseM α := ⟨fun parser =>
  match action.run { parser with depth := parser.depth + 1 } with
  | .ok value after => .ok value { after with depth := after.depth - 1 }
  | .stop reason after => .stop reason { after with depth := after.depth - 1 }⟩

/-- Stops at the next token if expressions are nested up to the limit. -/
def checkDepth (limit? : Option Nat) : ParseM Unit := ⟨fun parser =>
  match limit? with
  | none => .ok () parser
  | some limit =>
    if limit ≤ parser.depth then
      .stop (.fault ⟨.nestingTooDeep limit, parser.next.1.start⟩) (parser.reach 0).2
    else
      .ok () parser⟩

/-- Runs an action one expression deeper, unless the limit is reached. -/
def nested {α : Type} (limit? : Option Nat) (action : ParseM α) : ParseM α := do
  checkDepth limit?
  deeper action

/-- Consuming takes the next token. -/
@[simp] theorem run_consume (parser : Parser) :
    consume.run parser = .ok parser.next.1 parser.next.2 := rfl

/-- Looking ahead reads as far as needed. -/
@[simp] theorem run_lookAhead (distance : Nat) (parser : Parser) :
    (lookAhead distance).run parser =
      .ok (parser.reach distance).1 (parser.reach distance).2 := rfl

/-- A token that was put back comes next. -/
@[simp] theorem next_unread (parser : Parser) (token : Token) :
    (parser.unread token).next = (token, parser) := rfl

/-- Looking at the next token takes it and puts it back. -/
@[simp] theorem run_peek (parser : Parser) :
    peek.run parser = .ok parser.next.1 (parser.next.2.unread parser.next.1) := rfl

/-- Failing leaves the parser as it is. -/
@[simp] theorem run_fail {α : Type} (cause : Cause) (position : Position) (parser : Parser) :
    (fail cause position : ParseM α).run parser = .stop (.fault ⟨cause, position⟩) parser := rfl

/-- A token is accepted exactly if it is of the given kind, and put back otherwise. -/
theorem run_accept (kind : Kind) (parser : Parser) :
    (accept kind).run parser =
      if parser.next.1.kind = kind then .ok true parser.next.2
      else .ok false (parser.next.2.unread parser.next.1) := by
  by_cases h : parser.next.1.kind = kind <;> simp [accept, h]

/-- A token of the given kind is taken, and any other is put back. -/
theorem run_expect (kind : Kind) (parser : Parser) :
    (expect kind).run parser =
      if parser.next.1.kind = kind then .ok parser.next.1 parser.next.2
      else .stop (.fault ⟨.unexpectedToken kind parser.next.1.kind, parser.next.1.start⟩)
        (parser.next.2.unread parser.next.1) := by
  by_cases h : parser.next.1.kind = kind <;> simp [expect, h]

end Parser

end Precedence
