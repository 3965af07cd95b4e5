import Precedence.Proofs.Program

/-!
# The calls that a parser makes

Each operand is parsed by a call of the procedure that parses expressions, and calls are
nested in one another as expressions are. The calls of a run can be told from what happens
to its parser: there is one wherever an expression is entered. A parser with a limit on
nesting and one without are put together in the same way; the statements on `Mirrors` say
so function by function.
-/

namespace Precedence

/-- A call of the procedure that parses expressions: how many calls are active once it has
been entered, and the token that it is about to take. -/
structure Call where
  active : Nat
  token : Token
deriving DecidableEq, Repr, Inhabited

namespace Change

/-- The call that a change begins, if it begins one. -/
def begun (parser : Parser) : Change → List Call
  | enter => [⟨parser.depth + 1, parser.next.1⟩]
  | take | look | leave => []

/-- The calls that begin while changes are made one after the other. -/
def calls (parser : Parser) : List Change → List Call
  | [] => []
  | change :: changes => change.begun parser ++ calls (change.apply parser) changes

/-- Some changes and then others begin the calls of both. -/
theorem calls_append (parser : Parser) (changes others : List Change) :
    calls parser (changes ++ others) =
      calls parser changes ++ calls (applyAll parser changes) others := by
  induction changes generalizing parser with
  | nil => rfl
  | cons change changes ih =>
    rw [List.cons_append, calls, calls, ih, List.append_assoc, applyAll_cons]

/-- Entering an expression is a call, in which others may begin. -/
theorem calls_inside (parser : Parser) (changes : List Change) :
    calls parser (enter :: (changes ++ [leave])) =
      ⟨parser.depth + 1, parser.next.1⟩ :: calls (enter.apply parser) changes := by
  rw [calls, calls_append]
  exact congrArg _ (List.append_nil _)

end Change

/-- A grammar without its limit on nesting. -/
def Grammar.unlimited (grammar : Grammar) : Grammar := { grammar with depthLimit := none }

/-- Without a limit expressions start as they do with one. -/
@[simp] theorem Grammar.prefixRule_unlimited (grammar : Grammar) :
    grammar.unlimited.prefixRule = grammar.prefixRule := rfl

/-- Without a limit expressions are extended as they are with one. -/
@[simp] theorem Grammar.infixRule_unlimited (grammar : Grammar) :
    grammar.unlimited.infixRule = grammar.infixRule := rfl

/-- Two programs that are put together in the same way, though their actions may nest
expressions up to different limits. -/
inductive Mirrors {limit? other? : Option Nat} : {α : Type} → {action mirror : ParseM α} →
    Program limit? action → Program other? mirror → Prop where
  | pure {α : Type} (value : α) : Mirrors (.pure value) (.pure value)
  | stop {α : Type} (reason : Stop) :
      Mirrors (.stop reason : Program _ (ParseM.stop reason : ParseM α)) (.stop reason)
  | consume : Mirrors .consume .consume
  | peek : Mirrors .peek .peek
  | bind {α β : Type} {first firstMirror : ParseM α} {second secondMirror : α → ParseM β}
      {program : Program limit? first} {programMirror : Program other? firstMirror}
      {next : ∀ value, Program limit? (second value)}
      {nextMirror : ∀ value, Program other? (secondMirror value)}
      (hfirst : Mirrors program programMirror)
      (hnext : ∀ value, Mirrors (next value) (nextMirror value)) :
      Mirrors (program.bind next) (programMirror.bind nextMirror)
  | nested {α : Type} {action mirror : ParseM α} {inside : Program limit? action}
      {insideMirror : Program other? mirror} (h : Mirrors inside insideMirror) :
      Mirrors inside.nested insideMirror.nested

namespace Mirrors

variable {limit? other? : Option Nat} {α : Type}

/-- Choices that are made alike mirror each other if both sides do. -/
theorem ite {condition : Prop} [decision : Decidable condition]
    {first second firstMirror secondMirror : ParseM α} {yes : Program limit? first}
    {no : Program limit? second} {yesMirror : Program other? firstMirror}
    {noMirror : Program other? secondMirror} (hyes : Mirrors yes yesMirror)
    (hno : Mirrors no noMirror) :
    Mirrors (Program.ite yes no : Program limit? (if condition then first else second))
      (Program.ite yesMirror noMirror :
        Program other? (if condition then firstMirror else secondMirror)) :=
  match decision with
  | .isTrue _ => hyes
  | .isFalse _ => hno

/-- A token is accepted in the same way. -/
theorem accept (kind : Kind) :
    Mirrors (.accept kind : Program limit? _) (.accept kind : Program other? _) :=
  .bind .peek fun _ => .ite (.bind .consume fun _ => .pure true) (.pure false)

/-- A token is required in the same way. -/
theorem expect (kind : Kind) :
    Mirrors (.expect kind : Program limit? _) (.expect kind : Program other? _) :=
  .bind .peek fun _ => .ite .consume (.stop _)

section Operands

variable {operand mirror : Operand} {operands : ∀ level, Program limit? (operand level)}
  {mirrors : ∀ level, Program other? (mirror level)}

/-- A prefix rule is the same but for its operands. -/
theorem starting (h : ∀ level, Mirrors (operands level) (mirrors level)) (token : Token)
    (rule : PrefixRule) : Mirrors (rule.program operands token) (rule.program mirrors token) := by
  cases rule with
  | name => exact .pure _
  | group => exact .bind (h _) fun _ => .bind (.expect _) fun _ => .pure _
  | operator power => exact .bind (h _) fun _ => .pure _

/-- Arguments are the same but for what is parsed as each of them. -/
theorem separated (h : ∀ level, Mirrors (operands level) (mirrors level)) (turns : Nat) :
    Mirrors (Operand.separatedProgram operands turns)
      (Operand.separatedProgram mirrors turns) := by
  induction turns with
  | zero => exact .stop _
  | succ turns ih =>
    exact .bind (h _) fun _ => .bind (.accept _) fun _ =>
      .ite (.bind ih fun _ => .pure _) (.pure _)

/-- The arguments of a call are the same but for what is parsed as each of them. -/
theorem arguments (h : ∀ level, Mirrors (operands level) (mirrors level)) (turns : Nat) :
    Mirrors (Operand.argumentsProgram operands turns)
      (Operand.argumentsProgram mirrors turns) :=
  .bind (.accept _) fun _ =>
    .ite (.pure _) (.bind (separated h turns) fun _ => .bind (.expect _) fun _ => .pure _)

/-- An infix rule is the same but for its operands. -/
theorem extending (h : ∀ level, Mirrors (operands level) (mirrors level)) (turns : Nat)
    (left : Expr) (token : Token) (rule : InfixRule) :
    Mirrors (rule.program operands turns left token) (rule.program mirrors turns left token) := by
  cases rule with
  | postfixed power => exact .pure _
  | binary power associativity => exact .bind (h _) fun _ => .pure _
  | conditional =>
    exact .bind (h _) fun _ => .bind (.expect _) fun _ => .bind (h _) fun _ => .pure _
  | call => exact .bind (arguments h turns) fun _ => .pure _
  | assign =>
    refine .bind (h _) fun value => ?_
    cases left.assignTo value token.start with
    | ok expr => exact .pure _
    | error fault => exact .stop _

variable {grammar : Grammar}

/-- Expressions are extended in the same way without a limit. -/
theorem extend (h : ∀ level, Mirrors (operands level) (mirrors level)) (level turns : Nat)
    (left : Expr) :
    Mirrors (Parser.extendProgram grammar operands level turns left)
      (Parser.extendProgram grammar.unlimited mirrors level turns left) := by
  induction turns generalizing left with
  | zero => exact .stop _
  | succ turns ih =>
    refine .bind .peek fun following => ?_
    rw [Grammar.infixRule_unlimited]
    cases grammar.infixRule following.kind with
    | none => exact .pure _
    | some rule =>
      exact .ite (.pure _) (.bind .consume fun token =>
        .bind (extending h turns left token rule) fun longer => ih longer)

/-- What an expression does inside of its call is the same without a limit. -/
theorem begin (h : ∀ level, Mirrors (operands level) (mirrors level)) (level turns : Nat) :
    Mirrors (Parser.beginProgram grammar operands level turns)
      (Parser.beginProgram grammar.unlimited mirrors level turns) := by
  refine .bind .consume fun token => ?_
  rw [Grammar.prefixRule_unlimited]
  cases grammar.prefixRule token.kind with
  | none => exact .stop _
  | some rule => exact .bind (starting h token rule) fun left => extend h level turns left

end Operands

/-- Expressions are parsed in the same way without a limit, whatever the fuel. -/
theorem expression (grammar : Grammar) (fuel level : Nat) :
    Mirrors (Parser.expressionProgram grammar fuel level)
      (Parser.expressionProgram grammar.unlimited fuel level) := by
  induction fuel generalizing level with
  | zero => exact .stop _
  | succ fuel ih => exact .nested (begin ih level (fuel + 1))

/-- A whole input is parsed in the same way without a limit, whatever the fuel. -/
theorem whole (grammar : Grammar) (fuel : Nat) :
    Mirrors (Parser.wholeProgram grammar fuel) (Parser.wholeProgram grammar.unlimited fuel) :=
  .bind (expression grammar fuel _) fun _ => .bind (.expect _) fun _ => .pure _

end Mirrors

end Precedence
