import Precedence.Proofs.RunOfReading

/-!
# What a parser is made of

Every action of a parser is put together from a few elementary ones: giving a value, stopping,
taking a token, looking at one, doing one thing after another and parsing something one
expression deeper. A `Program` says how an action is put together, and the actions that parse
expressions have one each, which follows their definition. It tells what the parser goes
through while the action runs, change by change, also where the action stops half-way.
-/

namespace Precedence

/-- The state in which an action leaves its parser, however it ends. -/
def Parsed.after {α : Type} : Parsed α → Parser
  | ok _ after | stop _ after => after

/-- What can happen to a parser in one go. -/
inductive Change where
  /-- A token is taken. -/
  | take
  /-- The next token is looked at. -/
  | look
  /-- An expression is entered. -/
  | enter
  /-- An expression is left. -/
  | leave
deriving DecidableEq, Repr, Inhabited

namespace Change

/-- The parser after a change. -/
def apply (parser : Parser) : Change → Parser
  | take => parser.next.2
  | look => (parser.reach 0).2
  | enter => { parser with depth := parser.depth + 1 }
  | leave => { parser with depth := parser.depth - 1 }

/-- The parser after changes made one after the other. -/
def applyAll (parser : Parser) (changes : List Change) : Parser := changes.foldl apply parser

/-- Without a change the parser stays as it is. -/
@[simp] theorem applyAll_nil (parser : Parser) : applyAll parser [] = parser := rfl

/-- The first change is made first. -/
@[simp] theorem applyAll_cons (parser : Parser) (change : Change) (changes : List Change) :
    applyAll parser (change :: changes) = applyAll (change.apply parser) changes := rfl

/-- Some changes and then others are made one after the other. -/
@[simp] theorem applyAll_append (parser : Parser) (changes others : List Change) :
    applyAll parser (changes ++ others) = applyAll (applyAll parser changes) others :=
  List.foldl_append

end Change

namespace Parser

variable {α : Type} {limit? : Option Nat} {parser : Parser}

/-- At the limit the next token is looked at. -/
theorem after_nested_of_ge (action : ParseM α) (h : limit?.any (· ≤ parser.depth) = true) :
    ((nested limit? action).run parser).after = Change.look.apply parser := by
  cases limit? with
  | none => cases h
  | some limit =>
    have hle : limit ≤ parser.depth := of_decide_eq_true h
    simp [nested, checkDepth, hle, Parsed.after, Change.apply]

/-- Below the limit an expression is entered and left. -/
theorem after_nested_of_lt (action : ParseM α) (h : ¬limit?.any (· ≤ parser.depth) = true) :
    ((nested limit? action).run parser).after =
      Change.leave.apply (action.run (Change.enter.apply parser)).after := by
  have hdeeper : ((deeper action).run parser).after =
      Change.leave.apply (action.run (Change.enter.apply parser)).after := by
    simp only [deeper, Change.apply]
    cases action.run { parser with depth := parser.depth + 1 } <;> rfl
  cases limit? with
  | none => exact hdeeper
  | some limit =>
    have hlt : ¬limit ≤ parser.depth := fun hle => h (decide_eq_true hle)
    rw [← hdeeper]
    simp [nested, checkDepth, hlt]

end Parser

/-- How an action is put together where expressions are nested at most up to a limit. -/
inductive Program (limit? : Option Nat) : {α : Type} → ParseM α → Type 1 where
  /-- A value is given. -/
  | pure {α : Type} (value : α) : Program limit? (Pure.pure value)
  /-- The action stops. -/
  | stop {α : Type} (reason : Stop) : Program limit? (ParseM.stop reason : ParseM α)
  /-- A token is taken. -/
  | consume : Program limit? Parser.consume
  /-- The next token is looked at. -/
  | peek : Program limit? Parser.peek
  /-- One action follows another. -/
  | bind {α β : Type} {first : ParseM α} {second : α → ParseM β} (program : Program limit? first)
      (next : ∀ value, Program limit? (second value)) : Program limit? (first >>= second)
  /-- An action is run one expression deeper, unless the limit is reached. -/
  | nested {α : Type} {action : ParseM α} (inside : Program limit? action) :
      Program limit? (Parser.nested limit? action)

namespace Program

variable {limit? : Option Nat} {α : Type}

/-- A choice between two actions. -/
def ite {condition : Prop} [decision : Decidable condition] {first second : ParseM α}
    (yes : Program limit? first) (no : Program limit? second) :
    Program limit? (if condition then first else second) :=
  match decision with
  | .isTrue _ => yes
  | .isFalse _ => no

/-- How a fault stops a parser. -/
def fail (cause : Cause) (position : Position) :
    Program limit? (Parser.fail cause position : ParseM α) :=
  .stop _

/-- How a token is accepted. -/
def accept (kind : Kind) : Program limit? (Parser.accept kind) :=
  .bind .peek fun _ => .ite (.bind .consume fun _ => .pure true) (.pure false)

/-- How a token is required. -/
def expect (kind : Kind) : Program limit? (Parser.expect kind) :=
  .bind .peek fun _ => .ite .consume (.fail _ _)

/-- How the level of the next token is asked for. -/
def peekLevel (grammar : Grammar) : Program limit? (Parser.peekLevel grammar) :=
  .bind .peek fun token =>
    match grammar.infixRule token.kind with
    | some _ => .pure _
    | none => .pure _

/-- What happens to a parser while an action runs. -/
def changes : {α : Type} → {action : ParseM α} → Program limit? action → Parser → List Change
  | _, _, pure _, _ | _, _, stop _, _ => []
  | _, _, consume, _ => [.take]
  | _, _, peek, _ => [.look]
  | _, _, @bind _ _ _ first _ program next, parser =>
    program.changes parser ++
      match first.run parser with
      | .ok value after => (next value).changes after
      | .stop _ _ => []
  | _, _, nested inside, parser =>
    if limit?.any (· ≤ parser.depth) then
      [.look]
    else
      .enter :: (inside.changes (Change.enter.apply parser) ++ [.leave])

/-- The changes lead to where the action ends. -/
theorem after_run {action : ParseM α} (program : Program limit? action) (parser : Parser) :
    (action.run parser).after = Change.applyAll parser (program.changes parser) := by
  induction program generalizing parser with
  | pure | stop | consume | peek => rfl
  | @bind _ _ first second program next ih ihnext =>
    have hfirst := ih parser
    rw [changes, Change.applyAll_append, ← hfirst, ParseM.run_bind]
    cases first.run parser with
    | ok value after => exact ihnext value after
    | stop reason after => rfl
  | @nested _ action inside ih =>
    have hinside := ih (Change.enter.apply parser)
    by_cases hlimit : limit?.any (· ≤ parser.depth) = true
    · rw [changes, if_pos hlimit]
      exact Parser.after_nested_of_ge action hlimit
    · rw [changes, if_neg hlimit, Change.applyAll_cons, Change.applyAll_append, ← hinside]
      exact Parser.after_nested_of_lt action hlimit

/-- An action leaves the depth as it was, however it ends. -/
theorem depth_after_run {action : ParseM α} (program : Program limit? action) (parser : Parser) :
    (action.run parser).after.depth = parser.depth := by
  induction program generalizing parser with
  | pure | stop => rfl
  | consume => exact parser.depth_next
  | peek => exact parser.depth_reach 0
  | @bind _ _ first second program next ih ihnext =>
    have hfirst := ih parser
    rw [ParseM.run_bind]
    cases hrun : first.run parser with
    | ok value after =>
      rw [hrun] at hfirst
      exact (ihnext value after).trans hfirst
    | stop reason after =>
      rw [hrun] at hfirst
      exact hfirst
  | @nested _ action inside ih =>
    by_cases hlimit : limit?.any (· ≤ parser.depth) = true
    · rw [Parser.after_nested_of_ge action hlimit]
      exact parser.depth_reach 0
    · rw [Parser.after_nested_of_lt action hlimit]
      exact congrArg (· - 1) (ih (Change.enter.apply parser))

/-- Where an action gives a value, the parser is as deep as before. -/
theorem depth_of_ok {action : ParseM α} (program : Program limit? action)
    {parser after : Parser} {value : α} (hrun : action.run parser = .ok value after) :
    after.depth = parser.depth := by
  have hdepth := program.depth_after_run parser
  rw [hrun] at hdepth
  exact hdepth

end Program

/-- How the rest of an expression that starts with `token` is parsed. -/
def PrefixRule.program {limit? : Option Nat} {operand : Operand}
    (operands : ∀ level, Program limit? (operand level)) (token : Token) :
    ∀ rule : PrefixRule, Program limit? (rule.parse operand token)
  | name => .pure _
  | group => .bind (operands _) fun _ => .bind (.expect _) fun _ => .pure _
  | operator _ => .bind (operands _) fun _ => .pure _

/-- How arguments that are divided by commas are parsed. -/
def Operand.separatedProgram {limit? : Option Nat} {operand : Operand}
    (operands : ∀ level, Program limit? (operand level)) :
    ∀ turns, Program limit? (operand.separated turns)
  | 0 => .stop _
  | turns + 1 => .bind (operands _) fun _ => .bind (.accept _) fun _ =>
    .ite (.bind (separatedProgram operands turns) fun _ => .pure _) (.pure _)

/-- How the arguments of a call are parsed. -/
def Operand.argumentsProgram {limit? : Option Nat} {operand : Operand}
    (operands : ∀ level, Program limit? (operand level)) (turns : Nat) :
    Program limit? (operand.arguments turns) :=
  .bind (.accept _) fun _ =>
    .ite (.pure _) (.bind (separatedProgram operands turns) fun _ => .bind (.expect _) fun _ =>
      .pure _)

/-- How the rest of an expression that starts with `left` and goes on with `token` is parsed. -/
def InfixRule.program {limit? : Option Nat} {operand : Operand}
    (operands : ∀ level, Program limit? (operand level)) (turns : Nat) (left : Expr)
    (token : Token) : ∀ rule : InfixRule, Program limit? (rule.parse operand turns left token)
  | postfixed _ => .pure _
  | binary _ _ => .bind (operands _) fun _ => .pure _
  | conditional => .bind (operands _) fun _ => .bind (.expect _) fun _ =>
    .bind (operands _) fun _ => .pure _
  | call => .bind (Operand.argumentsProgram operands turns) fun _ => .pure _
  | assign => .bind (operands _) fun value =>
    match left.assignTo value token.start with
    | .ok _ => .pure _
    | .error _ => .stop _

namespace Parser

/-- How an expression is extended. -/
def extendProgram {limit? : Option Nat} (grammar : Grammar) {operand : Operand}
    (operands : ∀ level, Program limit? (operand level)) (level : Nat) :
    ∀ turns left, Program limit? (extend grammar operand level turns left)
  | 0, _ => .stop _
  | turns + 1, left => .bind .peek fun following =>
    match grammar.infixRule following.kind with
    | none => .pure _
    | some rule => .ite (.pure _) (.bind .consume fun token =>
      .bind (rule.program operands turns left token) fun longer =>
        extendProgram grammar operands level turns longer)

/-- How an expression is parsed once its depth has been checked. -/
def beginProgram {limit? : Option Nat} (grammar : Grammar) {operand : Operand}
    (operands : ∀ level, Program limit? (operand level)) (level turns : Nat) :
    Program limit? (begin grammar operand level turns) :=
  .bind .consume fun token =>
    match grammar.prefixRule token.kind with
    | none => .fail _ _
    | some rule => .bind (rule.program operands token) fun left =>
      extendProgram grammar operands level turns left

/-- How an expression is parsed. -/
def expressionProgram (grammar : Grammar) :
    ∀ fuel level, Program grammar.depthLimit (expression grammar fuel level)
  | 0, _ => .stop _
  | fuel + 1, level =>
    .nested (beginProgram grammar (expressionProgram grammar fuel) level (fuel + 1))

/-- A parse of a whole input with some fuel. -/
def whole (grammar : Grammar) (fuel : Nat) : ParseM Expr := do
  let expr ← expression grammar fuel Power.lowest.level
  let _ ← expect .endOfInput
  return expr

/-- How a whole input is parsed. -/
def wholeProgram (grammar : Grammar) (fuel : Nat) :
    Program grammar.depthLimit (whole grammar fuel) :=
  .bind (expressionProgram grammar fuel _) fun _ => .bind (.expect _) fun _ => .pure _

/-- A parse of a whole input runs with the fuel that its parser needs. -/
theorem run_parseAll_eq_whole (grammar : Grammar) (parser : Parser) :
    (parseAll grammar).run parser = (whole grammar (parser.fuel grammar)).run parser := rfl

end Parser

end Precedence
