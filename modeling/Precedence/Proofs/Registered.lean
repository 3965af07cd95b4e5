import Precedence.Proofs.LexedAhead
import Precedence.Proofs.Pulled

/-!
# The last rule for a kind counts

Rules are registered one at a time or all standard ones at once, in any order. A later rule for a
kind replaces an earlier one in the same table and touches nothing else, so a table holds for each
kind the rule that was registered last. A parser looks up nothing but the kinds of tokens that it is
about to read. Two grammars that agree on these are not told apart by any steps. The main statement
is `Step.runAll_registered`.
-/

namespace Precedence

/-- What is registered at once. -/
inductive Registration where
  /-- One line for a kind. -/
  | line (entry : Entry)
  /-- All lines of the standard grammar. -/
  | standard
deriving DecidableEq, Repr, Inhabited

/-- The rule that a line gives for expressions that start with a kind. -/
def Entry.prefixRule? (kind : Kind) : Entry → Option PrefixRule
  | starting other rule => if kind = other then some rule else none
  | extending _ _ => none

/-- The rule that a line gives for expressions that go on with a kind. -/
def Entry.infixRule? (kind : Kind) : Entry → Option InfixRule
  | starting _ _ => none
  | extending other rule => if kind = other then some rule else none

namespace Registration

/-- The lines that are registered. -/
def entries : Registration → List Entry
  | line entry => [entry]
  | standard => Grammar.standardEntries

/-- The rule that is registered last for expressions that start with a kind. -/
def lastPrefix? (kind : Kind) (registrations : List Registration) : Option PrefixRule :=
  ((registrations.flatMap entries).filterMap (Entry.prefixRule? kind)).getLast?

/-- The rule that is registered last for expressions that go on with a kind. -/
def lastInfix? (kind : Kind) (registrations : List Registration) : Option InfixRule :=
  ((registrations.flatMap entries).filterMap (Entry.infixRule? kind)).getLast?

end Registration

namespace Grammar

/-- A grammar after registrations made one after the other. -/
def register (grammar : Grammar) (registrations : List Registration) : Grammar :=
  registrations.foldl (fun grammar registration => grammar.addAll registration.entries) grammar

/-- Registrations add all their lines. -/
theorem register_eq_addAll (grammar : Grammar) (registrations : List Registration) :
    grammar.register registrations =
      grammar.addAll (registrations.flatMap Registration.entries) := by
  induction registrations generalizing grammar with
  | nil => rfl
  | cons registration registrations ih =>
    rw [List.flatMap_cons, addAll, List.foldl_append]
    exact ih _

/-- A table in which lines replace a rule holds the last rule that they give. -/
theorem table_addAll {ρ : Type} (table : Grammar → Option ρ) (rule? : Entry → Option ρ)
    (hadd : ∀ grammar entry, table (add grammar entry) = (rule? entry).or (table grammar))
    (grammar : Grammar) (entries : List Entry) :
    table (grammar.addAll entries) = (entries.filterMap rule?).getLast?.or (table grammar) := by
  induction entries generalizing grammar with
  | nil => rfl
  | cons entry entries ih =>
    have hrest := ih (grammar.add entry)
    rw [hadd] at hrest
    rw [addAll, List.foldl_cons, ← addAll, hrest]
    cases hrule : rule? entry with
    | none => rw [List.filterMap_cons_none hrule, Option.none_or]
    | some rule =>
      rw [List.filterMap_cons_some hrule, List.getLast?_cons]
      cases (entries.filterMap rule?).getLast? <;> rfl

variable (registrations : List Registration) (kind : Kind)

/-- Expressions start by the rules that were registered last. -/
theorem prefixRule_register :
    (empty.register registrations).prefixRule kind =
      Registration.lastPrefix? kind registrations := by
  rw [register_eq_addAll, table_addAll (·.prefixRule kind) (Entry.prefixRule? kind)]
  · exact Option.or_none
  · intro grammar entry
    cases entry with
    | starting other rule => by_cases h : kind = other <;> simp [add, Entry.prefixRule?, h]
    | extending other rule => rfl

/-- Expressions go on by the rules that were registered last. -/
theorem infixRule_register :
    (empty.register registrations).infixRule kind =
      Registration.lastInfix? kind registrations := by
  rw [register_eq_addAll, table_addAll (·.infixRule kind) (Entry.infixRule? kind)]
  · exact Option.or_none
  · intro grammar entry
    cases entry with
    | starting other rule => rfl
    | extending other rule => by_cases h : kind = other <;> simp [add, Entry.infixRule?, h]

/-- Two grammars with the same rules for a kind. -/
structure SameAt (grammar other : Grammar) (kind : Kind) : Prop where
  starting : grammar.prefixRule kind = other.prefixRule kind
  extending : grammar.infixRule kind = other.infixRule kind

end Grammar

/-- Two actions that do the same wherever all tokens to come are among some, and then only such
tokens are left to come. -/
def ParseM.SameAmong {α : Type} (among : Token → Prop) (action other : ParseM α) : Prop :=
  ∀ ⦃parser : Parser⦄, (∀ token ∈ parser.pending, among token) →
    action.run parser = other.run parser ∧
      ∀ token ∈ (action.run parser).after.pending, among token

namespace ParseM.SameAmong

variable {α β : Type} {among : Token → Prop} {action other : ParseM α}

/-- Giving a value is the same. -/
theorem pure (value : α) : (Pure.pure value : ParseM α).SameAmong among (Pure.pure value) :=
  fun _ h => ⟨rfl, h⟩

/-- Stopping is the same. -/
theorem stop (reason : Stop) : (ParseM.stop reason : ParseM α).SameAmong among (.stop reason) :=
  fun _ h => ⟨rfl, h⟩

/-- One action after another is the same if both are. -/
theorem bind {second next : α → ParseM β} (hfirst : action.SameAmong among other)
    (hsecond : ∀ value, (second value).SameAmong among (next value)) :
    (action >>= second).SameAmong among (other >>= next) := by
  intro parser h
  obtain ⟨hrun, hafter⟩ := hfirst h
  rw [run_bind, run_bind, ← hrun]
  cases hvalue : action.run parser with
  | ok value after =>
    rw [hvalue] at hafter
    exact hsecond value hafter
  | stop reason after =>
    rw [hvalue] at hafter
    exact ⟨rfl, hafter⟩

/-- Taking a token is the same. -/
theorem consume : Parser.consume.SameAmong among Parser.consume := by
  intro parser h
  rw [parser.pending_eq] at h
  exact ⟨rfl, fun token htoken => h token (Stream'.mem_cons_of_mem _ htoken)⟩

/-- Looking ahead is the same. -/
theorem lookAhead (distance : Nat) :
    (Parser.lookAhead distance).SameAmong among (Parser.lookAhead distance) :=
  fun parser h => ⟨rfl, fun token hmem => h token (by rwa [← parser.pending_reach distance])⟩

/-- What follows a token that is taken has to be the same for tokens that may come. -/
theorem consume_bind {second next : Token → ParseM β}
    (hsecond : ∀ token, among token → (second token).SameAmong among (next token)) :
    (Parser.consume >>= second).SameAmong among (Parser.consume >>= next) := by
  intro parser h
  rw [parser.pending_eq] at h
  exact hsecond _ (h _ (Stream'.mem_cons _ _)) fun token htoken =>
    h token (Stream'.mem_cons_of_mem _ htoken)

/-- What follows a look at a token has to be the same for tokens that may come. -/
theorem lookAhead_bind {second next : Token → ParseM β} (distance : Nat)
    (hsecond : ∀ token, among token → (second token).SameAmong among (next token)) :
    (Parser.lookAhead distance >>= second).SameAmong among
      (Parser.lookAhead distance >>= next) := by
  intro parser h
  have htoken : among (parser.reach distance).1 := by
    rw [Parser.fst_reach]
    exact h _ (Stream'.mem_of_get_eq rfl)
  exact hsecond _ htoken fun token hmem => h token (by rwa [Parser.pending_reach] at hmem)

/-- Parsing one expression deeper is the same if it is so there. -/
theorem nested (limit? : Option Nat) (h : action.SameAmong among other) :
    (Parser.nested limit? action).SameAmong among (Parser.nested limit? other) := by
  intro parser hparser
  by_cases hfull : limit?.any (· ≤ parser.depth) = true
  · obtain ⟨limit, rfl, hle⟩ := (Option.any_eq_true _ _).mp hfull
    rw [Parser.run_nested_of_le action (of_decide_eq_true hle),
      Parser.run_nested_of_le other (of_decide_eq_true hle)]
    refine ⟨rfl, ?_⟩
    change ∀ token ∈ (parser.next.2.unread parser.next.1).pending, among token
    rwa [Parser.pending_unread_next]
  · rw [Parser.nested_of_not_full action hfull, Parser.nested_of_not_full other hfull]
    have hdeeper : ∀ token ∈ Parser.pending { parser with depth := parser.depth + 1 },
      among token := hparser
    obtain ⟨hrun, hafter⟩ := h hdeeper
    simp only [Parser.deeper, ← hrun]
    cases hvalue : action.run { parser with depth := parser.depth + 1 } with
    | ok value after | stop reason after =>
      rw [hvalue] at hafter
      exact ⟨trivial, hafter⟩

end ParseM.SameAmong

namespace Parser

variable {among : Token → Prop}

/-- Accepting a token is the same. -/
theorem sameAmong_accept (kind : Kind) : (accept kind).SameAmong among (accept kind) := by
  refine (ParseM.SameAmong.lookAhead 0).bind fun token => ?_
  split
  · exact ParseM.SameAmong.consume.bind fun _ => .pure true
  · exact .pure false

/-- Requiring a token is the same. -/
theorem sameAmong_expect (kind : Kind) : (expect kind).SameAmong among (expect kind) := by
  refine (ParseM.SameAmong.lookAhead 0).bind fun token => ?_
  split
  · exact .consume
  · exact .stop _

end Parser

section Rules

variable {among : Token → Prop} {operand another : Operand}

/-- Operands that are the same wherever all tokens to come are among some. -/
def OperandsSame (among : Token → Prop) (operand another : Operand) : Prop :=
  ∀ level, (operand level).SameAmong among (another level)

/-- A prefix rule does the same with such operands. -/
theorem PrefixRule.sameAmong (hoperand : OperandsSame among operand another) (token : Token)
    (rule : PrefixRule) :
    (rule.parse operand token).SameAmong among (rule.parse another token) := by
  cases rule with
  | name => exact .pure _
  | group =>
    exact (hoperand _).bind fun expr => (Parser.sameAmong_expect _).bind fun _ => .pure expr
  | operator power => exact (hoperand _).bind fun _ => .pure _

/-- Arguments are the same with such operands. -/
theorem Operand.sameAmong_separated (hoperand : OperandsSame among operand another)
    (turns : Nat) : (operand.separated turns).SameAmong among (another.separated turns) := by
  induction turns with
  | zero => exact .stop _
  | succ turns ih =>
    refine (hoperand _).bind fun first => (Parser.sameAmong_accept _).bind fun more => ?_
    cases more with
    | true => exact ih.bind fun _ => .pure _
    | false => exact .pure _

/-- The arguments of a call are the same with such operands. -/
theorem Operand.sameAmong_arguments (hoperand : OperandsSame among operand another)
    (turns : Nat) : (operand.arguments turns).SameAmong among (another.arguments turns) := by
  refine (Parser.sameAmong_accept _).bind fun closed => ?_
  cases closed with
  | true => exact .pure _
  | false =>
    exact (sameAmong_separated hoperand turns).bind fun exprs =>
      (Parser.sameAmong_expect _).bind fun _ => .pure exprs

/-- An infix rule does the same with such operands. -/
theorem InfixRule.sameAmong (hoperand : OperandsSame among operand another) (turns : Nat)
    (left : Expr) (token : Token) (rule : InfixRule) :
    (rule.parse operand turns left token).SameAmong among
      (rule.parse another turns left token) := by
  cases rule with
  | postfixed power => exact .pure _
  | binary power associativity => exact (hoperand _).bind fun _ => .pure _
  | conditional =>
    exact (hoperand _).bind fun yes => (Parser.sameAmong_expect _).bind fun _ =>
      (hoperand _).bind fun _ => .pure _
  | call => exact (Operand.sameAmong_arguments hoperand turns).bind fun _ => .pure _
  | assign =>
    refine (hoperand _).bind fun value => ?_
    split
    · exact .pure _
    · exact .stop _

end Rules

namespace Parser

variable {grammar other : Grammar} {operand another : Operand}

/-- Extending an expression is the same if the grammars are for the tokens that may come. -/
theorem sameAmong_extend
    (hoperand : OperandsSame (grammar.SameAt other ·.kind) operand another) (level turns : Nat)
    (left : Expr) :
    (extend grammar operand level turns left).SameAmong (grammar.SameAt other ·.kind)
      (extend other another level turns left) := by
  induction turns generalizing left with
  | zero => exact .stop _
  | succ turns ih =>
    refine .lookAhead_bind 0 fun following hfollowing => ?_
    rw [← hfollowing.extending]
    split
    next => exact .pure _
    next rule hrule =>
      split
      · exact .pure _
      · exact ParseM.SameAmong.consume.bind fun token =>
          (rule.sameAmong hoperand turns left token).bind fun longer => ih longer

/-- Beginning an expression is the same if the grammars are for the tokens that may come. -/
theorem sameAmong_begin (hoperand : OperandsSame (grammar.SameAt other ·.kind) operand another)
    (level turns : Nat) :
    (begin grammar operand level turns).SameAmong (grammar.SameAt other ·.kind)
      (begin other another level turns) := by
  refine .consume_bind fun token htoken => ?_
  rw [← htoken.starting]
  split
  next => exact .stop _
  next rule hrule =>
    exact (rule.sameAmong hoperand token).bind fun left =>
      sameAmong_extend hoperand level turns left

/-- Parsing an expression is the same if the grammars are for the tokens that may come. -/
theorem sameAmong_expression (hlimit : grammar.depthLimit = other.depthLimit) (fuel : Nat) :
    OperandsSame (grammar.SameAt other ·.kind) (expression grammar fuel)
      (expression other fuel) := by
  induction fuel with
  | zero => exact fun _ => .stop _
  | succ fuel ih =>
    intro level
    rw [expression_succ, expression_succ, ← hlimit]
    exact .nested _ (sameAmong_begin ih level (fuel + 1))

/-- Grammars with the same limit give a parser the same fuel. -/
theorem fuel_eq (hlimit : grammar.depthLimit = other.depthLimit) (parser : Parser) :
    parser.fuel grammar = parser.fuel other := by
  rw [fuel, fuel, hlimit]

/-- A parse with the fuel that its parser needs is the same if the grammars are for the tokens that
may come. -/
theorem sameAmong_parseExpr (hlimit : grammar.depthLimit = other.depthLimit) (level : Nat) :
    (parseExpr grammar level).SameAmong (grammar.SameAt other ·.kind) (parseExpr other level) := by
  intro parser h
  rw [run_parseExpr, run_parseExpr, ← fuel_eq hlimit]
  exact sameAmong_expression hlimit _ level h

/-- Asking for a level is the same if the grammars are for the tokens that may come. -/
theorem sameAmong_peekLevel :
    (peekLevel grammar).SameAmong (grammar.SameAt other ·.kind) (peekLevel other) := by
  refine .lookAhead_bind 0 fun token htoken => ?_
  rw [← htoken.extending]
  split
  · exact .pure _
  · exact .pure _

end Parser

/-- Actions that are the same have the same reply and leave the same parser. -/
theorem ParseM.SameAmong.reply {α : Type} {among : Token → Prop} {action other : ParseM α}
    (h : action.SameAmong among other) (answer : α → Reply) {parser : Parser}
    (hparser : ∀ token ∈ parser.pending, among token) :
    action.reply answer parser = other.reply answer parser ∧
      ∀ token ∈ (action.reply answer parser).2.pending, among token := by
  obtain ⟨hrun, hafter⟩ := h hparser
  unfold ParseM.reply
  rw [← hrun]
  cases hvalue : action.run parser with
  | ok value after | stop reason after =>
    rw [hvalue] at hafter
    exact ⟨rfl, hafter⟩

namespace Step

variable {grammar other : Grammar} {parser : Parser}

/-- A step is the same if the grammars are for the tokens to come. -/
theorem run_sameAt (hlimit : grammar.depthLimit = other.depthLimit)
    (h : ∀ token ∈ parser.pending, grammar.SameAt other token.kind) (step : Step) :
    step.run grammar parser = step.run other parser ∧
      ∀ token ∈ (step.run grammar parser).2.pending, grammar.SameAt other token.kind := by
  cases step with
  | parse level => exact (Parser.sameAmong_parseExpr hlimit level).reply _ h
  | accept kind => exact (Parser.sameAmong_accept kind).reply _ h
  | expect kind => exact (Parser.sameAmong_expect kind).reply _ h
  | consume => exact ParseM.SameAmong.consume.reply _ h
  | lookAhead distance => exact (ParseM.SameAmong.lookAhead distance).reply _ h
  | peekLevel => exact Parser.sameAmong_peekLevel.reply _ h

/-- All steps are the same if the grammars are for the tokens to come. -/
theorem runAll_sameAt (hlimit : grammar.depthLimit = other.depthLimit)
    (h : ∀ token ∈ parser.pending, grammar.SameAt other token.kind) (steps : List Step) :
    runAll grammar parser steps = runAll other parser steps := by
  induction steps generalizing parser with
  | nil => rfl
  | cons step steps ih =>
    obtain ⟨hrun, hafter⟩ := run_sameAt hlimit h step
    rw [runAll, runAll, ← hrun, ih hafter]

end Step

/-- What holds of the tokens of a list and of its end mark holds of all tokens that the list
gives. -/
theorem Supply.forall_mem_stream_list {P : Token → Prop} {tokens : List Token} {stop : Position}
    (htokens : ∀ token ∈ tokens, P token) (hmark : P (.endMark ⟨stop, stop⟩)) :
    ∀ token ∈ (Supply.list ⟨tokens, stop⟩).stream, P token := by
  rw [stream_list]
  change ∀ token ∈ tokens ++ₛ Stream'.const (.endMark ⟨stop, stop⟩), P token
  induction tokens with
  | nil =>
    rintro token ⟨n, rfl⟩
    exact hmark
  | cons first tokens ih =>
    obtain ⟨hfirst, hothers⟩ := List.forall_mem_cons.mp htokens
    intro token htoken
    rcases Stream'.eq_or_mem_of_mem_cons htoken with rfl | hlater
    · exact hfirst
    · exact ih hothers token hlater

/-- A table holds for each kind the rule that was registered last in it. Where no end mark extends
an expression, registrations that end with the same rules for the tokens of a supply, the end mark
included, are not told apart by any steps: the replies are the same, none of them is endless, and
after each step the parser has read equally far ahead and is equally deep. -/
theorem Step.runAll_registered {registrations others : List Registration} {supply : Supply}
    (hstart : ∀ token ∈ supply.stream, Registration.lastPrefix? token.kind registrations =
      Registration.lastPrefix? token.kind others)
    (hextend : ∀ token ∈ supply.stream, Registration.lastInfix? token.kind registrations =
      Registration.lastInfix? token.kind others)
    (hend : Registration.lastInfix? .endOfInput registrations = none) (steps : List Step) :
    let grammar := Grammar.empty.register registrations
    let answers := Step.runAll grammar (.ofSupply supply) steps
    (∀ kind, grammar.prefixRule kind = Registration.lastPrefix? kind registrations ∧
      grammar.infixRule kind = Registration.lastInfix? kind registrations) ∧
    answers = Step.runAll (Grammar.empty.register others) (.ofSupply supply) steps ∧
    ∀ answer ∈ answers, answer.1 ≠ .stopped .endless := by
  intro grammar answers
  have hlimit : ∀ registrations, (Grammar.empty.register registrations).depthLimit =
      some Grammar.maxDepth := fun registrations => by
    rw [Grammar.register_eq_addAll, Grammar.depthLimit_addAll]
    rfl
  have hsame : ∀ token ∈ (Parser.ofSupply supply).pending,
      grammar.SameAt (Grammar.empty.register others) token.kind := by
    rw [Parser.pending_ofSupply]
    refine fun token htoken => ⟨?_, ?_⟩
    · rw [Grammar.prefixRule_register, Grammar.prefixRule_register, hstart token htoken]
    · rw [Grammar.infixRule_register, Grammar.infixRule_register, hextend token htoken]
  refine ⟨fun kind => ⟨Grammar.prefixRule_register _ _, Grammar.infixRule_register _ _⟩, ?_, ?_⟩
  · exact Step.runAll_sameAt ((hlimit _).trans (hlimit _).symm) hsame steps
  · exact Step.runAll_ne_endless (hlimit _) ((Grammar.infixRule_register _ _).trans hend) _ steps

/-- Rules that are replaced later do not count, nor do rules for kinds that do not occur. -/
theorem Step.runAll_registered_plus :
    let registrations : List Registration :=
      [.line (.extending .plus (.postfixed .call)), .standard, .line (.starting .star .name)]
    let others : List Registration :=
      [.line (.extending .plus (.binary .sum .left)), .line (.extending .question .assign),
        .line (.starting .plus .group), .line (.starting .identifier .name),
        .line (.starting .plus (.operator .prefixed))]
    let supply : Supply := .list (.ofList (tokenize "a + + b c"))
    let steps : List Step := [.parse 0, .peekLevel, .consume, .parse 8]
    Registration.lastInfix? .endOfInput registrations = none ∧
    Step.replies (Grammar.empty.register others) (.ofSupply supply) steps =
      [.expr (.binary (.name "a") .plus (.prefixed .plus (.name "b"))), .level 0,
        .token ⟨.identifier, "c", .between shell 8 9⟩,
        .stopped (.fault ⟨.noPrefixRule "", ⟨9, shell⟩⟩)] := by
  intro registrations others supply steps
  have hstart : ∀ token ∈ supply.stream, Registration.lastPrefix? token.kind registrations =
      Registration.lastPrefix? token.kind others :=
    Supply.forall_mem_stream_list (by decide +kernel) (by decide +kernel)
  have hextend : ∀ token ∈ supply.stream, Registration.lastInfix? token.kind registrations =
      Registration.lastInfix? token.kind others :=
    Supply.forall_mem_stream_list (by decide +kernel) (by decide +kernel)
  have hend : Registration.lastInfix? .endOfInput registrations = none := by decide +kernel
  obtain ⟨-, hsame, -⟩ := Step.runAll_registered hstart hextend hend steps
  refine ⟨hend, ?_⟩
  rw [Step.replies, ← hsame]
  decide +kernel

end Precedence
