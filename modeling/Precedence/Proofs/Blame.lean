import Precedence.Parse
import Precedence.Proofs.Fuel

/-!
# Where a fault lies

Each fault names a token and is reported where that token starts. A token that starts no
expression has been taken, and it is the last one taken. A token that stands where another
is needed, or where expressions are nested too deep, is the next one to come. The sign of
a bad assignment has been taken at some time. This holds for every grammar and wherever in
a nest of expressions the fault is found. The statements follow the functions of the
parser; the main one is `Parser.accounts_expression`.
-/

namespace Precedence

/-- The faults that there can be when the tokens `read` have been taken and `following` is
the next to come. -/
inductive Fault.Arises (grammar : Grammar) (read : List Token) (following : Token) :
    Fault → Prop where
  /-- No expression starts with the last token taken. -/
  | start {token} (htoken : token ∈ read.getLast?)
      (hrule : grammar.prefixRule token.kind = none) : Arises grammar read following
        token.noPrefixRule
  /-- The next token is not of the kind that is needed. -/
  | missing {expected} (hkind : following.kind ≠ expected) :
      Arises grammar read following (following.unexpected expected)
  /-- A token that assigns has something other than a name before it. -/
  | target {token} (htoken : token ∈ read) (hrule : grammar.infixRule token.kind = some .assign) :
      Arises grammar read following ⟨.invalidAssignmentTarget, token.start⟩
  /-- The next token would be nested too deep. -/
  | deep {limit} (hlimit : limit ∈ grammar.depthLimit) :
      Arises grammar read following ⟨.nestingTooDeep limit, following.start⟩

/-- A run that has taken tokens from the front of a stream, and whose fault arises from
these tokens and those taken before. Nothing is said about a run that is out of fuel. -/
def Parsed.Accounts {α : Type} (grammar : Grammar) (before : List Token) (stream : Stream' Token) :
    Parsed α → Prop
  | .ok _ after => ∃ read, stream = read ++ₛ after.pending
  | .stop (.fault fault) after => ∃ read, stream = read ++ₛ after.pending ∧
      fault.Arises grammar (before ++ read) after.pending.head
  | .stop .endless _ => True

namespace Parsed.Accounts

variable {α β : Type} {grammar : Grammar} {before read : List Token} {stream later : Stream' Token}

/-- What comes after some tokens that have been taken is accounted for together with them. -/
theorem after {parsed : Parsed α} (h : parsed.Accounts grammar (before ++ read) later)
    (hstream : stream = read ++ₛ later) : parsed.Accounts grammar before stream := by
  rcases parsed with ⟨value, last⟩ | ⟨fault | _, last⟩
  · obtain ⟨more, hlater⟩ := h
    exact ⟨read ++ more, by rw [hstream, hlater, Stream'.append_append_stream]⟩
  · obtain ⟨more, hlater, harises⟩ := h
    refine ⟨read ++ more, by rw [hstream, hlater, Stream'.append_append_stream], ?_⟩
    rwa [← List.append_assoc]
  · trivial

/-- One action after another is accounted for if both are. -/
theorem bind {first : ParseM α} {second : α → ParseM β} {parser : Parser}
    (hfirst : (first.run parser).Accounts grammar before stream)
    (hsecond : ∀ {value last read}, stream = read ++ₛ last.pending →
      ((second value).run last).Accounts grammar (before ++ read) last.pending) :
    ((first >>= second).run parser).Accounts grammar before stream := by
  rw [ParseM.run_bind]
  rcases hrun : first.run parser with ⟨value, last⟩ | ⟨fault | _, last⟩ <;> rw [hrun] at hfirst
  · obtain ⟨read, hstream⟩ := hfirst
    exact (hsecond hstream).after hstream
  · exact hfirst
  · trivial

end Parsed.Accounts

namespace Parser

variable {grammar : Grammar} {before : List Token} {parser : Parser} {operand : Operand}

/-- Giving a value takes nothing. -/
theorem accounts_pure {α : Type} (value : α) :
    ((pure value : ParseM α).run parser).Accounts grammar before parser.pending :=
  ⟨[], rfl⟩

/-- The tokens to come are the next one and those after it. -/
theorem pending_eq_append (parser : Parser) :
    parser.pending = [parser.next.1] ++ₛ parser.next.2.pending :=
  parser.pending_eq

/-- Accepting a token takes it or leaves it. -/
theorem accounts_accept (kind : Kind) :
    ((accept kind).run parser).Accounts grammar before parser.pending := by
  rw [run_accept]
  by_cases hkind : parser.next.1.kind = kind
  · rw [if_pos hkind]
    exact ⟨_, parser.pending_eq_append⟩
  · rw [if_neg hkind]
    exact ⟨[], parser.pending_unread_next.symm⟩

/-- A token that is needed is taken, or is at fault and left. -/
theorem accounts_expect (kind : Kind) :
    ((expect kind).run parser).Accounts grammar before parser.pending := by
  rw [run_expect]
  by_cases hkind : parser.next.1.kind = kind
  · rw [if_pos hkind]
    exact ⟨_, parser.pending_eq_append⟩
  · rw [if_neg hkind]
    exact ⟨[], parser.pending_unread_next.symm, .missing hkind⟩

/-- Operands are accounted for, whatever was taken before. -/
def OperandsAccount (grammar : Grammar) (operand : Operand) : Prop :=
  ∀ (level : Nat) (before : List Token) (parser : Parser),
    ((operand level).run parser).Accounts grammar before parser.pending

/-- A prefix rule is accounted for if its operands are. -/
theorem accounts_starting (hoperand : OperandsAccount grammar operand) (rule : PrefixRule)
    (token : Token) :
    ((rule.parse operand token).run parser).Accounts grammar before parser.pending := by
  cases rule with
  | name => exact accounts_pure _
  | group =>
    refine (hoperand _ before parser).bind fun _ => ?_
    exact (accounts_expect _).bind fun _ => accounts_pure _
  | operator power => exact (hoperand _ before parser).bind fun _ => accounts_pure _

/-- Arguments are accounted for if each of them is. -/
theorem accounts_separated (hoperand : OperandsAccount grammar operand) (turns : Nat) :
    ((operand.separated turns).run parser).Accounts grammar before parser.pending := by
  induction turns generalizing before parser with
  | zero => trivial
  | succ turns ih =>
    refine (hoperand _ before parser).bind fun {first last read} _ => ?_
    refine (accounts_accept .comma).bind fun {more final others} _ => ?_
    cases more with
    | true => exact ih.bind fun _ => accounts_pure _
    | false => exact accounts_pure _

/-- The arguments of a call are accounted for if each of them is. -/
theorem accounts_arguments (hoperand : OperandsAccount grammar operand) (turns : Nat) :
    ((operand.arguments turns).run parser).Accounts grammar before parser.pending := by
  refine (accounts_accept .closeParen).bind fun {closed last read} _ => ?_
  cases closed with
  | true => exact accounts_pure _
  | false =>
    refine (accounts_separated hoperand turns).bind fun _ => ?_
    exact (accounts_expect _).bind fun _ => accounts_pure _

/-- An infix rule is accounted for if its operands are and its token has been taken. -/
theorem accounts_extending (hoperand : OperandsAccount grammar operand) {rule : InfixRule}
    {token : Token} (hrule : grammar.infixRule token.kind = some rule) (htoken : token ∈ before)
    (turns : Nat) (left : Expr) :
    ((rule.parse operand turns left token).run parser).Accounts grammar before
      parser.pending := by
  cases rule with
  | postfixed power => exact accounts_pure _
  | binary power associativity => exact (hoperand _ before parser).bind fun _ => accounts_pure _
  | conditional =>
    refine (hoperand _ before parser).bind fun {yes last read} _ => ?_
    refine (accounts_expect .colon).bind fun {colon final others} _ => ?_
    exact (hoperand _ _ final).bind fun _ => accounts_pure _
  | call => exact (accounts_arguments hoperand turns).bind fun _ => accounts_pure _
  | assign =>
    refine (hoperand _ before parser).bind fun {value last read} _ => ?_
    unfold Expr.assignTo
    cases left.name? with
    | some text => exact accounts_pure _
    | none =>
      refine ⟨[], rfl, .target ?_ hrule⟩
      rw [List.append_nil]
      exact List.mem_append_left _ htoken

/-- The loop that extends an expression is accounted for if the operands are. -/
theorem accounts_extend (hoperand : OperandsAccount grammar operand) (level turns : Nat)
    (left : Expr) :
    ((extend grammar operand level turns left).run parser).Accounts grammar before
      parser.pending := by
  induction turns generalizing before parser left with
  | zero => trivial
  | succ turns ih =>
    rw [run_extend]
    cases hrule : grammar.infixRule parser.next.1.kind with
    | none => exact ⟨[], parser.pending_unread_next.symm⟩
    | some rule =>
      by_cases hlevel : rule.level ≤ level
      · simp only [hlevel, if_true]
        exact ⟨[], parser.pending_unread_next.symm⟩
      · simp only [hlevel, if_false]
        have htoken : parser.next.1 ∈ before ++ [parser.next.1] := by simp
        refine Parsed.Accounts.after ?_ parser.pending_eq_append
        exact (accounts_extending hoperand hrule htoken turns left).bind fun _ => ih _

/-- What an expression does once its depth has been checked is accounted for, with its first
token taken. -/
theorem accounts_begin_taken (hoperand : OperandsAccount grammar operand) (level turns : Nat) :
    ((begin grammar operand level turns).run parser).Accounts grammar (before ++ [parser.next.1])
      parser.next.2.pending := by
  rw [begin, ParseM.run_bind, run_consume]
  cases hrule : grammar.prefixRule parser.next.1.kind with
  | none =>
    simp only [hrule]
    exact ⟨[], rfl, .start (by simp) hrule⟩
  | some rule =>
    simp only [hrule]
    exact (accounts_starting hoperand rule _).bind fun _ => accounts_extend hoperand level turns _

/-- What an expression does once its depth has been checked is accounted for. -/
theorem accounts_begin (hoperand : OperandsAccount grammar operand) (level turns : Nat) :
    ((begin grammar operand level turns).run parser).Accounts grammar before
      parser.pending :=
  (accounts_begin_taken hoperand level turns).after parser.pending_eq_append

/-- An action one expression deeper is accounted for if it is so itself. -/
theorem accounts_deeper {action : ParseM Expr}
    (h : (action.run { parser with depth := parser.depth + 1 }).Accounts grammar before
      parser.pending) :
    ((deeper action).run parser).Accounts grammar before parser.pending := by
  rcases hrun : action.run { parser with depth := parser.depth + 1 } with
    ⟨value, last⟩ | ⟨fault | _, last⟩ <;> rw [hrun] at h <;> simp only [deeper, hrun] <;> exact h

/-- Every expression is accounted for. -/
theorem accounts_expression (grammar : Grammar) (fuel : Nat) :
    OperandsAccount grammar (expression grammar fuel) := by
  induction fuel with
  | zero => exact fun _ _ _ => trivial
  | succ fuel ih =>
    intro level before parser
    rw [expression_succ]
    by_cases hdepth : ∀ limit ∈ grammar.depthLimit, parser.depth + 1 ≤ limit
    · rw [nested_of_lt _ hdepth]
      exact accounts_deeper (accounts_begin ih level (fuel + 1))
    · obtain ⟨limit, hlimit, hlt⟩ : ∃ limit ∈ grammar.depthLimit, limit < parser.depth + 1 := by
        simpa using hdepth
      rw [show grammar.depthLimit = some limit from hlimit, run_nested_of_le _ (by omega)]
      exact ⟨[], parser.pending_unread_next.symm, .deep hlimit⟩

/-- A parse is accounted for. -/
theorem accounts_parseExpr (grammar : Grammar) (level : Nat) (before : List Token)
    (parser : Parser) :
    ((parseExpr grammar level).run parser).Accounts grammar before parser.pending :=
  accounts_expression grammar (parser.fuel grammar) level before parser

/-- A parse of the whole input is accounted for. -/
theorem accounts_parseAll (grammar : Grammar) (before : List Token) (parser : Parser) :
    ((parseAll grammar).run parser).Accounts grammar before parser.pending := by
  refine (accounts_parseExpr grammar _ before parser).bind fun _ => ?_
  exact (accounts_expect _).bind fun _ => accounts_pure _

end Parser

/-- What a cause says of the token that is at fault. -/
def Cause.Names (grammar : Grammar) (token : Token) : Cause → Prop
  | noPrefixRule text => text = token.value
  | unexpectedToken expected found => found ≠ expected ∧ found = token.kind
  | invalidAssignmentTarget => grammar.infixRule token.kind = some .assign
  | nestingTooDeep limit => limit ∈ grammar.depthLimit

/-- Every fault is at the start of a token, and its cause says what is wrong with it. -/
theorem Fault.Arises.exists_token {grammar : Grammar} {read : List Token} {following : Token}
    {fault : Fault} (h : fault.Arises grammar read following) :
    ∃ token, (token ∈ read ∨ token = following) ∧ token.start = fault.position ∧
      fault.cause.Names grammar token := by
  cases h with
  | @start token htoken _ => exact ⟨token, .inl (List.mem_of_getLast? htoken), rfl, rfl⟩
  | missing hkind => exact ⟨following, .inr rfl, rfl, hkind, rfl⟩
  | @target token htoken hrule => exact ⟨token, .inl htoken, rfl, hrule⟩
  | deep hlimit => exact ⟨following, .inr rfl, rfl, hlimit⟩

/-- The fault of a standard parse is at the start of a token of its supply. -/
theorem exists_token_of_parse_error {supply : Supply} {fault : Fault}
    (h : parse supply = .error fault) :
    ∃ token ∈ supply.stream, token.start = fault.position ∧
      fault.cause.Names .standard token := by
  obtain ⟨after, hrun⟩ := parse_eq_error_iff.mp h
  have haccounts := Parser.accounts_parseAll .standard [] (.ofSupply supply)
  rw [hrun] at haccounts
  obtain ⟨read, hstream, harises⟩ := haccounts
  obtain ⟨token, htoken, hstart, hnames⟩ := harises.exists_token
  refine ⟨token, ?_, hstart, hnames⟩
  change supply.stream = _ at hstream
  rw [hstream]
  rcases htoken with hread | rfl
  · exact Stream'.mem_append_stream_left _ hread
  · exact Stream'.mem_append_stream_right _ ⟨0, rfl⟩

end Precedence
