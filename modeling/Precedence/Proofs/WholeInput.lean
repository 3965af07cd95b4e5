import Precedence.Parse
import Precedence.Proofs.ReadingOfRun

/-!
# Parsing a whole input

A parse of a whole input reads an expression and then needs the end of the input. With
the standard grammar it gives an expression exactly if one is read, within the limit on
nesting, up to an end mark. Its faults are those for which an input is rejected and
nesting beyond the limit.
-/

namespace Precedence

namespace Parser

variable {grammar : Grammar} {level height : Nat} {read : List Token} {following : Token}
  {rest : Stream' Token} {result : Except Fault Expr} {parser : Parser}

/-- Where the grammar has no rule for end marks, a parser does what is read. -/
theorem parseExpr_meets (hstart : grammar.prefixRule .endOfInput = none)
    (hextend : grammar.infixRule .endOfInput = none)
    (h : Reads grammar (.expression level) read following result height)
    (hpending : parser.pending = read ++ₛ Stream'.cons following rest)
    (hdepth : ∀ limit ∈ grammar.depthLimit, parser.depth ≤ limit) :
    ((parseExpr grammar level).run parser).Meets grammar.depthLimit parser.depth height
      (Parsed.Gives following rest parser.depth · result) := by
  have hread := length_le_live hpending (h.kind_ne_endOfInput hstart hextend)
  have hlive := parser.live_le
  have hfuel : read.length < parser.fuel grammar := by
    unfold fuel
    omega
  rw [run_parseExpr]
  exact h.performed (parser.fuel grammar) hfuel parser rest hpending hdepth

/-- A parse takes tokens as an expression does. -/
theorem traces_parseExpr (grammar : Grammar) (level : Nat) (parser : Parser) :
    ((parseExpr grammar level).run parser).Traces grammar (.expression level) parser.pending
      parser.depth :=
  traces_expression grammar (parser.fuel grammar) level parser

/-- A parse of a whole input needs the end of it after an expression. -/
theorem run_parseAll (grammar : Grammar) (parser : Parser) :
    (parseAll grammar).run parser =
      match (parseExpr grammar Power.lowest.level).run parser with
      | .ok expr after =>
        if after.next.1.kind = .endOfInput then .ok expr after.next.2
        else .stop (.fault (after.next.1.unexpected .endOfInput))
          (after.next.2.unread after.next.1)
      | .stop reason after => .stop reason after := by
  rw [parseAll, ParseM.run_bind]
  cases (parseExpr grammar Power.lowest.level).run parser with
  | ok expr after =>
    by_cases hend : after.next.1.kind = .endOfInput
    · simp [run_expect, hend]
    · simp [run_expect, hend, Token.unexpected]
  | stop reason after => rfl

end Parser

/-- A run ends with one result only. -/
theorem Parsed.Gives.unique {α : Type} {parsed : Parsed α} {following : Token}
    {rest : Stream' Token} {depth : Nat} {result other : Except Fault α}
    (h : parsed.Gives following rest depth result)
    (hother : parsed.Gives following rest depth other) : result = other := by
  cases result <;> cases other <;> obtain ⟨after, rfl, -⟩ := h <;>
    obtain ⟨last, hlast, -⟩ := hother <;> cases hlast <;> rfl

/-- The same tokens are read with one result only. -/
theorem Reads.unique {grammar : Grammar} {level height more : Nat} {read : List Token}
    {following : Token} {result other : Except Fault Expr}
    (hstart : grammar.prefixRule .endOfInput = none)
    (hextend : grammar.infixRule .endOfInput = none)
    (h : Reads grammar (.expression level) read following result height)
    (hother : Reads grammar (.expression level) read following other more) : result = other := by
  -- A parser without a limit gives both results when it reads just these tokens.
  have hgives : ∀ {value height}, Reads grammar (.expression level) read following value height →
      ((Parser.parseExpr { grammar with depthLimit := none } level).run
        (.ofSupply (.list ⟨read ++ [following], .null⟩))).Gives following
        (Stream'.const (.endMark ⟨.null, .null⟩)) 0 value := by
    intro value height hreads
    refine (Parser.parseExpr_meets (by exact hstart) (by exact hextend) (hreads.of_limit none) ?_
      (by simp)).1 (by simp)
    rw [Parser.pending_ofSupply, Supply.stream_list, Stream'.append_append_stream]
    rfl
  exact (hgives h).unique (hgives hother)

/-- `Rejects read following fault height` says that a whole input is rejected when
`following` is seen after the tokens `read`. -/
inductive Rejects : List Token → Token → Fault → Nat → Prop where
  /-- There is a fault in the expression. -/
  | fault {read following fault height}
      (hreads : Reads .standard (.expression Power.lowest.level) read following (.error fault)
        height) : Rejects read following fault height
  /-- The input goes on after the expression. -/
  | unfinished {read following expr height}
      (hreads : Reads .standard (.expression Power.lowest.level) read following (.ok expr) height)
      (hend : following.kind ≠ .endOfInput) :
      Rejects read following (following.unexpected .endOfInput) height

section Standard

variable {supply : Supply} {read : List Token} {following : Token} {rest : Stream' Token}
  {height : Nat}

/-- The standard parse does what is read from the start of its supply. -/
theorem standard_meets {result : Except Fault Expr}
    (h : Reads .standard (.expression Power.lowest.level) read following result height)
    (hstream : supply.stream = read ++ₛ Stream'.cons following rest) :
    ((Parser.parseExpr .standard Power.lowest.level).run (.ofSupply supply)).Meets
      (some Grammar.maxDepth) 0 height (Parsed.Gives following rest 0 · result) :=
  Parser.parseExpr_meets rfl rfl h (show (Parser.ofSupply supply).pending = _ from hstream)
    fun _ _ => Nat.zero_le _

/-- Where the limit allows it, the standard parse ends as is read. -/
theorem standard_gives {result : Except Fault Expr}
    (h : Reads .standard (.expression Power.lowest.level) read following result height)
    (hstream : supply.stream = read ++ₛ Stream'.cons following rest)
    (hheight : height ≤ Grammar.maxDepth) :
    ((Parser.parseExpr .standard Power.lowest.level).run (.ofSupply supply)).Gives
      following rest 0 result := by
  apply (standard_meets h hstream).1
  rintro limit ⟨⟩
  rwa [Nat.zero_add]

/-- An expression that is read up to an end mark is the result of the parse. -/
theorem parse_of_reads_ok {expr : Expr}
    (h : Reads .standard (.expression Power.lowest.level) read following (.ok expr) height)
    (hstream : supply.stream = read ++ₛ Stream'.cons following rest)
    (hheight : height ≤ Grammar.maxDepth) (hend : following.kind = .endOfInput) :
    parse supply = .ok expr := by
  obtain ⟨after, hrun, hafter, -⟩ := standard_gives h hstream hheight
  obtain ⟨hnext, -⟩ := Parser.next_of_pending hafter
  refine parse_eq_ok_iff.mpr ⟨after.next.2, ?_⟩
  rw [Parser.run_parseAll, hrun]
  simp only [hnext, hend, if_true]

/-- A whole input that is rejected at a token has a run that stops there. -/
theorem Rejects.run {fault : Fault} (h : Rejects read following fault height)
    (hstream : supply.stream = read ++ₛ Stream'.cons following rest)
    (hheight : height ≤ Grammar.maxDepth) :
    ∃ after, (Parser.parseAll .standard).run (.ofSupply supply) = .stop (.fault fault) after ∧
      after.pending = fault.cause.remainder following rest := by
  cases h with
  | fault hreads =>
    obtain ⟨after, hrun, hafter, -⟩ := standard_gives hreads hstream hheight
    refine ⟨after, ?_, hafter⟩
    rw [Parser.run_parseAll, hrun]
  | unfinished hreads hend =>
    obtain ⟨after, hrun, hafter, -⟩ := standard_gives hreads hstream hheight
    obtain ⟨hnext, -⟩ := Parser.next_of_pending hafter
    refine ⟨after.next.2.unread after.next.1, ?_, ?_⟩
    · rw [Parser.run_parseAll, hrun]
      simp only [hnext, hend, if_false]
    · rw [Parser.pending_unread_next, hafter]
      rfl

/-- A whole input that is rejected has the fault it is rejected for. -/
theorem parse_of_rejects {fault : Fault} (h : Rejects read following fault height)
    (hstream : supply.stream = read ++ₛ Stream'.cons following rest)
    (hheight : height ≤ Grammar.maxDepth) : parse supply = .error fault := by
  obtain ⟨after, hrun, -⟩ := h.run hstream hheight
  exact parse_eq_error_iff.mpr ⟨after, hrun⟩

/-- An expression that is nested too deep is a fault, whatever else is read. -/
theorem parse_of_reads_deep {result : Except Fault Expr}
    (h : Reads .standard (.expression Power.lowest.level) read following result height)
    (hstream : supply.stream = read ++ₛ Stream'.cons following rest)
    (hheight : Grammar.maxDepth < height) :
    ∃ position, parse supply = .error ⟨.nestingTooDeep Grammar.maxDepth, position⟩ := by
  obtain ⟨position, after, hrun⟩ := (standard_meets h hstream).2 Grammar.maxDepth rfl (by omega)
  refine ⟨position, parse_eq_error_iff.mpr ⟨after, ?_⟩⟩
  rw [Parser.run_parseAll, hrun]

/-- What the standard parser has room for is within the limit on nesting. -/
theorem standard_fits (h : ∀ limit ∈ Grammar.standard.depthLimit,
    (Parser.ofSupply supply).depth + height ≤ limit) : height ≤ Grammar.maxDepth := by
  have hle := h Grammar.maxDepth rfl
  change 0 + height ≤ Grammar.maxDepth at hle
  omega

/-- An expression that is the result of a parse is read up to an end mark. -/
theorem reads_of_parse_ok {expr : Expr} (h : parse supply = .ok expr) :
    ∃ read following rest height, supply.stream = read ++ₛ Stream'.cons following rest ∧
      Reads .standard (.expression Power.lowest.level) read following (.ok expr) height ∧
      height ≤ Grammar.maxDepth ∧ following.kind = .endOfInput := by
  obtain ⟨final, hall⟩ := parse_eq_ok_iff.mp h
  have htraces := Parser.traces_parseExpr .standard Power.lowest.level (.ofSupply supply)
  rw [Parser.run_parseAll] at hall
  cases hrun : (Parser.parseExpr .standard Power.lowest.level).run (.ofSupply supply) with
  | ok value after =>
    rw [hrun] at hall htraces
    obtain ⟨read, height, hstream, hreads, hfits, -⟩ := htraces
    rw [Parser.head_pending] at hreads
    rw [Parser.pending_eq after] at hstream
    by_cases hend : after.next.1.kind = .endOfInput
    · simp only [hend, if_true] at hall
      cases hall
      exact ⟨read, after.next.1, after.next.2.pending, height, hstream, hreads,
        standard_fits hfits, hend⟩
    · simp only [hend, if_false] at hall
      cases hall
  | stop reason after =>
    rw [hrun] at hall
    cases hall

/-- An input with a fault is rejected for it, unless it is nested too deep. -/
theorem rejects_of_parse_error {fault : Fault} (h : parse supply = .error fault) :
    fault.cause = .nestingTooDeep Grammar.maxDepth ∨
    ∃ read following rest height, supply.stream = read ++ₛ Stream'.cons following rest ∧
      height ≤ Grammar.maxDepth ∧ Rejects read following fault height := by
  obtain ⟨final, hall⟩ := parse_eq_error_iff.mp h
  have htraces := Parser.traces_parseExpr .standard Power.lowest.level (.ofSupply supply)
  rw [Parser.run_parseAll] at hall
  cases hrun : (Parser.parseExpr .standard Power.lowest.level).run (.ofSupply supply) with
  | ok value after =>
    rw [hrun] at hall htraces
    obtain ⟨read, height, hstream, hreads, hfits, -⟩ := htraces
    rw [Parser.head_pending] at hreads
    rw [Parser.pending_eq after] at hstream
    by_cases hend : after.next.1.kind = .endOfInput
    · simp only [hend, if_true] at hall
      cases hall
    · simp only [hend, if_false] at hall
      cases hall
      exact .inr ⟨read, after.next.1, after.next.2.pending, height, hstream, standard_fits hfits,
        .unfinished hreads hend⟩
  | stop reason after =>
    rw [hrun] at hall htraces
    cases hall
    rcases htraces with ⟨limit, hlimit, hcause⟩ |
      ⟨read, following, rest, height, hstream, hreads, hfits⟩
    · obtain rfl : Grammar.maxDepth = limit := Option.some.inj hlimit
      exact .inl hcause
    · exact .inr ⟨read, following, rest, height, hstream, standard_fits hfits, .fault hreads⟩

end Standard

/-- The end mark that follows a list of tokens. -/
def endMarkAfter (tokens : List Token) : Token :=
  .endMark ⟨(Replay.ofList tokens).stop, (Replay.ofList tokens).stop⟩

/-- A list of tokens is followed by its end mark for ever. -/
theorem stream_ofList (tokens : List Token) :
    (Supply.list (.ofList tokens)).stream =
      tokens ++ₛ Stream'.cons (endMarkAfter tokens) (Stream'.const (endMarkAfter tokens)) := by
  rw [Supply.stream_list, ← Stream'.const_eq]
  rfl

/-- What comes before a token is the start of a list of tokens, if it has no end marks. -/
theorem exists_append_of_stream {read tokens : List Token} {following mark : Token}
    {rest others : Stream' Token}
    (h : tokens ++ₛ Stream'.cons mark others = read ++ₛ Stream'.cons following rest)
    (hread : ∀ token ∈ read, token.kind ≠ .endOfInput) (hmark : mark.kind = .endOfInput) :
    ∃ after, tokens = read ++ after ∧
      after ++ₛ Stream'.cons mark others = Stream'.cons following rest := by
  induction read generalizing tokens with
  | nil => exact ⟨tokens, rfl, h⟩
  | cons token read ih =>
    obtain ⟨htoken, hothers⟩ := List.forall_mem_cons.mp hread
    cases tokens with
    | nil =>
      obtain ⟨rfl, -⟩ := Stream'.cons_injective2 h
      exact absurd hmark htoken
    | cons first tokens =>
      obtain ⟨rfl, hrest⟩ := Stream'.cons_injective2 h
      obtain ⟨after, rfl, hafter⟩ := ih hrest hothers
      exact ⟨after, rfl, hafter⟩

/-- Tokens without end marks are parsed exactly if all of them are read as an expression. -/
theorem parseTokens_eq_ok_iff_reads {tokens : List Token} {expr : Expr}
    (hend : ∀ token ∈ tokens, token.kind ≠ .endOfInput) :
    parseTokens tokens = .ok expr ↔
      ∃ height ≤ Grammar.maxDepth, Reads .standard (.expression Power.lowest.level) tokens
        (endMarkAfter tokens) (.ok expr) height := by
  constructor
  · intro hparse
    obtain ⟨read, following, rest, height, hstream, hreads, hheight, hkind⟩ :=
      reads_of_parse_ok hparse
    rw [stream_ofList] at hstream
    obtain ⟨after, rfl, hafter⟩ :=
      exists_append_of_stream hstream (hreads.kind_ne_endOfInput rfl rfl) rfl
    cases after with
    | nil =>
      obtain ⟨rfl, -⟩ := Stream'.cons_injective2 hafter
      rw [List.append_nil] at hreads ⊢
      exact ⟨height, hheight, hreads⟩
    | cons token after =>
      obtain ⟨rfl, -⟩ := Stream'.cons_injective2 hafter
      exact absurd hkind (hend _ (by simp))
  · rintro ⟨height, hheight, hreads⟩
    exact parse_of_reads_ok hreads (stream_ofList tokens) hheight rfl

end Precedence
