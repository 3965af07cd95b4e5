import Precedence.Proofs.RunOfReading

/-!
# Whatever a parser does is read

A run of a parser that neither runs out of fuel nor is nested too deep has taken tokens
as `Reads` describes, within its limit on nesting. The statements follow the functions
of the parser; the loops are followed by induction on their turns. The main statement is
`Parser.traces_expression`.
-/

namespace Precedence

/-- A run that, started where `stream` was to come at a depth, took tokens as on a task.
Nothing is said about a run that is out of fuel or too deep. -/
def Parsed.Traces (grammar : Grammar) (task : Task) (stream : Stream' Token) (depth : Nat) :
    Parsed Expr → Prop
  | .ok expr after => ∃ read height, stream = read ++ₛ after.pending ∧
      Reads grammar task read after.pending.head (.ok expr) height ∧
      (∀ limit ∈ grammar.depthLimit, depth + height ≤ limit) ∧ after.depth = depth
  | .stop (.fault fault) _ =>
      (∃ limit ∈ grammar.depthLimit, fault.cause = .nestingTooDeep limit) ∨
      ∃ read following rest height, stream = read ++ₛ Stream'.cons following rest ∧
        Reads grammar task read following (.error fault) height ∧
        ∀ limit ∈ grammar.depthLimit, depth + height ≤ limit
  | .stop .endless _ => True

namespace Parser

variable {grammar : Grammar} {task other : Task} {stream : Stream' Token} {depth : Nat}
  {parser : Parser} {operand : Operand}

/-- Operands take tokens as expressions do. -/
def OperandsTrace (grammar : Grammar) (operand : Operand) : Prop :=
  ∀ level parser,
    ((operand level).run parser).Traces grammar (.expression level) parser.pending parser.depth

/-- An action that starts with another one takes tokens as its own task says. -/
theorem traces_bind {first : ParseM Expr} {second : Expr → ParseM Expr}
    (hfirst : (first.run parser).Traces grammar task parser.pending parser.depth)
    (hfault : ∀ {read following fault height},
      Reads grammar task read following (.error fault) height →
      Reads grammar other read following (.error fault) height)
    (hok : ∀ {expr after read height}, parser.pending = read ++ₛ after.pending →
      Reads grammar task read after.pending.head (.ok expr) height →
      (∀ limit ∈ grammar.depthLimit, parser.depth + height ≤ limit) →
      after.depth = parser.depth →
      ((second expr).run after).Traces grammar other parser.pending parser.depth) :
    ((first >>= second).run parser).Traces grammar other parser.pending parser.depth := by
  rw [ParseM.run_bind]
  rcases hrun : first.run parser with ⟨expr, after⟩ | ⟨fault | _, after⟩
  · rw [hrun] at hfirst
    obtain ⟨read, height, hstream, hreads, hfits, hdepth⟩ := hfirst
    exact hok hstream hreads hfits hdepth
  · rw [hrun] at hfirst
    rcases hfirst with hdeep | ⟨read, following, rest, height, hstream, hreads, hfits⟩
    · exact .inl hdeep
    · exact .inr ⟨read, following, rest, height, hstream, hfault hreads, hfits⟩
  · trivial

/-- A token that is missing is a fault of the task at hand. -/
theorem traces_missing {kind : Kind} {read : List Token} {height : Nat} (action : ParseM Expr)
    (hstream : stream = read ++ₛ parser.pending) (hkind : parser.next.1.kind ≠ kind)
    (hreads : Reads grammar task read parser.next.1 (.error (parser.next.1.unexpected kind)) height)
    (hfits : ∀ limit ∈ grammar.depthLimit, depth + height ≤ limit) :
    ((expect kind >>= fun _ => action).run parser).Traces grammar task stream depth := by
  rw [ParseM.run_bind, run_expect, if_neg hkind]
  refine .inr ⟨read, parser.next.1, parser.next.2.pending, height, ?_, hreads, hfits⟩
  rw [hstream, ← pending_eq]

/-- The tokens to come, once the next of them has been taken too. -/
theorem stream_snoc {read : List Token} (hstream : stream = read ++ₛ parser.pending) :
    stream = (read ++ [parser.next.1]) ++ₛ parser.next.2.pending := by
  rw [hstream, Stream'.append_append_stream, pending_eq]
  rfl

/-- A token that is there ends the task at hand. -/
theorem traces_closed {kind : Kind} {read : List Token} {height : Nat} {expr : Expr}
    (hstream : stream = read ++ₛ parser.pending) (hkind : parser.next.1.kind = kind)
    (hreads : ∀ {following}, Reads grammar task (read ++ [parser.next.1]) following (.ok expr)
      height)
    (hfits : ∀ limit ∈ grammar.depthLimit, depth + height ≤ limit)
    (hdepth : parser.depth = depth) :
    ((expect kind >>= fun _ => pure expr).run parser).Traces grammar task stream depth := by
  rw [ParseM.run_bind, run_expect, if_pos hkind]
  exact ⟨_, height, stream_snoc hstream, hreads, hfits, by rw [depth_next, hdepth]⟩

/-- A prefix rule takes tokens as its task says, if its operands do. -/
theorem traces_starting (hoperand : OperandsTrace grammar operand)
    (rule : PrefixRule) (token : Token)
    (hdepth : ∀ limit ∈ grammar.depthLimit, parser.depth ≤ limit) :
    ((rule.parse operand token).run parser).Traces grammar (.starting rule token) parser.pending
      parser.depth := by
  cases rule with
  | name => exact ⟨[], 0, rfl, .name, hdepth, rfl⟩
  | group =>
    refine traces_bind (hoperand _ parser) .group_fault
      fun {expr after read height} hstream hreads hfits hkeep => ?_
    rw [head_pending] at hreads
    by_cases hclosing : after.next.1.kind = .closeParen
    · exact traces_closed hstream hclosing (.group hreads hclosing) hfits hkeep
    · exact traces_missing _ hstream hclosing (.group_open hreads hclosing) hfits
  | operator power =>
    refine traces_bind (hoperand _ parser) (fun h => .operator h)
      fun {expr after read height} hstream hreads hfits hkeep => ?_
    exact ⟨_, _, hstream, .operator hreads, hfits, hkeep⟩

/-- Two parts that are nested within a limit are so together. -/
theorem fits_max {limit? : Option Nat} {height more : Nat}
    (hheight : ∀ limit ∈ limit?, depth + height ≤ limit)
    (hmore : ∀ limit ∈ limit?, depth + more ≤ limit) :
    ∀ limit ∈ limit?, depth + max height more ≤ limit := by
  intro limit hlimit
  have hfirst := hheight limit hlimit
  have hsecond := hmore limit hlimit
  omega

/-- What is traced after some tokens is traced with them, as a longer task. -/
theorem traces_after {before : List Token} {height : Nat} {later : Stream' Token}
    {parsed : Parsed Expr} (h : parsed.Traces grammar task later depth)
    (hstream : stream = before ++ₛ later)
    (hfits : ∀ limit ∈ grammar.depthLimit, depth + height ≤ limit)
    (hreads : ∀ {read following result more}, Reads grammar task read following result more →
      Reads grammar other (before ++ read) following result (max height more)) :
    parsed.Traces grammar other stream depth := by
  rcases parsed with ⟨expr, after⟩ | ⟨fault | _, after⟩
  · obtain ⟨read, more, hlater, hread, hmore, hdepth⟩ := h
    refine ⟨before ++ read, max height more, ?_, hreads hread, fits_max hfits hmore, hdepth⟩
    rw [hstream, hlater, Stream'.append_append_stream]
  · rcases h with hdeep | ⟨read, following, rest, more, hlater, hread, hmore⟩
    · exact .inl hdeep
    · refine .inr ⟨before ++ read, following, rest, max height more, ?_, hreads hread,
        fits_max hfits hmore⟩
      rw [hstream, hlater, Stream'.append_append_stream]
  · trivial

/-- An action that starts with another one after some tokens takes tokens as a longer task. -/
theorem traces_bind_after {first : ParseM Expr} {second : Expr → ParseM Expr}
    {before : List Token} {height : Nat}
    (hfirst : (first.run parser).Traces grammar task parser.pending parser.depth)
    (hstream : stream = before ++ₛ parser.pending) (hdepth : parser.depth = depth)
    (hfits : ∀ limit ∈ grammar.depthLimit, depth + height ≤ limit)
    (hfault : ∀ {read following fault more},
      Reads grammar task read following (.error fault) more →
      Reads grammar other (before ++ read) following (.error fault) (max height more))
    (hok : ∀ {expr after read more}, stream = (before ++ read) ++ₛ after.pending →
      Reads grammar task read after.pending.head (.ok expr) more →
      (∀ limit ∈ grammar.depthLimit, depth + max height more ≤ limit) → after.depth = depth →
      ((second expr).run after).Traces grammar other stream depth) :
    ((first >>= second).run parser).Traces grammar other stream depth := by
  subst hdepth
  rw [ParseM.run_bind]
  rcases hrun : first.run parser with ⟨expr, after⟩ | ⟨fault | _, after⟩
  · rw [hrun] at hfirst
    obtain ⟨read, more, hlater, hreads, hmore, hkeep⟩ := hfirst
    refine hok ?_ hreads (fits_max hfits hmore) hkeep
    rw [hstream, hlater, Stream'.append_append_stream]
  · rw [hrun] at hfirst
    rcases hfirst with hdeep | ⟨read, following, rest, more, hlater, hreads, hmore⟩
    · exact .inl hdeep
    · refine .inr ⟨before ++ read, following, rest, max height more, ?_, hfault hreads,
        fits_max hfits hmore⟩
      rw [hstream, hlater, Stream'.append_append_stream]
  · trivial

/-- Arguments take tokens as their task says, if each of them does. -/
theorem traces_separated (hoperand : OperandsTrace grammar operand)
    (callee : Expr) (before : List Expr) (turns : Nat) (parser : Parser) :
    ((do let exprs ← operand.separated turns
         let _ ← expect .closeParen
         return .call callee (before ++ exprs) : ParseM Expr).run parser).Traces grammar
      (.separated callee before) parser.pending parser.depth := by
  induction turns generalizing before parser with
  | zero => trivial
  | succ turns ih =>
    rw [Operand.separated, bind_assoc]
    refine traces_bind (hoperand _ parser) .argument_fault
      fun {expr after read height} hstream hreads hfits hkeep => ?_
    rw [head_pending] at hreads
    by_cases hcomma : after.next.1.kind = .comma
    · have hrest := ih (before ++ [expr]) after.next.2
      rw [depth_next, hkeep] at hrest
      have hmore := traces_after hrest (stream_snoc hstream) hfits fun hread => by
        rw [List.append_assoc]
        exact .more hreads hcomma hread
      simpa [run_accept, hcomma] using hmore
    · have hpeek : (accept .comma).run after =
          .ok false (after.next.2.unread after.next.1) := by
        rw [run_accept, if_neg hcomma]
      have hstream' : parser.pending = read ++ₛ (after.next.2.unread after.next.1).pending := by
        rw [pending_unread_next]
        exact hstream
      have hdone : ((expect .closeParen >>= fun _ => pure (.call callee (before ++ [expr]))).run
          (after.next.2.unread after.next.1)).Traces grammar (.separated callee before)
          parser.pending parser.depth := by
        by_cases hclosing : after.next.1.kind = .closeParen
        · exact traces_closed hstream' hclosing (.last hreads hclosing) hfits
            (by rw [depth_unread, depth_next, hkeep])
        · exact traces_missing _ hstream' hclosing (.argument_open hreads hcomma hclosing) hfits
      simpa [hpeek] using hdone

/-- What is traced on one task is traced on another that reads the same tokens. -/
theorem traces_imp {parsed : Parsed Expr} (h : parsed.Traces grammar task stream depth)
    (himp : ∀ {read following later result height}, stream = read ++ₛ Stream'.cons following later →
      Reads grammar task read following result height →
      Reads grammar other read following result height) :
    parsed.Traces grammar other stream depth := by
  rcases parsed with ⟨expr, after⟩ | ⟨fault | _, after⟩
  · obtain ⟨read, height, hstream, hreads, hrest⟩ := h
    have hhead : stream = read ++ₛ Stream'.cons after.pending.head after.pending.tail := by
      rw [Stream'.eta, hstream]
    exact ⟨read, height, hstream, himp hhead hreads, hrest⟩
  · rcases h with hdeep | ⟨read, following, rest, height, hstream, hreads, hfits⟩
    · exact .inl hdeep
    · exact .inr ⟨read, following, rest, height, hstream, himp hstream hreads, hfits⟩
  · trivial

/-- The arguments of a call take tokens as their task says. -/
theorem traces_arguments (hoperand : OperandsTrace grammar operand)
    (callee : Expr) (turns : Nat) (hdepth : ∀ limit ∈ grammar.depthLimit, parser.depth ≤ limit) :
    ((do let exprs ← operand.arguments turns
         return .call callee exprs : ParseM Expr).run parser).Traces grammar
      (.arguments callee) parser.pending parser.depth := by
  by_cases hclosing : parser.next.1.kind = .closeParen
  · have hrun : (accept .closeParen).run parser = .ok true parser.next.2 := by
      rw [run_accept, if_pos hclosing]
    simp only [Operand.arguments, ParseM.run_bind, hrun, if_true, ParseM.run_pure]
    exact ⟨[parser.next.1], 0, parser.pending_eq, .no_arguments hclosing, hdepth,
      parser.depth_next⟩
  · have hseparated := traces_separated hoperand callee [] turns
      (parser.next.2.unread parser.next.1)
    rw [pending_unread_next, depth_unread, depth_next] at hseparated
    rw [arguments_of_ne operand turns callee hclosing]
    refine traces_imp hseparated fun {read following _ _ _} hstream hreads => ?_
    -- The first token read is the one that was looked at.
    have hfirst : parser.next.1 = read.headD following := by
      rw [← head_pending, hstream]
      cases read <;> rfl
    exact .some_arguments (hfirst ▸ hclosing) hreads

/-- An infix rule takes tokens as its task says, if its operands do. -/
theorem traces_extending (hoperand : OperandsTrace grammar operand)
    (rule : InfixRule) (left : Expr) (token : Token) (turns : Nat)
    (hdepth : ∀ limit ∈ grammar.depthLimit, parser.depth ≤ limit) :
    ((rule.parse operand turns left token).run parser).Traces grammar
      (.extending rule left token) parser.pending parser.depth := by
  cases rule with
  | postfixed power => exact ⟨[], 0, rfl, .postfixed, hdepth, rfl⟩
  | binary power associativity =>
    refine traces_bind (hoperand _ parser) (fun h => .binary h)
      fun {expr after read height} hstream hreads hfits hkeep => ?_
    exact ⟨read, height, hstream, .binary hreads, hfits, hkeep⟩
  | conditional =>
    refine traces_bind (hoperand _ parser) .conditional_fault
      fun {yes after read height} hstream hreads hfits hkeep => ?_
    rw [head_pending] at hreads
    by_cases hcolon : after.next.1.kind = .colon
    · have hrun : (expect .colon).run after = .ok after.next.1 after.next.2 := by
        rw [run_expect, if_pos hcolon]
      have hboth : ∀ {rest following result more},
          Reads grammar (.expression (Power.conditional.level - 1)) rest following result more →
          Reads grammar (.extending .conditional left token)
            ((read ++ [after.next.1]) ++ rest) following (result.map (.conditional left yes))
            (max height more) := by
        intro rest following result more hno
        rw [List.append_assoc]
        exact .conditional hreads hcolon hno
      rw [ParseM.run_bind, hrun]
      exact traces_bind_after (hoperand _ after.next.2) (stream_snoc hstream)
        (by rw [depth_next, hkeep]) hfits (fun hno => hboth hno)
        fun hlater hno hmore hlast => ⟨_, _, hlater, hboth hno, hmore, hlast⟩
    · exact traces_missing _ hstream hcolon (.conditional_open hreads hcolon) hfits
  | call =>
    exact traces_imp (traces_arguments hoperand left turns hdepth) fun _ hreads => .call hreads
  | assign =>
    refine traces_bind (hoperand _ parser) (fun h => .assign h)
      fun {value after read height} hstream hreads hfits hkeep => ?_
    have hassign : Reads grammar (.extending .assign left token) read after.pending.head
        (left.assignTo value token.start) height := Reads.assign hreads
    cases hresult : left.assignTo value token.start with
    | ok expr =>
      rw [hresult] at hassign
      exact ⟨read, height, hstream, hassign, hfits, hkeep⟩
    | error fault =>
      rw [hresult] at hassign
      exact .inr ⟨read, _, _, height, by rw [hstream, Stream'.eta], hassign, hfits⟩

/-- Extending an expression takes tokens as the rest of it, if its operands do. -/
theorem traces_extend (hoperand : OperandsTrace grammar operand)
    (level turns : Nat) {left : Expr} {before : List Token} {height : Nat}
    (hstream : stream = before ++ₛ parser.pending) (hdepth : parser.depth = depth)
    (hbefore : Reads grammar (.beginning level) before parser.pending.head (.ok left) height)
    (hfits : ∀ limit ∈ grammar.depthLimit, depth + height ≤ limit) :
    ((extend grammar operand level turns left).run parser).Traces grammar (.beginning level) stream
      depth := by
  induction turns generalizing parser left before height with
  | zero => trivial
  | succ turns ih =>
    rcases Nat.lt_or_ge level (grammar.level parser.next.1.kind) with hlt | hle
    · obtain ⟨rule, hrule⟩ : ∃ rule, grammar.infixRule parser.next.1.kind = some rule := by
        cases hrule : grammar.infixRule parser.next.1.kind with
        | none =>
          rw [Grammar.level_of_none hrule] at hlt
          omega
        | some rule => exact ⟨rule, rfl⟩
      rw [Grammar.level_of_infixRule hrule] at hlt
      obtain ⟨after, hafter, hkeep, hrun⟩ :=
        extend_of_lt operand turns left parser.pending_eq hrule hlt
      have hlimit : ∀ limit ∈ grammar.depthLimit, after.depth ≤ limit := by
        intro limit hlimit
        have hle := hfits limit hlimit
        omega
      have hlonger : ∀ {read following result more},
          Reads grammar (.extending rule left parser.next.1) read following result more →
          Reads grammar (.beginning level) ((before ++ [parser.next.1]) ++ read) following result
            (max height more) := by
        intro read following result more hread
        rw [List.append_assoc]
        rw [head_pending] at hbefore
        exact .extend hbefore hrule hlt hread
      have hsnoc : stream = (before ++ [parser.next.1]) ++ₛ after.pending := by
        rw [hafter]
        exact stream_snoc hstream
      rw [hrun]
      exact traces_bind_after (traces_extending hoperand rule left parser.next.1 turns hlimit) hsnoc
        (by rw [hkeep, hdepth]) hfits hlonger
        fun hlater hread hmore hlast => ih hlater hlast (hlonger hread) hmore
    · obtain ⟨after, hrun, hpending, hkeep⟩ :=
        extend_of_le operand turns left parser.pending_eq hle
      rw [hrun]
      rw [← parser.pending_eq] at hpending
      exact ⟨before, height, by rw [hpending, hstream], by rwa [hpending], hfits,
        by rw [hkeep, hdepth]⟩

/-- An expression is extended until a token does not bind tighter than its level. -/
theorem level_le_of_extend {level turns : Nat} {left expr : Expr} {after : Parser}
    (h : (extend grammar operand level turns left).run parser = .ok expr after) :
    grammar.level after.pending.head.kind ≤ level := by
  induction turns generalizing parser left with
  | zero => cases h
  | succ turns ih =>
    cases hrule : grammar.infixRule parser.next.1.kind with
    | none =>
      have hlevel : grammar.level parser.next.1.kind ≤ level := by
        rw [Grammar.level_of_none hrule]
        exact Nat.zero_le _
      obtain ⟨final, hrun, hpending, -⟩ :=
        extend_of_le operand turns left parser.pending_eq hlevel
      rw [hrun] at h
      cases h
      rwa [hpending]
    | some rule =>
      rcases Nat.lt_or_ge level rule.level with hlt | hle
      · obtain ⟨middle, -, -, hrun⟩ :=
          extend_of_lt operand turns left parser.pending_eq hrule hlt
        rw [hrun, ParseM.run_bind] at h
        cases hlonger : (rule.parse operand turns left parser.next.1).run middle with
        | ok longer final =>
          rw [hlonger] at h
          exact ih h
        | stop reason final =>
          rw [hlonger] at h
          cases h
      · rw [← Grammar.level_of_infixRule hrule] at hle
        obtain ⟨final, hrun, hpending, -⟩ :=
          extend_of_le operand turns left parser.pending_eq hle
        rw [hrun] at h
        cases h
        rwa [hpending]

/-- The beginning of an expression takes tokens as its task says, if its operands do. -/
theorem traces_begin (hoperand : OperandsTrace grammar operand) (parser : Parser)
    (level turns : Nat) (hdepth : ∀ limit ∈ grammar.depthLimit, parser.depth ≤ limit) :
    ((begin grammar operand level turns).run parser).Traces grammar (.beginning level)
      parser.pending parser.depth := by
  cases hrule : grammar.prefixRule parser.next.1.kind with
  | none =>
    obtain ⟨after, hrun, -, -⟩ := begin_of_none operand level turns parser.pending_eq hrule
    rw [hrun]
    exact .inr ⟨[], _, _, 0, parser.pending_eq, .no_start hrule, hdepth⟩
  | some rule =>
    obtain ⟨after, hafter, hkeep, hrun⟩ :=
      begin_of_some operand level turns parser.pending_eq hrule
    have hstarting : ((rule.parse operand parser.next.1).run after).Traces grammar
        (.starting rule parser.next.1) after.pending after.depth :=
      traces_starting hoperand rule parser.next.1 (by rwa [hkeep])
    rw [hrun, ParseM.run_bind]
    rw [hafter, hkeep] at hstarting
    rcases hresult : (rule.parse operand parser.next.1).run after with
      ⟨left, final⟩ | ⟨fault | _, final⟩
    · rw [hresult] at hstarting
      obtain ⟨read, height, hstream, hreads, hfits, hlast⟩ := hstarting
      refine traces_extend hoperand level turns ?_ hlast (.start hrule hreads) hfits
      rw [pending_eq, hstream]
      rfl
    · rw [hresult] at hstarting
      rcases hstarting with hdeep | ⟨read, following, rest, height, hstream, hreads, hfits⟩
      · exact .inl hdeep
      · refine .inr ⟨parser.next.1 :: read, following, rest, height, ?_,
          .start hrule hreads, hfits⟩
        rw [pending_eq, hstream]
        rfl
    · trivial

/-- An expression that is found to be extended as far as possible is finished. -/
theorem level_le_of_begin {level turns : Nat} {expr : Expr} {after : Parser}
    (h : (begin grammar operand level turns).run parser = .ok expr after) :
    grammar.level after.pending.head.kind ≤ level := by
  cases hrule : grammar.prefixRule parser.next.1.kind with
  | none =>
    obtain ⟨final, hrun, -, -⟩ := begin_of_none operand level turns parser.pending_eq hrule
    rw [hrun] at h
    cases h
  | some rule =>
    obtain ⟨middle, -, -, hrun⟩ := begin_of_some operand level turns parser.pending_eq hrule
    rw [hrun, ParseM.run_bind] at h
    cases hleft : (rule.parse operand parser.next.1).run middle with
    | ok left final =>
      rw [hleft] at h
      exact level_le_of_extend h
    | stop reason final =>
      rw [hleft] at h
      cases h

/-- Every expression takes tokens as its task says. -/
theorem traces_expression (grammar : Grammar) (fuel : Nat) :
    OperandsTrace grammar (expression grammar fuel) := by
  induction fuel with
  | zero => exact fun level parser => trivial
  | succ fuel ih =>
    intro level parser
    rw [expression_succ]
    by_cases hdepth : ∀ limit ∈ grammar.depthLimit, parser.depth + 1 ≤ limit
    · have hbegin := traces_begin ih { parser with depth := parser.depth + 1 } level
        (fuel + 1) hdepth
      rw [nested_of_lt _ hdepth]
      rcases hrun : (begin grammar (expression grammar fuel) level (fuel + 1)).run
        { parser with depth := parser.depth + 1 } with ⟨expr, after⟩ | ⟨fault | _, after⟩
      · simp only [deeper, hrun]
        rw [hrun] at hbegin
        obtain ⟨read, height, hstream, hreads, hfits, hafter⟩ := hbegin
        have hlevel := level_le_of_begin hrun
        refine ⟨read, height + 1, hstream, .finish hreads hlevel, ?_, ?_⟩
        · intro limit hlimit
          have hle := hfits limit hlimit
          change parser.depth + 1 + height ≤ limit at hle
          omega
        · change after.depth - 1 = parser.depth
          rw [hafter]
          rfl
      · simp only [deeper, hrun]
        rw [hrun] at hbegin
        rcases hbegin with hdeep | ⟨read, following, rest, height, hstream, hreads, hfits⟩
        · exact .inl hdeep
        · refine .inr ⟨read, following, rest, height + 1, hstream, .finish_fault hreads, ?_⟩
          intro limit hlimit
          have hle := hfits limit hlimit
          change parser.depth + 1 + height ≤ limit at hle
          omega
      · simp only [deeper, hrun]
        trivial
    · obtain ⟨limit, hlimit, -, position, after, hrun⟩ := nested_of_ge
        (begin grammar (expression grammar fuel) level (fuel + 1)) hdepth
      rw [hrun]
      exact .inl ⟨limit, hlimit, rfl⟩

end Parser

end Precedence
