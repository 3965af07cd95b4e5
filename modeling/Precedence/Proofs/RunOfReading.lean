import Precedence.Proofs.Pending
import Precedence.Proofs.Reading

/-!
# A parser does what is read

Where `Reads` gives a result, a parser gives the same result on every supply that
starts with the tokens in question, provided that its limit on nesting allows the
height. Otherwise it stops because the expression is nested too deep. The main
statement is `Reads.performed`.
-/

namespace Precedence

/-- What is still to come after a fault. Only a token that starts no expression is gone. -/
def Cause.remainder (following : Token) (rest : Stream' Token) : Cause → Stream' Token
  | noPrefixRule _ => rest
  | _ => Stream'.cons following rest

namespace Parsed

variable {α β : Type}

/-- A run that ends with a result, at a depth and with certain tokens to come. -/
def Gives (following : Token) (rest : Stream' Token) (depth : Nat) (parsed : Parsed α) :
    Except Fault α → Prop
  | .ok value => ∃ after, parsed = .ok value after ∧
      after.pending = Stream'.cons following rest ∧ after.depth = depth
  | .error fault => ∃ after, parsed = .stop (.fault fault) after ∧
      after.pending = fault.cause.remainder following rest ∧ after.depth = depth

/-- A run that stops because expressions are nested beyond a limit. -/
def TooDeep (limit : Nat) (parsed : Parsed α) : Prop :=
  ∃ position after, parsed = .stop (.fault ⟨.nestingTooDeep limit, position⟩) after

/-- A run that does what is asked of it if the limit allows expressions nested `height`
deep, and is too deep otherwise. -/
def Meets (limit? : Option Nat) (depth height : Nat) (asked : Parsed α → Prop)
    (parsed : Parsed α) : Prop :=
  ((∀ limit ∈ limit?, depth + height ≤ limit) → asked parsed) ∧
    ∀ limit ∈ limit?, limit < depth + height → parsed.TooDeep limit

/-- Without nested expressions no limit is exceeded. -/
theorem Meets.of_asked {limit? : Option Nat} {depth : Nat} {asked : Parsed α → Prop}
    {parsed : Parsed α} (hdepth : ∀ limit ∈ limit?, depth ≤ limit) (h : asked parsed) :
    parsed.Meets limit? depth 0 asked := by
  refine ⟨fun _ => h, fun limit hlimit hlt => ?_⟩
  have hle := hdepth limit hlimit
  omega

/-- A run that does one thing does what follows from it. -/
theorem Meets.imp {limit? : Option Nat} {depth height : Nat} {asked other : Parsed α → Prop}
    {parsed : Parsed α} (h : parsed.Meets limit? depth height asked)
    (himp : asked parsed → other parsed) : parsed.Meets limit? depth height other :=
  ⟨fun hfits => himp (h.1 hfits), h.2⟩

/-- A run that is too deep stays so, whatever was to be done afterwards. -/
theorem TooDeep.bind {first : ParseM α} {second : α → ParseM β} {parser : Parser} {limit : Nat}
    (h : (first.run parser).TooDeep limit) : ((first >>= second).run parser).TooDeep limit := by
  obtain ⟨position, after, hrun⟩ := h
  exact ⟨position, after, by rw [ParseM.run_bind, hrun]⟩

/-- One action after another, where only the first may nest expressions. -/
theorem Meets.andThen {limit? : Option Nat} {height : Nat} {first : ParseM α}
    {second : α → ParseM β} {parser : Parser} {value : α} {following : Token}
    {rest : Stream' Token} {asked : Parsed β → Prop}
    (hfirst : (first.run parser).Meets limit? parser.depth height
      (Gives following rest parser.depth · (.ok value)))
    (hsecond : ∀ after : Parser, after.pending = Stream'.cons following rest →
      after.depth = parser.depth → asked ((second value).run after)) :
    ((first >>= second).run parser).Meets limit? parser.depth height asked := by
  refine ⟨fun hfits => ?_, fun limit hlimit hlt => (hfirst.2 limit hlimit hlt).bind⟩
  obtain ⟨after, hrun, hpending, hdepth⟩ := hfirst.1 hfits
  rw [ParseM.run_bind, hrun]
  exact hsecond after hpending hdepth

/-- A run that goes on as another does may nest expressions in both parts. -/
theorem Meets.trans {limit? : Option Nat} {depth height more : Nat} {asked other : Parsed α → Prop}
    {parsed : Parsed α} (h : parsed.Meets limit? depth height asked)
    (hmore : asked parsed → parsed.Meets limit? depth more other) :
    parsed.Meets limit? depth (max height more) other := by
  by_cases hfits : ∀ limit ∈ limit?, depth + height ≤ limit
  · have hmeets := hmore (h.1 hfits)
    refine ⟨fun hmax => hmeets.1 fun limit hlimit => ?_, fun limit hlimit hlt => ?_⟩
    · have hle := hmax limit hlimit
      omega
    · have hle := hfits limit hlimit
      exact hmeets.2 limit hlimit (by omega)
  · refine ⟨fun hmax => absurd (fun limit hlimit => ?_) hfits, fun limit hlimit hlt => ?_⟩
    · have hle := hmax limit hlimit
      omega
    · -- The first part already exceeds the only limit there is.
      obtain ⟨exceeded, hexceeded, hgt⟩ : ∃ exceeded ∈ limit?, exceeded < depth + height := by
        simpa using hfits
      obtain rfl : exceeded = limit := Option.mem_unique hexceeded hlimit
      exact h.2 exceeded hlimit hgt

/-- One action after another, where both may nest expressions. -/
theorem Meets.bind {limit? : Option Nat} {height more : Nat} {first : ParseM α}
    {second : α → ParseM β} {parser : Parser} {value : α} {following : Token}
    {rest : Stream' Token} {asked : Parsed β → Prop}
    (hfirst : (first.run parser).Meets limit? parser.depth height
      (Gives following rest parser.depth · (.ok value)))
    (hsecond : ∀ after : Parser, after.pending = Stream'.cons following rest →
      after.depth = parser.depth →
      ((second value).run after).Meets limit? parser.depth more asked) :
    ((first >>= second).run parser).Meets limit? parser.depth (max height more) asked := by
  have hreached : ((first >>= second).run parser).Meets limit? parser.depth height fun parsed =>
      ∃ after : Parser, parsed = (second value).run after ∧
        after.pending = Stream'.cons following rest ∧ after.depth = parser.depth :=
    hfirst.andThen fun after hpending hdepth => ⟨after, rfl, hpending, hdepth⟩
  apply hreached.trans
  rintro ⟨after, hrun, hpending, hdepth⟩
  rw [hrun]
  exact hsecond after hpending hdepth

/-- A fault of the first action is a fault of both. -/
theorem Meets.bind_error {limit? : Option Nat} {height : Nat} {first : ParseM α}
    {second : α → ParseM β} {parser : Parser} {fault : Fault} {following : Token}
    {rest : Stream' Token}
    (hfirst : (first.run parser).Meets limit? parser.depth height
      (Gives following rest parser.depth · (.error fault))) :
    ((first >>= second).run parser).Meets limit? parser.depth height
      (Gives following rest parser.depth · (.error fault)) := by
  refine ⟨fun hfits => ?_, fun limit hlimit hlt => (hfirst.2 limit hlimit hlt).bind⟩
  obtain ⟨after, hrun, hafter⟩ := hfirst.1 hfits
  exact ⟨after, by rw [ParseM.run_bind, hrun], hafter⟩

/-- A function of the value changes the result in the same way. -/
theorem Meets.map {limit? : Option Nat} {height : Nat} {action : ParseM α} {f : α → β}
    {parser : Parser} {result : Except Fault α} {following : Token} {rest : Stream' Token}
    (h : (action.run parser).Meets limit? parser.depth height
      (Gives following rest parser.depth · result)) :
    ((action >>= fun value => pure (f value)).run parser).Meets limit? parser.depth height
      (Gives following rest parser.depth · (result.map f)) := by
  cases result with
  | ok value => exact h.andThen fun after hpending hdepth => ⟨after, rfl, hpending, hdepth⟩
  | error fault => exact h.bind_error

end Parsed

namespace Parser

variable {grammar : Grammar} {operand : Operand} {parser : Parser} {following token : Token}
  {rest : Stream' Token}

/-- A token of the needed kind is taken. -/
theorem expect_of_kind {kind : Kind} (hpending : parser.pending = Stream'.cons token rest)
    (hkind : token.kind = kind) :
    ∃ after, (expect kind).run parser = .ok token after ∧ after.pending = rest ∧
      after.depth = parser.depth := by
  obtain ⟨hnext, hrest⟩ := next_of_pending hpending
  refine ⟨parser.next.2, ?_, hrest, parser.depth_next⟩
  rw [run_expect, hnext, if_pos hkind]

/-- A token of another kind is a fault, and is not taken. -/
theorem expect_of_ne {kind : Kind} (hpending : parser.pending = Stream'.cons token rest)
    (hkind : token.kind ≠ kind) :
    ((expect kind).run parser).Gives token rest parser.depth (.error (token.unexpected kind)) := by
  obtain ⟨hnext, hrest⟩ := next_of_pending hpending
  refine ⟨parser.next.2.unread parser.next.1, ?_, ?_, ?_⟩
  · rw [run_expect, hnext, if_neg hkind]
    rfl
  · rw [pending_unread_next, hpending]
    rfl
  · rw [depth_unread, depth_next]

/-- A token of the kind asked for is accepted. -/
theorem accept_of_kind {kind : Kind} (hpending : parser.pending = Stream'.cons token rest)
    (hkind : token.kind = kind) :
    ∃ after, (accept kind).run parser = .ok true after ∧ after.pending = rest ∧
      after.depth = parser.depth := by
  obtain ⟨hnext, hrest⟩ := next_of_pending hpending
  refine ⟨parser.next.2, ?_, hrest, parser.depth_next⟩
  rw [run_accept, hnext, if_pos hkind]

/-- A token of another kind is not accepted, and stays. -/
theorem accept_of_ne {kind : Kind} (hpending : parser.pending = Stream'.cons token rest)
    (hkind : token.kind ≠ kind) :
    ∃ after, (accept kind).run parser = .ok false after ∧
      after.pending = Stream'.cons token rest ∧ after.depth = parser.depth := by
  obtain ⟨hnext, hrest⟩ := next_of_pending hpending
  refine ⟨parser.next.2.unread parser.next.1, ?_, ?_, ?_⟩
  · rw [run_accept, hnext, if_neg hkind]
  · rw [pending_unread_next, hpending]
  · rw [depth_unread, depth_next]

/-- A call that is not closed at once goes on with its arguments. -/
theorem arguments_of_ne (operand : Operand) (turns : Nat) (callee : Expr)
    (h : parser.next.1.kind ≠ .closeParen) :
    (do let exprs ← operand.arguments turns
        return .call callee exprs : ParseM Expr).run parser =
      (do let exprs ← operand.separated turns
          let _ ← expect .closeParen
          return .call callee ([] ++ exprs) : ParseM Expr).run
        (parser.next.2.unread parser.next.1) := by
  have hrun : (accept .closeParen).run parser =
      .ok false (parser.next.2.unread parser.next.1) := by
    rw [run_accept, if_neg h]
  simp only [Operand.arguments, bind_assoc]
  rw [ParseM.run_bind, hrun]
  simp

/-- An expression is not extended by a token that does not bind tighter than its level. -/
theorem extend_of_le (operand : Operand) {level : Nat} (turns : Nat) (left : Expr)
    (hpending : parser.pending = Stream'.cons token rest)
    (hlevel : grammar.level token.kind ≤ level) :
    ((extend grammar operand level (turns + 1) left).run parser).Gives token rest parser.depth
      (.ok left) := by
  obtain ⟨hnext, -⟩ := next_of_pending hpending
  refine ⟨parser.next.2.unread parser.next.1, ?_, ?_, ?_⟩
  · rw [extend, ParseM.run_bind, run_peek, hnext]
    cases hrule : grammar.infixRule token.kind with
    | none => simp [hrule]
    | some rule =>
      rw [Grammar.level_of_infixRule hrule] at hlevel
      simp [hrule, hlevel]
  · rw [pending_unread_next, hpending]
  · rw [depth_unread, depth_next]

/-- An expression is extended by the infix rule of a token that binds tighter than its level. -/
theorem extend_of_lt (operand : Operand) {level : Nat} (turns : Nat) (left : Expr)
    {rule : InfixRule} (hpending : parser.pending = Stream'.cons token rest)
    (hrule : grammar.infixRule token.kind = some rule) (hlevel : level < rule.level) :
    ∃ after : Parser, after.pending = rest ∧ after.depth = parser.depth ∧
      (extend grammar operand level (turns + 1) left).run parser =
        (rule.parse operand turns left token >>= extend grammar operand level turns).run after := by
  obtain ⟨hnext, hrest⟩ := next_of_pending hpending
  refine ⟨parser.next.2, hrest, parser.depth_next, ?_⟩
  rw [extend, ParseM.run_bind, run_peek, hnext]
  simp [hrule, Nat.not_le.mpr hlevel]

/-- What an expression does once its depth has been checked. -/
def begin (grammar : Grammar) (operand : Operand) (level turns : Nat) : ParseM Expr := do
  let token ← consume
  match grammar.prefixRule token.kind with
  | none => fail (.noPrefixRule token.value) token.start
  | some rule =>
    let left ← rule.parse operand token
    extend grammar operand level turns left

/-- An expression checks its depth first. -/
theorem expression_succ (grammar : Grammar) (fuel level : Nat) :
    expression grammar (fuel + 1) level =
      nested grammar.depthLimit (begin grammar (expression grammar fuel) level (fuel + 1)) := rfl

/-- A token without a prefix rule is taken and is a fault. -/
theorem begin_of_none (operand : Operand) (level turns : Nat)
    (hpending : parser.pending = Stream'.cons token rest)
    (hrule : grammar.prefixRule token.kind = none) :
    ((begin grammar operand level turns).run parser).Gives token rest parser.depth
      (.error token.noPrefixRule) := by
  obtain ⟨hnext, hrest⟩ := next_of_pending hpending
  refine ⟨parser.next.2, ?_, hrest, parser.depth_next⟩
  rw [begin, ParseM.run_bind, run_consume, hnext]
  simp [hrule, Token.noPrefixRule]

/-- A token with a prefix rule starts an expression by that rule. -/
theorem begin_of_some (operand : Operand) (level turns : Nat) {rule : PrefixRule}
    (hpending : parser.pending = Stream'.cons token rest)
    (hrule : grammar.prefixRule token.kind = some rule) :
    ∃ after : Parser, after.pending = rest ∧ after.depth = parser.depth ∧
      (begin grammar operand level turns).run parser =
        (rule.parse operand token >>= extend grammar operand level turns).run after := by
  obtain ⟨hnext, hrest⟩ := next_of_pending hpending
  refine ⟨parser.next.2, hrest, parser.depth_next, ?_⟩
  rw [begin, ParseM.run_bind, run_consume, hnext]
  simp [hrule]

/-- Below the limit an action runs one expression deeper. -/
theorem nested_of_lt {α : Type} {limit? : Option Nat} (action : ParseM α)
    (h : ∀ limit ∈ limit?, parser.depth + 1 ≤ limit) :
    (nested limit? action).run parser = (deeper action).run parser := by
  have hcheck : (checkDepth limit?).run parser = .ok () parser := by
    cases limit? with
    | none => rfl
    | some limit =>
      have hlt := h limit rfl
      simp [checkDepth, Nat.not_le.mpr hlt]
  rw [nested, ParseM.run_bind, hcheck]

/-- At the limit an action is not run. -/
theorem nested_of_ge {limit? : Option Nat} (action : ParseM Expr)
    (h : ¬∀ limit ∈ limit?, parser.depth + 1 ≤ limit) :
    ∃ limit ∈ limit?, limit ≤ parser.depth ∧
      ((nested limit? action).run parser).TooDeep limit := by
  obtain ⟨limit, hlimit, hlt⟩ : ∃ limit ∈ limit?, limit < parser.depth + 1 := by
    simpa using h
  obtain rfl : limit? = some limit := hlimit
  have hle : limit ≤ parser.depth := by omega
  exact ⟨limit, rfl, hle, parser.next.1.start, (parser.reach 0).2,
    by simp [nested, checkDepth, hle]⟩

/-- An action one expression deeper gives what it gives, or is too deep if the limit is
reached. -/
theorem nested_meets {limit? : Option Nat} {action : ParseM Expr} {height : Nat}
    {result : Except Fault Expr}
    (haction : ∀ inner : Parser, inner.pending = parser.pending →
      inner.depth = parser.depth + 1 → (∀ limit ∈ limit?, inner.depth ≤ limit) →
      (action.run inner).Meets limit? inner.depth height
        (Parsed.Gives following rest inner.depth · result)) :
    ((nested limit? action).run parser).Meets limit? parser.depth (height + 1)
      (Parsed.Gives following rest parser.depth · result) := by
  by_cases hdepth : ∀ limit ∈ limit?, parser.depth + 1 ≤ limit
  · have hmeets := haction { parser with depth := parser.depth + 1 } rfl rfl hdepth
    rw [nested_of_lt action hdepth]
    refine ⟨fun hfits => ?_, fun limit hlimit hlt => ?_⟩
    · have hgives := hmeets.1 fun limit hlimit => by
        have hle := hfits limit hlimit
        change parser.depth + 1 + height ≤ limit
        omega
      cases result with
      | ok value =>
        obtain ⟨after, hrun, hpending, hafter⟩ := hgives
        exact ⟨{ after with depth := after.depth - 1 }, by simp [deeper, hrun], hpending,
          by simp [hafter]⟩
      | error fault =>
        obtain ⟨after, hrun, hpending, hafter⟩ := hgives
        exact ⟨{ after with depth := after.depth - 1 }, by simp [deeper, hrun], hpending,
          by simp [hafter]⟩
    · obtain ⟨position, after, hrun⟩ := hmeets.2 limit hlimit (by
        change limit < parser.depth + 1 + height
        omega)
      exact ⟨position, { after with depth := after.depth - 1 }, by simp [deeper, hrun]⟩
  · obtain ⟨limit, hlimit, hle, hdeep⟩ := nested_of_ge action hdepth
    refine ⟨fun hfits => ?_, fun other hother _ => ?_⟩
    · have hfits' := hfits limit hlimit
      omega
    · obtain rfl : limit = other := Option.mem_unique hlimit hother
      exact hdeep

end Parser

/-- An action that gives a result wherever certain tokens are to come, if the limit allows
expressions nested `height` deep, and is too deep otherwise. -/
def ParseM.Performs (action : ParseM Expr) (limit? : Option Nat) (read : List Token)
    (following : Token) (result : Except Fault Expr) (height : Nat) : Prop :=
  ∀ (parser : Parser) (rest : Stream' Token),
    parser.pending = read ++ₛ Stream'.cons following rest →
    (∀ limit ∈ limit?, parser.depth ≤ limit) →
    (action.run parser).Meets limit? parser.depth height
      (Parsed.Gives following rest parser.depth · result)

/-- An expression that has been extended as far as `left`, with turns of the loop to spare
for every token that has not been read. -/
def Parser.Reaches (grammar : Grammar) (level fuel : Nat) (read : List Token) (following : Token)
    (left : Expr) (height : Nat) : Prop :=
  ∀ (parser : Parser) (rest : Stream' Token),
    parser.pending = read ++ₛ Stream'.cons following rest →
    (∀ limit ∈ grammar.depthLimit, parser.depth ≤ limit) →
    ((begin grammar (expression grammar fuel) level (fuel + 1)).run parser).Meets
      grammar.depthLimit parser.depth height fun parsed =>
        ∃ (turns : Nat) (after : Parser), fuel + 1 ≤ turns + read.length ∧
          parsed = (extend grammar (expression grammar fuel) level turns left).run after ∧
          after.pending = Stream'.cons following rest ∧ after.depth = parser.depth

/-- What a parser with enough fuel does on a task. -/
def Task.Performed (grammar : Grammar) (read : List Token) (following : Token)
    (result : Except Fault Expr) (height : Nat) : Task → Prop
  | expression level => ∀ fuel, read.length < fuel →
      (Parser.expression grammar fuel level).Performs grammar.depthLimit read following result
        height
  | beginning level => ∀ fuel, read.length ≤ fuel →
      match result with
      | .ok left => Parser.Reaches grammar level fuel read following left height
      | .error fault =>
        (Parser.begin grammar (Parser.expression grammar fuel) level (fuel + 1)).Performs
          grammar.depthLimit read following (.error fault) height
  | starting rule token => ∀ fuel, read.length < fuel →
      (rule.parse (Parser.expression grammar fuel) token).Performs grammar.depthLimit read
        following result height
  | extending rule left token => ∀ fuel turns, read.length < fuel → read.length < turns →
      (rule.parse (Parser.expression grammar fuel) turns left token).Performs grammar.depthLimit
        read following result height
  | arguments callee => ∀ fuel turns, read.length < fuel → read.length < turns →
      (do let exprs ← (Parser.expression grammar fuel).arguments turns
          return .call callee exprs : ParseM Expr).Performs grammar.depthLimit read following
        result height
  | separated callee before => ∀ fuel turns, read.length < fuel → read.length < turns →
      (do let exprs ← (Parser.expression grammar fuel).separated turns
          let _ ← Parser.expect .closeParen
          return .call callee (before ++ exprs) : ParseM Expr).Performs grammar.depthLimit read
        following result height

namespace Reads

variable {grammar : Grammar} {read : List Token} {following : Token}
  {result : Except Fault Expr} {height : Nat}

/-- A run that has reached the end of its expression gives it. -/
theorem performed_finish {level : Nat} {expr : Expr}
    (ih : Task.Performed grammar read following (.ok expr) height (.beginning level))
    (hlevel : grammar.level following.kind ≤ level) :
    Task.Performed grammar read following (.ok expr) (height + 1) (.expression level) := by
  intro fuel hfuel parser rest hpending hdepth
  obtain ⟨fuel, rfl⟩ : ∃ less, fuel = less + 1 := ⟨fuel - 1, by omega⟩
  rw [Parser.expression_succ]
  refine Parser.nested_meets fun inner hinner _ hlimit => ?_
  apply (ih fuel (by omega) inner rest (by rw [hinner, hpending]) hlimit).imp
  rintro ⟨turns, after, hturns, hrun, hafter, hdepth⟩
  obtain ⟨turns, rfl⟩ : ∃ less, turns = less + 1 := ⟨turns - 1, by omega⟩
  rw [hrun, ← hdepth]
  exact Parser.extend_of_le _ turns expr hafter hlevel

/-- A fault in the beginning of an expression is a fault of the expression. -/
theorem performed_finish_fault {level : Nat} {fault : Fault}
    (ih : Task.Performed grammar read following (.error fault) height (.beginning level)) :
    Task.Performed grammar read following (.error fault) (height + 1) (.expression level) := by
  intro fuel hfuel parser rest hpending hdepth
  obtain ⟨fuel, rfl⟩ : ∃ less, fuel = less + 1 := ⟨fuel - 1, by omega⟩
  rw [Parser.expression_succ]
  refine Parser.nested_meets fun inner hinner _ hlimit => ?_
  exact ih fuel (by omega) inner rest (by rw [hinner, hpending]) hlimit

/-- The first token of an expression is taken, and its rule goes on. -/
theorem performed_start {level : Nat} {token : Token} {rule : PrefixRule}
    (hrule : grammar.prefixRule token.kind = some rule)
    (ih : Task.Performed grammar read following result height (.starting rule token)) :
    Task.Performed grammar (token :: read) following result height (.beginning level) := by
  intro fuel hfuel
  rw [List.length_cons] at hfuel
  cases result with
  | ok left =>
    intro parser rest hpending hdepth
    obtain ⟨after, hafter, hkeep, hrun⟩ := Parser.begin_of_some
      (Parser.expression grammar fuel) level (fuel + 1) hpending hrule
    have hmeets := ih fuel (by omega) after rest hafter (by rwa [hkeep])
    rw [hrun, ← hkeep]
    refine hmeets.andThen fun final hfinal hsame => ?_
    exact ⟨fuel + 1, final, by omega, rfl, hfinal, hsame⟩
  | error fault =>
    intro parser rest hpending hdepth
    obtain ⟨after, hafter, hkeep, hrun⟩ := Parser.begin_of_some
      (Parser.expression grammar fuel) level (fuel + 1) hpending hrule
    have hmeets := ih fuel (by omega) after rest hafter (by rwa [hkeep])
    rw [hrun, ← hkeep]
    exact hmeets.bind_error

/-- A token that binds tighter is taken, and its rule goes on. -/
theorem performed_extend {level more : Nat} {before : List Token} {token : Token} {left : Expr}
    {rule : InfixRule}
    (ihbefore : Task.Performed grammar before token (.ok left) height (.beginning level))
    (hrule : grammar.infixRule token.kind = some rule) (hlevel : level < rule.level)
    (ih : Task.Performed grammar read following result more (.extending rule left token)) :
    Task.Performed grammar (before ++ token :: read) following result (max height more)
      (.beginning level) := by
  intro fuel hfuel
  rw [List.length_append, List.length_cons] at hfuel
  -- One more turn of the loop takes the token and leaves a turn for each token after it.
  have hturn : ∀ (parser : Parser) (rest : Stream' Token),
      parser.pending = (before ++ token :: read) ++ₛ Stream'.cons following rest →
      (∀ limit ∈ grammar.depthLimit, parser.depth ≤ limit) →
      ((Parser.begin grammar (Parser.expression grammar fuel) level (fuel + 1)).run parser).Meets
        grammar.depthLimit parser.depth height fun parsed =>
          ∃ (turns : Nat) (after : Parser), fuel ≤ turns + before.length ∧
            parsed = (rule.parse (Parser.expression grammar fuel) turns left token >>=
              Parser.extend grammar (Parser.expression grammar fuel) level turns).run after ∧
            after.pending = read ++ₛ Stream'.cons following rest ∧ after.depth = parser.depth := by
    intro parser rest hpending hdepth
    rw [Stream'.append_append_stream, Stream'.cons_append_stream] at hpending
    apply (ihbefore fuel (by omega) parser _ hpending hdepth).imp
    rintro ⟨turns, after, hturns, hrun, hafter, hkeep⟩
    obtain ⟨turns, rfl⟩ : ∃ less, turns = less + 1 := ⟨turns - 1, by omega⟩
    obtain ⟨final, hfinal, hsame, hstep⟩ := Parser.extend_of_lt
      (Parser.expression grammar fuel) turns left hafter hrule hlevel
    exact ⟨turns, final, by omega, by rw [hrun, hstep], hfinal, by rw [hsame, hkeep]⟩
  cases result with
  | ok longer =>
    intro parser rest hpending hdepth
    apply (hturn parser rest hpending hdepth).trans
    rintro ⟨turns, after, hturns, hrun, hafter, hkeep⟩
    have hmeets := ih fuel turns (by omega) (by omega) after rest hafter (by rwa [hkeep])
    rw [hrun, ← hkeep]
    refine hmeets.andThen fun final hfinal hsame => ⟨turns, final, ?_, rfl, hfinal, hsame⟩
    rw [List.length_append, List.length_cons]
    omega
  | error fault =>
    intro parser rest hpending hdepth
    apply (hturn parser rest hpending hdepth).trans
    rintro ⟨turns, after, hturns, hrun, hafter, hkeep⟩
    have hmeets := ih fuel turns (by omega) (by omega) after rest hafter (by rwa [hkeep])
    rw [hrun, ← hkeep]
    exact hmeets.bind_error

/-- An action that needs a kind of token ends with that token. -/
theorem performs_closed {α : Type} {action : ParseM α} {value : α} {kind : Kind}
    {closing : Token} {finish : α → Expr} {parser : Parser} {limit? : Option Nat}
    {rest : Stream' Token}
    (haction : (action.run parser).Meets limit? parser.depth height
      (Parsed.Gives closing (Stream'.cons following rest) parser.depth · (.ok value)))
    (hclosing : closing.kind = kind) :
    ((action >>= fun value => Parser.expect kind >>= fun _ => pure (finish value)).run
        parser).Meets limit? parser.depth height
      (Parsed.Gives following rest parser.depth · (.ok (finish value))) := by
  refine haction.andThen fun after hafter hdepth => ?_
  obtain ⟨final, hrun, hfinal, hkeep⟩ := Parser.expect_of_kind hafter hclosing
  exact ⟨final, by rw [ParseM.run_bind, hrun]; rfl, hfinal, by rw [hkeep, hdepth]⟩

/-- An action that needs a kind of token is at fault if another one follows. -/
theorem performs_open {α : Type} {action : ParseM α} {value : α} {kind : Kind}
    {next : α → ParseM Expr} {parser : Parser} {limit? : Option Nat} {rest : Stream' Token}
    (haction : (action.run parser).Meets limit? parser.depth height
      (Parsed.Gives following rest parser.depth · (.ok value)))
    (hfollowing : following.kind ≠ kind) :
    ((action >>= fun value => Parser.expect kind >>= fun _ => next value).run parser).Meets
      limit? parser.depth height
      (Parsed.Gives following rest parser.depth · (.error (following.unexpected kind))) := by
  refine haction.andThen fun after hafter hdepth => ?_
  obtain ⟨final, hrun, hfinal, hkeep⟩ := Parser.expect_of_ne hafter hfollowing
  exact ⟨final, by rw [ParseM.run_bind, hrun], hfinal, by rw [hkeep, hdepth]⟩

/-- The two arms of a choice are read on either side of the colon. -/
theorem performed_conditional {left yes : Expr} {token colon : Token} {more : Nat}
    {after : List Token}
    (ihyes : Task.Performed grammar read colon (.ok yes) height (.expression Power.lowest.level))
    (hcolon : colon.kind = .colon)
    (ihno : Task.Performed grammar after following result more
      (.expression (Power.conditional.level - 1))) :
    Task.Performed grammar (read ++ colon :: after) following
      (result.map (.conditional left yes)) (max height more)
      (.extending .conditional left token) := by
  intro fuel turns hfuel hturns parser rest hpending hdepth
  rw [List.length_append, List.length_cons] at hfuel
  rw [Stream'.append_append_stream, Stream'.cons_append_stream] at hpending
  refine (ihyes fuel (by omega) parser _ hpending hdepth).bind fun middle hmiddle hkeep => ?_
  obtain ⟨final, hrun, hfinal, hsame⟩ := Parser.expect_of_kind hmiddle hcolon
  have hno := ihno fuel (by omega) final rest hfinal (by rwa [hsame, hkeep])
  rw [ParseM.run_bind, hrun, ← hkeep, ← hsame]
  exact hno.map

/-- The value of an assignment is read before its target is looked at. -/
theorem performed_assign {left : Expr} {token : Token}
    (ih : Task.Performed grammar read following result height
      (.expression (Power.assignment.level - 1))) :
    Task.Performed grammar read following
      (result.bind fun value => left.assignTo value token.start) height
      (.extending .assign left token) := by
  intro fuel turns hfuel hturns parser rest hpending hdepth
  have hvalue := ih fuel hfuel parser rest hpending hdepth
  cases result with
  | error fault => exact hvalue.bind_error
  | ok value =>
    refine hvalue.andThen fun after hafter hkeep => ?_
    simp only [Except.bind, Expr.assignTo]
    cases left.name? with
    | some text => exact ⟨after, rfl, hafter, hkeep⟩
    | none => exact ⟨after, rfl, hafter, hkeep⟩

/-- A call that is closed at once has no arguments. -/
theorem performed_no_arguments {callee : Expr} {closing : Token}
    (hclosing : closing.kind = .closeParen) :
    Task.Performed grammar [closing] following (.ok (.call callee [])) 0 (.arguments callee) := by
  intro fuel turns hfuel hturns parser rest hpending hdepth
  obtain ⟨after, hrun, hafter, hkeep⟩ := Parser.accept_of_kind hpending hclosing
  refine .of_asked hdepth ⟨after, ?_, hafter, hkeep⟩
  simp [Operand.arguments, hrun]

/-- A call that is not closed at once goes on with its first argument. -/
theorem performed_some_arguments {callee : Expr}
    (hfirst : (read.headD following).kind ≠ .closeParen)
    (ih : Task.Performed grammar read following result height (.separated callee [])) :
    Task.Performed grammar read following result height (.arguments callee) := by
  intro fuel turns hfuel hturns parser rest hpending hdepth
  have hclosing : parser.next.1.kind ≠ .closeParen := by
    have heq : parser.next.1 = read.headD following := by
      rw [← Parser.head_pending, hpending]
      cases read <;> rfl
    rwa [heq]
  have hseparated := ih fuel turns hfuel hturns (parser.next.2.unread parser.next.1) rest
    (by rw [Parser.pending_unread_next, hpending])
    (by rwa [Parser.depth_unread, Parser.depth_next])
  rw [Parser.depth_unread, Parser.depth_next] at hseparated
  rwa [Parser.arguments_of_ne (Parser.expression grammar fuel) turns callee hclosing]

/-- The last argument is followed by the closing parenthesis. -/
theorem performed_last {callee expr : Expr} {before : List Expr} {closing : Token}
    (ih : Task.Performed grammar read closing (.ok expr) height (.expression Power.lowest.level))
    (hclosing : closing.kind = .closeParen) :
    Task.Performed grammar (read ++ [closing]) following
      (.ok (.call callee (before ++ [expr]))) height (.separated callee before) := by
  intro fuel turns hfuel hturns parser rest hpending hdepth
  rw [List.length_append] at hfuel
  rw [Stream'.append_append_stream] at hpending
  obtain ⟨turns, rfl⟩ : ∃ less, turns = less + 1 := ⟨turns - 1, by omega⟩
  rw [Operand.separated, bind_assoc]
  refine (ih fuel (by omega) parser _ hpending hdepth).andThen fun middle hmiddle hkeep => ?_
  obtain ⟨after, hcomma, hafter, hsame⟩ :=
    Parser.accept_of_ne hmiddle (show closing.kind ≠ .comma by rw [hclosing]; decide)
  obtain ⟨final, hclose, hfinal, hlast⟩ := Parser.expect_of_kind hafter hclosing
  exact ⟨final, by simp [hcomma, hclose], hfinal, by rw [hlast, hsame, hkeep]⟩

/-- A comma after an argument is followed by the next one. -/
theorem performed_more {callee expr : Expr} {before : List Expr} {comma : Token} {more : Nat}
    {after : List Token}
    (ih : Task.Performed grammar read comma (.ok expr) height (.expression Power.lowest.level))
    (hcomma : comma.kind = .comma)
    (ihrest : Task.Performed grammar after following result more
      (.separated callee (before ++ [expr]))) :
    Task.Performed grammar (read ++ comma :: after) following result (max height more)
      (.separated callee before) := by
  intro fuel turns hfuel hturns parser rest hpending hdepth
  rw [List.length_append, List.length_cons] at hfuel hturns
  rw [Stream'.append_append_stream, Stream'.cons_append_stream] at hpending
  obtain ⟨turns, rfl⟩ : ∃ less, turns = less + 1 := ⟨turns - 1, by omega⟩
  rw [Operand.separated, bind_assoc]
  refine (ih fuel (by omega) parser _ hpending hdepth).bind fun middle hmiddle hkeep => ?_
  obtain ⟨final, hrun, hfinal, hsame⟩ := Parser.accept_of_kind hmiddle hcomma
  have hrest := ihrest fuel turns (by omega) (by omega) final rest hfinal (by rwa [hsame, hkeep])
  rw [← hkeep, ← hsame]
  simpa [hrun, bind_assoc] using hrest

/-- An argument that is not followed by a comma has to be followed by the parenthesis. -/
theorem performed_argument_open {callee expr : Expr} {before : List Expr}
    (ih : Task.Performed grammar read following (.ok expr) height
      (.expression Power.lowest.level))
    (hcomma : following.kind ≠ .comma) (hclosing : following.kind ≠ .closeParen) :
    Task.Performed grammar read following (.error (following.unexpected .closeParen)) height
      (.separated callee before) := by
  intro fuel turns hfuel hturns parser rest hpending hdepth
  obtain ⟨turns, rfl⟩ : ∃ less, turns = less + 1 := ⟨turns - 1, by omega⟩
  rw [Operand.separated, bind_assoc]
  refine (ih fuel (by omega) parser _ hpending hdepth).andThen fun middle hmiddle hkeep => ?_
  obtain ⟨after, hrun, hafter, hsame⟩ := Parser.accept_of_ne hmiddle hcomma
  obtain ⟨final, hfault, hfinal, hlast⟩ := Parser.expect_of_ne hafter hclosing
  exact ⟨final, by simp [hrun, hfault], hfinal, by rw [hlast, hsame, hkeep]⟩

/-- A parser with enough fuel does on every task what is read there. -/
theorem performed {task : Task} (h : Reads grammar task read following result height) :
    Task.Performed grammar read following result height task := by
  induction h with
  | finish _ hlevel ih => exact performed_finish ih hlevel
  | finish_fault _ ih => exact performed_finish_fault ih
  | no_start hrule =>
    intro fuel hfuel parser rest hpending hdepth
    exact .of_asked hdepth (Parser.begin_of_none _ _ _ hpending hrule)
  | start hrule _ ih => exact performed_start hrule ih
  | extend _ hrule hlevel _ ihbefore ih => exact performed_extend ihbefore hrule hlevel ih
  | name =>
    intro fuel hfuel parser rest hpending hdepth
    exact .of_asked hdepth ⟨parser, rfl, hpending, rfl⟩
  | group _ hclosing ih =>
    intro fuel hfuel parser rest hpending hdepth
    rw [List.length_append] at hfuel
    rw [Stream'.append_append_stream] at hpending
    exact performs_closed (ih fuel (by omega) parser _ hpending hdepth) hclosing
  | group_fault _ ih =>
    intro fuel hfuel parser rest hpending hdepth
    exact (ih fuel hfuel parser rest hpending hdepth).bind_error
  | group_open _ hfollowing ih =>
    intro fuel hfuel parser rest hpending hdepth
    exact performs_open (ih fuel hfuel parser rest hpending hdepth) hfollowing
  | operator _ ih =>
    intro fuel hfuel parser rest hpending hdepth
    exact (ih fuel hfuel parser rest hpending hdepth).map
  | postfixed =>
    intro fuel turns hfuel hturns parser rest hpending hdepth
    exact .of_asked hdepth ⟨parser, rfl, hpending, rfl⟩
  | binary _ ih =>
    intro fuel turns hfuel hturns parser rest hpending hdepth
    exact (ih fuel hfuel parser rest hpending hdepth).map
  | conditional _ hcolon _ ihyes ihno => exact performed_conditional ihyes hcolon ihno
  | conditional_fault _ ih =>
    intro fuel turns hfuel hturns parser rest hpending hdepth
    exact (ih fuel hfuel parser rest hpending hdepth).bind_error
  | conditional_open _ hfollowing ih =>
    intro fuel turns hfuel hturns parser rest hpending hdepth
    exact performs_open (ih fuel hfuel parser rest hpending hdepth) hfollowing
  | call _ ih => exact ih
  | assign _ ih => exact performed_assign ih
  | no_arguments hclosing => exact performed_no_arguments hclosing
  | some_arguments hfirst _ ih => exact performed_some_arguments hfirst ih
  | last _ hclosing ih => exact performed_last ih hclosing
  | more _ hcomma _ ih ihrest => exact performed_more ih hcomma ihrest
  | argument_fault _ ih =>
    intro fuel turns hfuel hturns parser rest hpending hdepth
    obtain ⟨turns, rfl⟩ : ∃ less, turns = less + 1 := ⟨turns - 1, by omega⟩
    rw [Operand.separated, bind_assoc]
    exact (ih fuel (by omega) parser rest hpending hdepth).bind_error
  | argument_open _ hcomma hclosing ih => exact performed_argument_open ih hcomma hclosing

end Reads

end Precedence
