import Precedence.Parser.Expression

/-!
# Parsing ends

Where the nesting is limited and the end of the input extends no expression, no
parse is endless. Each turn of a loop takes a token that is not an end mark, of
which only finitely many are left, and each nested expression comes closer to the
limit. The main statement is `Parser.settles_parseExpr`, which also says that a
parse leaves the depth as it was.
-/

namespace Precedence.Parser

/-- A bound on the tokens to come that are not end marks. -/
def live (parser : Parser) : Nat :=
  parser.ahead.countP (fun token => token.kind ≠ .endOfInput) + parser.supply.size

/-- Taking a token does not add to those to come. -/
theorem live_next_le (parser : Parser) : parser.next.2.live ≤ parser.live := by
  obtain ⟨supply, ahead, depth⟩ := parser
  cases ahead with
  | nil =>
    have h := supply.size_next_le
    simpa [next, live] using h
  | cons token ahead =>
    simp only [next, live, List.countP_cons]
    omega

/-- Taking a token other than an end mark leaves fewer to come. -/
theorem live_next_lt {parser : Parser} (h : parser.next.1.kind ≠ .endOfInput) :
    parser.next.2.live < parser.live := by
  obtain ⟨supply, ahead, depth⟩ := parser
  cases ahead with
  | nil =>
    have hlt := Supply.size_next_lt h
    simpa [next, live] using hlt
  | cons token ahead =>
    have htoken : token.kind ≠ .endOfInput := h
    simp only [next, live, List.countP_cons, htoken, ne_eq, not_false_eq_true, decide_true,
      if_true]
    omega

/-- Taking a token does not change the depth. -/
@[simp] theorem depth_next (parser : Parser) : parser.next.2.depth = parser.depth := by
  unfold next
  split <;> rfl

/-- Looking at the next token leaves the same tokens to come. -/
theorem live_unread_next (parser : Parser) :
    (parser.next.2.unread parser.next.1).live ≤ parser.live := by
  by_cases h : parser.next.1.kind = .endOfInput
  · have hle := parser.live_next_le
    simpa [unread, live, List.countP_cons, h] using hle
  · have hlt := live_next_lt h
    simp only [unread, live, List.countP_cons, h, ne_eq, not_false_eq_true, decide_true,
      if_true] at hlt ⊢
    omega

/-- An action settles from a parser if it ends there, with no more tokens to come
than before and at the same depth. -/
def Settles {α : Type} (action : ParseM α) (parser : Parser) : Prop :=
  match action.run parser with
  | .ok _ after => after.live ≤ parser.live ∧ after.depth = parser.depth
  | .stop (.fault _) after => after.live ≤ parser.live ∧ after.depth = parser.depth
  | .stop .endless _ => False

/-- Giving a value settles. -/
theorem settles_pure {α : Type} (value : α) (parser : Parser) :
    Settles (pure value : ParseM α) parser :=
  ⟨Nat.le_refl _, rfl⟩

/-- Stopping with a fault settles. -/
theorem settles_fault {α : Type} (fault : Fault) (parser : Parser) :
    Settles (.stop (.fault fault) : ParseM α) parser :=
  ⟨Nat.le_refl _, rfl⟩

/-- What an action that settles has left behind when it gave a value. -/
theorem Settles.of_ok {α : Type} {action : ParseM α} {parser after : Parser} {value : α}
    (h : Settles action parser) (hok : action.run parser = .ok value after) :
    after.live ≤ parser.live ∧ after.depth = parser.depth := by
  simpa [Settles, hok] using h

/-- An action that settles is not endless. -/
theorem Settles.ne_endless {α : Type} {action : ParseM α} {parser : Parser}
    (h : Settles action parser) (last : Parser) : action.run parser ≠ .stop .endless last := by
  intro hrun
  unfold Settles at h
  rw [hrun] at h
  exact h

/-- One action after another settles if both do. -/
theorem Settles.bind {α β : Type} {first : ParseM α} {second : α → ParseM β} {parser : Parser}
    (hfirst : Settles first parser)
    (hsecond : ∀ value after, first.run parser = .ok value after → Settles (second value) after) :
    Settles (first >>= second) parser := by
  unfold Settles
  cases hrun : first.run parser with
  | ok value after =>
    have hle := hfirst.of_ok hrun
    have hrest := hsecond value after hrun
    simp only [ParseM.run_bind, hrun]
    unfold Settles at hrest
    rcases hresult : (second value).run after with ⟨_, final⟩ | ⟨_ | _, final⟩ <;>
      simp only [hresult] at hrest ⊢
    · exact ⟨by omega, by omega⟩
    · exact ⟨by omega, by omega⟩
  | stop reason after =>
    unfold Settles at hfirst
    simp only [hrun] at hfirst
    simp only [ParseM.run_bind, hrun]
    cases reason <;> exact hfirst

/-- Taking a token settles. -/
theorem settles_consume (parser : Parser) : Settles consume parser :=
  ⟨parser.live_next_le, parser.depth_next⟩

/-- Looking at the next token settles. -/
theorem settles_peek (parser : Parser) : Settles peek parser :=
  ⟨parser.live_unread_next, parser.depth_next⟩

/-- Asking for a kind of token settles. -/
theorem settles_accept (kind : Kind) (parser : Parser) : Settles (accept kind) parser := by
  refine (settles_peek parser).bind fun token after _ => ?_
  split
  · exact (settles_consume after).bind fun _ final _ => settles_pure true final
  · exact settles_pure false after

/-- Requiring a kind of token settles. -/
theorem settles_expect (kind : Kind) (parser : Parser) : Settles (expect kind) parser := by
  refine (settles_peek parser).bind fun token after _ => ?_
  split
  · exact settles_consume after
  · exact settles_fault _ after

/-- A token that was accepted is gone, and it was not an end mark unless asked for. -/
theorem live_lt_of_accept {kind : Kind} {parser after : Parser} (hkind : kind ≠ .endOfInput)
    (h : (accept kind).run parser = .ok true after) : after.live < parser.live := by
  rw [run_accept] at h
  split at h
  next hnext =>
    cases h
    exact live_next_lt (hnext ▸ hkind)
  next => cases h

/-- Operands settle at a depth as long as at most `bound` tokens are to come. -/
def OperandsSettle (operand : Operand) (depth bound : Nat) : Prop :=
  ∀ level parser, parser.depth = depth → parser.live ≤ bound → Settles (operand level) parser

/-- A prefix rule settles if its operands do. -/
theorem settles_prefixRule {operand : Operand} {depth bound : Nat}
    (hoperand : OperandsSettle operand depth bound) (token : Token) (rule : PrefixRule)
    {parser : Parser} (hdepth : parser.depth = depth) (hlive : parser.live ≤ bound) :
    Settles (rule.parse operand token) parser := by
  cases rule with
  | name => exact settles_pure _ parser
  | group =>
    exact (hoperand _ parser hdepth hlive).bind fun expr after _ =>
      (settles_expect _ after).bind fun _ final _ => settles_pure expr final
  | operator power =>
    exact (hoperand _ parser hdepth hlive).bind fun _ after _ => settles_pure _ after

/-- Arguments settle if each of them does and there is fuel for every token. -/
theorem settles_separated {operand : Operand} {depth bound : Nat}
    (hoperand : OperandsSettle operand depth bound) (fuel : Nat) {parser : Parser}
    (hdepth : parser.depth = depth) (hlive : parser.live ≤ bound) (hfuel : parser.live < fuel) :
    Settles (operand.separated fuel) parser := by
  induction fuel generalizing parser with
  | zero => omega
  | succ fuel ih =>
    refine (hoperand _ parser hdepth hlive).bind fun first after hfirst => ?_
    have hafter := (hoperand _ parser hdepth hlive).of_ok hfirst
    refine (settles_accept .comma after).bind fun more final hmore => ?_
    have hfinal := (settles_accept .comma after).of_ok hmore
    cases more with
    | false => exact settles_pure _ final
    | true =>
      have hlt := live_lt_of_accept (by decide) hmore
      exact (ih (by omega) (by omega) (by omega)).bind fun _ last _ => settles_pure _ last

/-- The arguments of a call settle if each of them does. -/
theorem settles_arguments {operand : Operand} {depth bound : Nat}
    (hoperand : OperandsSettle operand depth bound) {fuel : Nat} {parser : Parser}
    (hdepth : parser.depth = depth) (hlive : parser.live ≤ bound) (hfuel : parser.live < fuel) :
    Settles (operand.arguments fuel) parser := by
  refine (settles_accept .closeParen parser).bind fun closed after hclosed => ?_
  have hafter := (settles_accept .closeParen parser).of_ok hclosed
  split
  · exact settles_pure _ after
  · exact (settles_separated hoperand fuel (by omega) (by omega) (by omega)).bind
      fun exprs final _ => (settles_expect _ final).bind fun _ last _ => settles_pure exprs last

/-- An infix rule settles if its operands do. -/
theorem settles_infixRule {operand : Operand} {depth bound : Nat}
    (hoperand : OperandsSettle operand depth bound) {fuel : Nat} (left : Expr) (token : Token)
    (rule : InfixRule) {parser : Parser} (hdepth : parser.depth = depth)
    (hlive : parser.live ≤ bound) (hfuel : parser.live < fuel) :
    Settles (rule.parse operand fuel left token) parser := by
  cases rule with
  | postfixed power => exact settles_pure _ parser
  | binary power associativity =>
    exact (hoperand _ parser hdepth hlive).bind fun _ after _ => settles_pure _ after
  | conditional =>
    refine (hoperand _ parser hdepth hlive).bind fun yes after hyes => ?_
    have hafter := (hoperand _ parser hdepth hlive).of_ok hyes
    refine (settles_expect _ after).bind fun _ final hcolon => ?_
    have hfinal := (settles_expect _ after).of_ok hcolon
    exact (hoperand _ final (by omega) (by omega)).bind fun _ last _ => settles_pure _ last
  | call =>
    exact (settles_arguments hoperand hdepth hlive hfuel).bind fun _ after _ =>
      settles_pure _ after
  | assign =>
    refine (hoperand _ parser hdepth hlive).bind fun value after _ => ?_
    split
    · exact settles_pure _ after
    · exact settles_fault _ after

/-- Extending an expression settles if the operands do and no end mark extends it. -/
theorem settles_extend {grammar : Grammar} {operand : Operand} {depth bound : Nat}
    (hend : grammar.infixRule .endOfInput = none)
    (hoperand : OperandsSettle operand depth bound) (level fuel : Nat) (left : Expr)
    {parser : Parser} (hdepth : parser.depth = depth) (hlive : parser.live ≤ bound)
    (hfuel : parser.live < fuel) :
    Settles (extend grammar operand level fuel left) parser := by
  induction fuel generalizing parser left with
  | zero => omega
  | succ fuel ih =>
    refine (settles_peek parser).bind fun token after hpeek => ?_
    have hafter := (settles_peek parser).of_ok hpeek
    split
    next => exact settles_pure left after
    next rule hrule =>
      split
      · exact settles_pure left after
      · refine (settles_consume after).bind fun taken final htaken => ?_
        have hfinal : final.live < parser.live ∧ final.depth = parser.depth := by
          cases hpeek
          cases htaken
          change parser.next.2.live < parser.live ∧ parser.next.2.depth = parser.depth
          refine ⟨live_next_lt fun hkind => ?_, parser.depth_next⟩
          change grammar.infixRule parser.next.1.kind = some rule at hrule
          simp [hkind, hend] at hrule
        have hlonger : Settles (rule.parse operand fuel left taken) final :=
          settles_infixRule hoperand left taken rule (by omega) (by omega) (by omega)
        refine hlonger.bind fun longer last hlast => ?_
        have hbound := hlonger.of_ok hlast
        exact ih longer (by omega) (by omega) (by omega)

/-- An action one expression deeper settles if the action does at that depth. -/
theorem settles_deeper {α : Type} {action : ParseM α} {parser : Parser}
    (h : Settles action { parser with depth := parser.depth + 1 }) :
    Settles (deeper action) parser := by
  unfold Settles at h ⊢
  unfold deeper
  rcases hrun : action.run { parser with depth := parser.depth + 1 } with
    ⟨_, after⟩ | ⟨_ | _, after⟩ <;> simp only [hrun] at h ⊢
  · exact ⟨h.1, by simp [h.2]⟩
  · exact ⟨h.1, by simp [h.2]⟩

/-- An action one expression deeper settles if the action does below the limit. -/
theorem settles_nested {α : Type} {limit : Nat} {action : ParseM α} {parser : Parser}
    (h : parser.depth < limit → Settles action { parser with depth := parser.depth + 1 }) :
    Settles (nested (some limit) action) parser := by
  by_cases hdepth : limit ≤ parser.depth
  · have hcheck : Settles (checkDepth (some limit)) parser := by
      simp only [Settles, checkDepth, hdepth, if_true]
      exact ⟨parser.live_unread_next, parser.depth_next⟩
    refine hcheck.bind fun _ after hok => ?_
    simp [checkDepth, hdepth] at hok
  · have hcheck : (checkDepth (some limit)).run parser = .ok () parser := by
      simp [checkDepth, hdepth]
    have hdeeper := settles_deeper (h (by omega))
    simpa only [Settles, nested, ParseM.run_bind, hcheck] using hdeeper

/-- An expression settles with fuel for every token to come and every level of
nesting that is left. -/
theorem settles_expression {grammar : Grammar} {limit : Nat}
    (hlimit : grammar.depthLimit = some limit) (hend : grammar.infixRule .endOfInput = none)
    (fuel level : Nat) {parser : Parser}
    (hfuel : parser.live + (limit - parser.depth) < fuel) :
    Settles (expression grammar fuel level) parser := by
  induction fuel generalizing level parser with
  | zero => omega
  | succ fuel ih =>
    unfold expression
    rw [hlimit]
    refine settles_nested fun hdepth => ?_
    have hoperand : OperandsSettle (expression grammar fuel) (parser.depth + 1) parser.live := by
      intro inner after hafter hlive
      exact ih inner (by omega)
    refine (settles_consume _).bind fun token after htoken => ?_
    have hafter := (settles_consume _).of_ok htoken
    change after.live ≤ parser.live ∧ after.depth = parser.depth + 1 at hafter
    split
    next => exact settles_fault _ after
    next rule hrule =>
      have hleft := settles_prefixRule hoperand token rule hafter.2 hafter.1
      refine hleft.bind fun left final hfinal => ?_
      have hbound := hleft.of_ok hfinal
      exact settles_extend hend hoperand level (fuel + 1) left (by omega) (by omega) (by omega)

/-- There are at most as many tokens to come as are read ahead or in the supply. -/
theorem live_le (parser : Parser) : parser.live ≤ parser.ahead.length + parser.supply.size :=
  Nat.add_le_add_right List.countP_le_length _

/-- Where the nesting is limited and no end mark extends an expression, every
parse settles. -/
theorem settles_parseExpr {grammar : Grammar} {limit : Nat}
    (hlimit : grammar.depthLimit = some limit) (hend : grammar.infixRule .endOfInput = none)
    (level : Nat) (parser : Parser) : Settles (parseExpr grammar level) parser := by
  have hlive := parser.live_le
  have hfuel : parser.live + (limit - parser.depth) < parser.fuel grammar := by
    simp only [fuel, hlimit, Option.map_some, Option.getD_some]
    omega
  have h := settles_expression hlimit hend _ level hfuel
  unfold Settles at h ⊢
  rw [run_parseExpr]
  exact h

/-- A parse of the whole input settles. -/
theorem settles_parseAll {grammar : Grammar} {limit : Nat}
    (hlimit : grammar.depthLimit = some limit) (hend : grammar.infixRule .endOfInput = none)
    (parser : Parser) : Settles (parseAll grammar) parser :=
  (settles_parseExpr hlimit hend _ parser).bind fun expr after _ =>
    (settles_expect _ after).bind fun _ final _ => settles_pure expr final

end Precedence.Parser
