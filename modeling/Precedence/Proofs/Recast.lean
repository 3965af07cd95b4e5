import Precedence.Parse
import Precedence.Proofs.Fuel
import Precedence.Proofs.Stratified

/-!
# Other names and other positions

A parser decides by the kinds of its tokens only. Their texts and positions end up in the
expression or in the fault and have no other use. So a parser that reads tokens with other
names at other positions does the same as before, and gives the same expression with the other
names or the same fault at the other position. The statements follow the functions of the
parser; the main one is `parse_recast`.
-/

namespace Precedence

/-- Another name for each name and another position for each position. -/
structure Recast where
  name : String → String
  place : Position → Position

namespace Recast

section Values

variable (recast : Recast)

mutual

/-- An expression with the other names. -/
def expr : Expr → Expr
  | .name text => .name (recast.name text)
  | .assign target value => .assign (recast.name target) (expr value)
  | .conditional test yes no => .conditional (expr test) (expr yes) (expr no)
  | .binary left operator right => .binary (expr left) operator (expr right)
  | .prefixed operator operand => .prefixed operator (expr operand)
  | .postfixed operand operator => .postfixed (expr operand) operator
  | .call callee arguments => .call (expr callee) (exprs arguments)

/-- Expressions with the other names. -/
def exprs : List Expr → List Expr
  | [] => []
  | first :: rest => expr first :: exprs rest

end

/-- A fault at the other position. -/
def fault (fault : Fault) : Fault := { fault with position := recast.place fault.position }

/-- A token at the other positions. An identifier has the other name. -/
def token (token : Token) : Token where
  kind := token.kind
  value := if token.kind = .identifier then recast.name token.value else token.value
  span := ⟨recast.place token.span.start, recast.place token.span.stop⟩

/-- An assignment is made, or refused, as before. -/
theorem assignTo_expr (target value : Expr) (position : Position) :
    (recast.expr target).assignTo (recast.expr value) (recast.place position) =
      ((target.assignTo value position).map recast.expr).mapError recast.fault := by
  cases target <;> rfl

end Values

mutual

/-- With the same names an expression is the same. -/
theorem expr_id (place : Position → Position) : ∀ expr : Expr, (mk id place).expr expr = expr
  | .name _ => rfl
  | .assign _ value => by rw [expr, expr_id place value]; rfl
  | .conditional test yes no => by
    rw [expr, expr_id place test, expr_id place yes, expr_id place no]
  | .binary left _ right => by rw [expr, expr_id place left, expr_id place right]
  | .prefixed _ operand => by rw [expr, expr_id place operand]
  | .postfixed operand _ => by rw [expr, expr_id place operand]
  | .call callee arguments => by rw [expr, expr_id place callee, exprs_id place arguments]

/-- With the same names expressions are the same. -/
theorem exprs_id (place : Position → Position) :
    ∀ exprs : List Expr, (mk id place).exprs exprs = exprs
  | [] => rfl
  | first :: rest => by rw [exprs, expr_id place first, exprs_id place rest]

end

/-- A token that stands in for another one: it has the kind of the other, it starts at the other
position, and its text is the other name if a name starts with it, and the same if nothing
does. -/
structure Tokens (recast : Recast) (grammar : Grammar) (token other : Token) : Prop where
  kind : other.kind = token.kind
  start : other.start = recast.place token.start
  name : grammar.prefixRule token.kind = some .name → other.value = recast.name token.value
  value : grammar.prefixRule token.kind = none → other.value = token.value

/-- A parser that is as deep as another one and has tokens to come that stand in for those of
the other. -/
structure Parsers (recast : Recast) (grammar : Grammar) (parser other : Parser) : Prop where
  pending : ∀ n, recast.Tokens grammar (parser.pending.get n) (other.pending.get n)
  depth : other.depth = parser.depth

variable {recast : Recast} {grammar : Grammar} {parser other : Parser}

namespace Parsers

/-- The next token stands in for the next one of the other parser. -/
theorem token (h : recast.Parsers grammar parser other) :
    recast.Tokens grammar parser.next.1 other.next.1 := by
  rw [← parser.head_pending, ← other.head_pending]
  exact h.pending 0

/-- Taking a token leaves tokens that stand in for each other. -/
theorem next (h : recast.Parsers grammar parser other) :
    recast.Parsers grammar parser.next.2 other.next.2 := by
  refine ⟨fun n => ?_, by rw [Parser.depth_next, Parser.depth_next, h.depth]⟩
  have hpending := h.pending (n + 1)
  rwa [parser.pending_eq, other.pending_eq, Stream'.get_succ_cons, Stream'.get_succ_cons]
    at hpending

/-- Looking at the next token leaves tokens that stand in for each other. -/
theorem peek (h : recast.Parsers grammar parser other) :
    recast.Parsers grammar (parser.next.2.unread parser.next.1)
      (other.next.2.unread other.next.1) := by
  constructor
  · rw [Parser.pending_unread_next, Parser.pending_unread_next]
    exact h.pending
  · exact h.next.depth

/-- Both parsers may be set to another depth. -/
theorem nest (h : recast.Parsers grammar parser other) (depth : Nat) :
    recast.Parsers grammar { parser with depth } { other with depth } :=
  ⟨h.pending, rfl⟩

end Parsers

/-- A run that does as another one did: it gives a value that corresponds, or the same fault at
the other position, or is endless as well. -/
inductive Runs {α : Type} (recast : Recast) (grammar : Grammar) (corresponds : α → α → Prop) :
    Parsed α → Parsed α → Prop where
  | ok {value another after last} (hvalue : corresponds value another)
      (hafter : recast.Parsers grammar after last) :
      Runs recast grammar corresponds (.ok value after) (.ok another last)
  | fault {fault after last} (hafter : recast.Parsers grammar after last) :
      Runs recast grammar corresponds (.stop (.fault fault) after)
        (.stop (.fault (recast.fault fault)) last)
  | endless {after last} :
      Runs recast grammar corresponds (.stop .endless after) (.stop .endless last)

/-- An expression corresponds to the one with the other names. -/
def Exprs (recast : Recast) (expr other : Expr) : Prop := other = recast.expr expr

/-- One action after another does as before if both do. -/
theorem Runs.bind {α β : Type} {first start : ParseM α} {second next : α → ParseM β}
    {corresponds : α → α → Prop} {results : β → β → Prop}
    (hfirst : recast.Runs grammar corresponds (first.run parser) (start.run other))
    (hsecond : ∀ {value another after last}, corresponds value another →
      recast.Parsers grammar after last →
      recast.Runs grammar results ((second value).run after) ((next another).run last)) :
    recast.Runs grammar results ((first >>= second).run parser) ((start >>= next).run other) := by
  rw [ParseM.run_bind, ParseM.run_bind]
  generalize first.run parser = parsed at hfirst
  generalize start.run other = given at hfirst
  cases hfirst with
  | ok hvalue hafter => exact hsecond hvalue hafter
  | fault hafter => exact .fault hafter
  | endless => exact .endless

/-- A token is accepted as before. -/
theorem accept (h : recast.Parsers grammar parser other) (kind : Kind) :
    recast.Runs grammar Eq ((Parser.accept kind).run parser) ((Parser.accept kind).run other) := by
  rw [Parser.run_accept, Parser.run_accept, h.token.kind]
  by_cases hkind : parser.next.1.kind = kind
  · rw [if_pos hkind, if_pos hkind]
    exact .ok rfl h.next
  · rw [if_neg hkind, if_neg hkind]
    exact .ok rfl h.peek

/-- A token is required as before. -/
theorem expect (h : recast.Parsers grammar parser other) (kind : Kind) :
    recast.Runs grammar (recast.Tokens grammar) ((Parser.expect kind).run parser)
      ((Parser.expect kind).run other) := by
  rw [Parser.run_expect, Parser.run_expect, h.token.kind, h.token.start]
  by_cases hkind : parser.next.1.kind = kind
  · rw [if_pos hkind, if_pos hkind]
    exact .ok h.token h.next
  · rw [if_neg hkind, if_neg hkind]
    exact .fault h.peek

/-- Operands do as before. -/
def Operands (recast : Recast) (grammar : Grammar) (operand : Operand) : Prop :=
  ∀ (level : Nat) {parser other : Parser}, recast.Parsers grammar parser other →
    recast.Runs grammar recast.Exprs ((operand level).run parser) ((operand level).run other)

section Rules

variable {operand : Operand} {token another : Token}

/-- A prefix rule does as before if its operands do. -/
theorem starting (hoperand : recast.Operands grammar operand)
    (h : recast.Parsers grammar parser other) (htoken : recast.Tokens grammar token another)
    {rule : PrefixRule} (hrule : grammar.prefixRule token.kind = some rule) :
    recast.Runs grammar recast.Exprs ((rule.parse operand token).run parser)
      ((rule.parse operand another).run other) := by
  cases rule with
  | name => exact .ok (congrArg Expr.name (htoken.name hrule)) h
  | group =>
    refine (hoperand _ h).bind fun hexpr hafter => ?_
    exact (expect hafter .closeParen).bind fun _ hlast => .ok hexpr hlast
  | operator power =>
    refine (hoperand _ h).bind fun hright hafter => .ok ?_ hafter
    exact congrArg₂ Expr.prefixed htoken.kind hright

/-- Arguments do as before if each of them does. -/
theorem separated (hoperand : recast.Operands grammar operand) (turns : Nat)
    (h : recast.Parsers grammar parser other) :
    recast.Runs grammar (fun exprs others => others = recast.exprs exprs)
      ((operand.separated turns).run parser) ((operand.separated turns).run other) := by
  induction turns generalizing parser other with
  | zero => exact .endless
  | succ turns ih =>
    refine (hoperand _ h).bind fun hfirst hafter => ?_
    refine (accept hafter .comma).bind fun {more again _ _} hmore hlast => ?_
    subst hmore
    cases more with
    | false => exact .ok (congrArg (fun expr => [expr]) hfirst) hlast
    | true =>
      refine (ih hlast).bind fun hrest hfinal => .ok ?_ hfinal
      exact congrArg₂ List.cons hfirst hrest

/-- The arguments of a call do as before if each of them does. -/
theorem arguments (hoperand : recast.Operands grammar operand) (turns : Nat)
    (h : recast.Parsers grammar parser other) :
    recast.Runs grammar (fun exprs others => others = recast.exprs exprs)
      ((operand.arguments turns).run parser) ((operand.arguments turns).run other) := by
  refine (accept h .closeParen).bind fun {closed again _ _} hclosed hafter => ?_
  subst hclosed
  cases closed with
  | true => exact .ok rfl hafter
  | false =>
    refine (separated hoperand turns hafter).bind fun hexprs hlast => ?_
    exact (expect hlast .closeParen).bind fun _ hfinal => .ok hexprs hfinal

/-- An infix rule does as before if its operands do. -/
theorem extending (hoperand : recast.Operands grammar operand) (turns : Nat)
    (h : recast.Parsers grammar parser other) (htoken : recast.Tokens grammar token another)
    {left leftward : Expr} (hleft : recast.Exprs left leftward) (rule : InfixRule) :
    recast.Runs grammar recast.Exprs ((rule.parse operand turns left token).run parser)
      ((rule.parse operand turns leftward another).run other) := by
  subst hleft
  cases rule with
  | postfixed power => exact .ok (congrArg _ htoken.kind) h
  | binary power associativity =>
    refine (hoperand _ h).bind fun hright hafter => .ok ?_ hafter
    exact congrArg₂ (Expr.binary _) htoken.kind hright
  | conditional =>
    refine (hoperand _ h).bind fun hyes hafter => ?_
    refine (expect hafter .colon).bind fun _ hlast => ?_
    exact (hoperand _ hlast).bind fun hno hfinal =>
      .ok (congrArg₂ (Expr.conditional _) hyes hno) hfinal
  | call =>
    exact (arguments hoperand turns h).bind fun hexprs hafter => .ok (congrArg _ hexprs) hafter
  | assign =>
    refine (hoperand _ h).bind fun {value valueward after last} hvalue hafter => ?_
    -- Whether the left side is a name does not depend on which name it is.
    have hassign := recast.assignTo_expr left value token.start
    rw [← htoken.start, ← hvalue] at hassign
    rw [hassign]
    cases left.assignTo value token.start with
    | ok expr => exact .ok rfl hafter
    | error fault => exact .fault hafter

/-- The loop that extends an expression does as before if the operands do. -/
theorem extend (hoperand : recast.Operands grammar operand) (level turns : Nat)
    (h : recast.Parsers grammar parser other) {left leftward : Expr}
    (hleft : recast.Exprs left leftward) :
    recast.Runs grammar recast.Exprs ((Parser.extend grammar operand level turns left).run parser)
      ((Parser.extend grammar operand level turns leftward).run other) := by
  induction turns generalizing parser other left leftward with
  | zero => exact .endless
  | succ turns ih =>
    rw [Parser.run_extend, Parser.run_extend, h.token.kind]
    cases hrule : grammar.infixRule parser.next.1.kind with
    | none => exact .ok hleft h.peek
    | some rule =>
      by_cases hlevel : rule.level ≤ level
      · simp only [hlevel, if_true]
        exact .ok hleft h.peek
      · simp only [hlevel, if_false]
        exact (extending hoperand turns h.next h.token hleft rule).bind
          fun hlonger hafter => ih hafter hlonger

/-- What an expression does once its depth has been checked is done as before. -/
theorem begin (hoperand : recast.Operands grammar operand) (level turns : Nat)
    (h : recast.Parsers grammar parser other) :
    recast.Runs grammar recast.Exprs ((Parser.begin grammar operand level turns).run parser)
      ((Parser.begin grammar operand level turns).run other) := by
  rw [Parser.begin, ParseM.run_bind, ParseM.run_bind, Parser.run_consume, Parser.run_consume]
  simp only [h.token.kind]
  cases hrule : grammar.prefixRule parser.next.1.kind with
  | none =>
    simp only [Parser.run_fail, h.token.value hrule, h.token.start]
    exact .fault h.next
  | some rule =>
    exact (starting hoperand h.next h.token hrule).bind
      fun hleft hafter => extend hoperand level turns hafter hleft

/-- An action one expression deeper does as before if it does so there. -/
theorem deeper {action : ParseM Expr}
    (h : recast.Runs grammar recast.Exprs (action.run { parser with depth := parser.depth + 1 })
      (action.run { other with depth := other.depth + 1 })) :
    recast.Runs grammar recast.Exprs ((Parser.deeper action).run parser)
      ((Parser.deeper action).run other) := by
  have hback : ∀ {after last : Parser}, recast.Parsers grammar after last →
      recast.Parsers grammar { after with depth := after.depth - 1 }
        { last with depth := last.depth - 1 } := by
    intro after last hafter
    rw [hafter.depth]
    exact hafter.nest _
  unfold Parser.deeper
  simp only
  generalize action.run { parser with depth := parser.depth + 1 } = parsed at h
  generalize action.run { other with depth := other.depth + 1 } = given at h
  cases h with
  | ok hvalue hafter => exact .ok hvalue (hback hafter)
  | fault hafter => exact .fault (hback hafter)
  | endless => exact .endless

end Rules

/-- Every expression is parsed as before. -/
theorem expression (recast : Recast) (grammar : Grammar) (fuel : Nat) :
    recast.Operands grammar (Parser.expression grammar fuel) := by
  induction fuel with
  | zero => exact fun _ _ _ _ => .endless
  | succ fuel ih =>
    intro level parser other h
    rw [Parser.expression_succ]
    by_cases hdepth : ∀ limit ∈ grammar.depthLimit, parser.depth + 1 ≤ limit
    · rw [Parser.nested_of_lt _ hdepth, Parser.nested_of_lt _ (h.depth ▸ hdepth)]
      refine deeper ?_
      rw [h.depth]
      exact begin ih level (fuel + 1) (h.nest _)
    · obtain ⟨limit, hlimit, hlt⟩ : ∃ limit ∈ grammar.depthLimit, limit < parser.depth + 1 := by
        simpa using hdepth
      have hle : limit ≤ other.depth := by
        rw [h.depth]
        omega
      rw [show grammar.depthLimit = some limit from hlimit, Parser.run_nested_of_le _ (by omega),
        Parser.run_nested_of_le _ hle, h.token.start]
      exact .fault h.peek

/-- The whole input is parsed as before if it is as long as before. -/
theorem parseAll (h : recast.Parsers grammar parser other)
    (hfuel : other.fuel grammar = parser.fuel grammar) :
    recast.Runs grammar recast.Exprs ((Parser.parseAll grammar).run parser)
      ((Parser.parseAll grammar).run other) := by
  have hexpr : recast.Runs grammar recast.Exprs ((Parser.parseExpr grammar 0).run parser)
      ((Parser.parseExpr grammar 0).run other) := by
    rw [Parser.run_parseExpr, Parser.run_parseExpr, hfuel]
    exact expression recast grammar _ 0 h
  refine hexpr.bind fun hvalue hafter => ?_
  exact (expect hafter .endOfInput).bind fun _ hlast => .ok hvalue hlast

end Recast

/-- A parse of tokens that stand in for those of another supply gives the same expression with
the other names, or the same fault at the other position. -/
theorem parse_recast {recast : Recast} {supply other : Supply}
    (hstream : ∀ n, recast.Tokens .standard (supply.stream.get n) (other.stream.get n))
    (hsize : other.size = supply.size) :
    parse other = ((parse supply).map recast.expr).mapError recast.fault := by
  have hfuel : (Parser.ofSupply other).fuel .standard =
      (Parser.ofSupply supply).fuel .standard := by
    simp only [Parser.fuel, Parser.ofSupply, hsize]
  have hparsers : recast.Parsers .standard (.ofSupply supply) (.ofSupply other) := ⟨hstream, rfl⟩
  have hruns := Recast.parseAll hparsers hfuel
  cases hparse : parse supply with
  | ok expr =>
    obtain ⟨after, hrun⟩ := parse_eq_ok_iff.mp hparse
    rw [hrun] at hruns
    generalize hother : (Parser.parseAll .standard).run (.ofSupply other) = given at hruns
    cases hruns with
    | ok hvalue hafter =>
      obtain rfl := hvalue
      exact parse_eq_ok_iff.mpr ⟨_, hother⟩
  | error fault =>
    obtain ⟨after, hrun⟩ := parse_eq_error_iff.mp hparse
    rw [hrun] at hruns
    generalize hother : (Parser.parseAll .standard).run (.ofSupply other) = given at hruns
    cases hruns with
    | fault hafter => exact parse_eq_error_iff.mpr ⟨_, hother⟩

namespace Recast

variable (recast : Recast)

/-- In the standard grammar, a token with the other name at the other positions stands in for the
one it was made of. -/
theorem tokens_token (token : Token) : recast.Tokens .standard token (recast.token token) := by
  refine ⟨rfl, rfl, fun hname => if_pos (Grammar.kind_of_name hname), fun hnone => ?_⟩
  refine if_neg fun hkind => ?_
  rw [hkind] at hnone
  cases hnone

/-- The end marks after a list are at the other position if the list has a last token. -/
theorem stop_ofList {tokens : List Token} (hne : tokens ≠ []) :
    (Replay.ofList (tokens.map recast.token)).stop = recast.place (Replay.ofList tokens).stop := by
  rw [Replay.ofList, Replay.ofList, List.getLast?_map, List.getLast?_eq_some_getLast hne]
  rfl

/-- A list of tokens with the other names at the other positions gives out such tokens, also after
its end. -/
theorem stream_map_token {tokens : List Token} (hne : tokens ≠ []) :
    (Supply.list (.ofList (tokens.map recast.token))).stream =
      (Supply.list (.ofList tokens)).stream.map recast.token := by
  rw [Supply.stream_list, Supply.stream_list, recast.stop_ofList hne, Stream'.map_append_stream,
    Stream'.map_const]
  rfl

end Recast

/-- Renaming the identifiers of a list of tokens, also some of them alike, and moving all its
positions, in any way, renames the names in the expression that it forms or moves the position of
its fault, and changes nothing else. So positions and the names of files in them never matter to
the expression. The list has to have a last token, for the end marks after it are where that one
stops. -/
theorem parseTokens_recast (recast : Recast) {tokens : List Token} (hne : tokens ≠ []) :
    parseTokens (tokens.map recast.token) =
      ((parseTokens tokens).map recast.expr).mapError recast.fault ∧
    ∀ place, parseTokens (tokens.map (Recast.mk id place).token) =
      (parseTokens tokens).mapError (Recast.mk id place).fault := by
  have hparse : ∀ other : Recast, parseTokens (tokens.map other.token) =
      ((parseTokens tokens).map other.expr).mapError other.fault := by
    intro other
    refine parse_recast (fun n => ?_) (List.length_map _)
    rw [other.stream_map_token hne]
    exact other.tokens_token _
  refine ⟨hparse recast, fun place => ?_⟩
  rw [hparse]
  cases parseTokens tokens with
  | ok expr => exact congrArg Except.ok (Recast.expr_id place expr)
  | error fault => rfl

/-- All names in `a = b + c` become one name and all positions one position. -/
theorem parseTokens_recast_merged :
    let recast : Recast := ⟨fun _ => "x", fun _ => .null⟩
    let tokens := tokenize "a = b + c"
    tokens ≠ [] ∧ parseTokens (tokens.map recast.token) =
      .ok (.assign "x" (.binary (.name "x") .plus (.name "x"))) := by
  intro recast tokens
  have hne : tokens ≠ [] := by decide +kernel
  exact ⟨hne, (parseTokens_recast recast hne).1.trans (by decide +kernel)⟩

end Precedence
