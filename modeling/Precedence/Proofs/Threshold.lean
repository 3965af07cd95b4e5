import Precedence.Proofs.DepthDiscipline

/-!
# Stopping sooner

Of two parses that start alike, the one that stops at the higher level is the beginning of the
other. They take the same tokens in the same way until the first of them stops. If that is at a
fault, both stop at it. If it is before a token that does not bind tighter, the second goes on
from there as the loop does that extends an expression. The statements follow the loop and what
is around it; the main one is `parseExpr_resumes`.
-/

namespace Precedence

/-- A run that is the beginning of another one: where it gives an expression, `rest` says what
the other does, and where it stops, the other stops as well. -/
inductive Parsed.Begins (rest : Expr → Parser → Parsed Expr → Prop) :
    Parsed Expr → Parsed Expr → Prop where
  | ok {left after whole} (h : rest left after whole) : Begins rest (.ok left after) whole
  | stop {reason after} : Begins rest (.stop reason after) (.stop reason after)

/-- Where two runs share their first action, one is the beginning of the other if it is so from
there on. -/
theorem Parsed.Begins.bind {α : Type} {rest : Expr → Parser → Parsed Expr → Prop}
    {first : ParseM α} {second another : α → ParseM Expr} {parser : Parser}
    (h : ∀ value after, ((second value).run after).Begins rest ((another value).run after)) :
    ((first >>= second).run parser).Begins rest ((first >>= another).run parser) := by
  rw [ParseM.run_bind, ParseM.run_bind]
  cases first.run parser with
  | ok value after => exact h value after
  | stop reason after => exact .stop

namespace Parser

variable {grammar : Grammar} {operand : Operand} {kept : Parser → Parser → Prop}
  {low high level depth limit : Nat} {parser other : Parser}

/-- A parser has stopped at a level: it has looked at its next token, and that does not bind
tighter. -/
structure StoppedAt (grammar : Grammar) (level : Nat) (parser : Parser) : Prop where
  /-- Looking at the next token once more changes nothing. -/
  looked : parser.next.2.unread parser.next.1 = parser
  /-- The next token does not bind tighter than the level. -/
  level_le : grammar.level parser.next.1.kind ≤ level

/-- A parser that has stopped at a level has done so at any other depth. -/
theorem StoppedAt.nest (h : StoppedAt grammar level parser) (depth : Nat) :
    StoppedAt grammar level { parser with depth } := by
  obtain ⟨supply, ahead, inner⟩ := parser
  cases ahead with
  | nil => cases congrArg Parser.ahead h.looked
  | cons token ahead => exact ⟨rfl, h.level_le⟩

/-- The level of the next token of a parser that has stopped at a level is not higher. -/
theorem StoppedAt.run_peekLevel (h : StoppedAt grammar level parser) :
    ∃ found ≤ level, (peekLevel grammar).run parser = .ok found parser := by
  refine ⟨_, h.level_le, ?_⟩
  rw [Parser.run_peekLevel, h.looked]

/-- What a run up to a lower level does once one up to the level `high` has stopped: it does what
`loop` does with the expression so far, in the turns that are left. -/
def GoesOnBy (grammar : Grammar) (high : Nat) (loop : Nat → Expr → ParseM Expr) (left : Expr)
    (after : Parser) (whole : Parsed Expr) : Prop :=
  StoppedAt grammar high after ∧ ∃ turns, whole = (loop turns left).run after

/-- A look at the next token before a turn of the loop makes no difference to it. -/
theorem run_extend_unread (level turns : Nat) (left : Expr) (parser : Parser) :
    (extend grammar operand level (turns + 1) left).run (parser.next.2.unread parser.next.1) =
      (extend grammar operand level (turns + 1) left).run parser := by
  rw [run_extend, run_extend, next_unread]

/-- The loop that stops at the higher level is the beginning of the one that stops at the lower
level, which goes on in the turns that are left. -/
theorem extend_begins (hle : low ≤ high) (turns : Nat) (left : Expr) (parser : Parser) :
    ((extend grammar operand high turns left).run parser).Begins
      (GoesOnBy grammar high (extend grammar operand low))
      ((extend grammar operand low turns left).run parser) := by
  induction turns generalizing left parser with
  | zero => exact .stop
  | succ turns ih =>
    rw [run_extend grammar operand high]
    cases hrule : grammar.infixRule parser.next.1.kind with
    | none =>
      have hloose : grammar.level parser.next.1.kind ≤ high := by
        rw [Grammar.level_of_none hrule]
        exact Nat.zero_le high
      exact .ok ⟨⟨rfl, hloose⟩, turns + 1, (run_extend_unread low turns left parser).symm⟩
    | some rule =>
      by_cases hlevel : rule.level ≤ high
      · have hloose : grammar.level parser.next.1.kind ≤ high := by
          rwa [Grammar.level_of_infixRule hrule]
        simp only [hlevel, if_true]
        exact .ok ⟨⟨rfl, hloose⟩, turns + 1, (run_extend_unread low turns left parser).symm⟩
      · -- A rule that is above the higher level is above the lower one, so both loops turn.
        have hlower : ¬rule.level ≤ low := by omega
        rw [run_extend grammar operand low, hrule]
        simp only [hlevel, hlower, if_false]
        exact .bind fun longer after => ih longer after

/-- An expression up to the higher level is the beginning of the one up to the lower level. -/
theorem begin_begins (hle : low ≤ high) (turns : Nat) (parser : Parser) :
    ((begin grammar operand high turns).run parser).Begins
      (GoesOnBy grammar high (extend grammar operand low))
      ((begin grammar operand low turns).run parser) := by
  refine .bind fun token after => ?_
  cases grammar.prefixRule token.kind with
  | none => exact .stop
  | some rule => exact .bind fun left last => extend_begins hle turns left last

/-- Goes on with an expression that has been parsed up to some level, as the loop does that
extends it, up to another level. -/
def resumeExpr (grammar : Grammar) (level : Nat) (left : Expr) : ParseM Expr :=
  ⟨fun parser => (deeper (extend grammar (expression grammar (parser.fuel grammar)) level
    (parser.fuel grammar + 1) left)).run parser⟩

/-- Going on runs with the fuel its parser needs. -/
theorem run_resumeExpr (grammar : Grammar) (level : Nat) (left : Expr) (parser : Parser) :
    (resumeExpr grammar level left).run parser =
      (deeper (extend grammar (expression grammar (parser.fuel grammar)) level
        (parser.fuel grammar + 1) left)).run parser := rfl

/-- Whatever the fuel and the turns that are left, the loop ends as it does with the fuel that
going on has. -/
theorem extend_endsAs_resumeExpr (hlimit : grammar.depthLimit = some limit) (hkept : Kept kept)
    (h : Alike kept depth parser other) (fuel turns : Nat) (left : Expr) :
    ((deeper (extend grammar (expression grammar fuel) level turns left)).run parser).EndsAs
      (Alike kept depth) ((resumeExpr grammar level left).run other) := by
  have hends := other.endsWithin_pending
  rw [← h.pending] at hends
  have henough := other.enough_fuel hlimit
  rw [h.right] at henough
  have hoperand : OperandsEndAs kept (depth + 1) (other.ahead.length + other.supply.size)
      (expression grammar fuel) (expression grammar (other.fuel grammar)) :=
    expression_endsAs grammar hkept (.inr ⟨limit, hlimit, by omega⟩)
  have hself : ∀ mark, OperandsEndAs (AtEnd mark) (depth + 1) 0 (expression grammar fuel)
      (expression grammar fuel) :=
    fun mark => expression_endsAs grammar (kept_atEnd mark) (.inl le_rfl)
  have hloop : ((extend grammar (expression grammar fuel) level turns left).run
      { parser with depth := parser.depth + 1 }).EndsAs
        (AlikeWithin kept (depth + 1) (other.ahead.length + other.supply.size))
        ((extend grammar (expression grammar (other.fuel grammar)) level (other.fuel grammar + 1)
          left).run { other with depth := other.depth + 1 }) := by
    rw [h.left, h.right]
    exact extend_endsAs hkept hoperand hself le_rfl (.inr (.inl (by omega)))
      ⟨h.nest hkept (depth + 1), hends⟩
  exact (deeper_endsAs hkept hloop).imp AlikeWithin.toAlike

/-- Going on does the same on parsers that are alike. -/
theorem blind_resumeExpr (hlimit : grammar.depthLimit = some limit) (left : Expr) :
    (resumeExpr grammar level left).Blind := by
  intro kept depth parser other hkept h
  rw [run_resumeExpr grammar level left parser]
  exact extend_endsAs_resumeExpr hlimit hkept h _ _ left

/-- One expression deeper a run is the beginning of another one if it is so there. -/
theorem deeper_begins {action another : ParseM Expr}
    (hdepth : ∀ {left after}, action.run { parser with depth := parser.depth + 1 } =
      .ok left after → after.depth = parser.depth + 1)
    (h : (action.run { parser with depth := parser.depth + 1 }).Begins
      (GoesOnBy grammar high (extend grammar operand low))
      (another.run { parser with depth := parser.depth + 1 })) :
    ((deeper action).run parser).Begins
      (GoesOnBy grammar high fun turns left => deeper (extend grammar operand low turns left))
      ((deeper another).run parser) := by
  simp only [deeper]
  generalize action.run { parser with depth := parser.depth + 1 } = parsed at h hdepth
  generalize another.run { parser with depth := parser.depth + 1 } = whole at h
  cases h with
  | stop => exact .stop
  | @ok left after _ hrest =>
    obtain ⟨hstopped, more, rfl⟩ := hrest
    -- The loop that goes on enters the expression that has just been left.
    have hentered : { after with depth := after.depth - 1 + 1 } = after := by
      rw [hdepth rfl]
      exact congrArg (Parser.mk after.supply after.ahead) (hdepth rfl).symm
    refine .ok ⟨hstopped.nest _, more, ?_⟩
    simp only [hentered]

/-- Parsing up to the higher level is the beginning of parsing up to the lower level, which goes on
at the same depth. -/
theorem expression_begins (hlimit : grammar.depthLimit = some limit) (hle : low ≤ high)
    (fuel : Nat) (parser : Parser) :
    ((expression grammar (fuel + 1) high).run parser).Begins
      (GoesOnBy grammar high fun turns left =>
        deeper (extend grammar (expression grammar fuel) low turns left))
      ((expression grammar (fuel + 1) low).run parser) := by
  rw [expression_succ, expression_succ, hlimit]
  by_cases hroom : parser.depth + 1 ≤ limit
  · have hbelow : ∀ other ∈ some limit, parser.depth + 1 ≤ other := by
      rintro _ ⟨⟩
      exact hroom
    rw [nested_of_lt _ hbelow, nested_of_lt _ hbelow]
    refine deeper_begins (fun hrun => ?_) (begin_begins hle _ _)
    exact (beginProgram grammar (expressionProgram grammar fuel) high (fuel + 1)).depth_of_ok
      hrun
  · have hfull : limit ≤ parser.depth := by omega
    rw [run_nested_of_le _ hfull, run_nested_of_le _ hfull]
    exact .stop

/-- An action that ends and does the same on parsers that are alike takes tokens from the front. -/
theorem exists_read_of_blind {α : Type} {action : ParseM α} (h : action.Blind)
    (hsettles : ∀ after, action.run parser ≠ .stop .endless after) :
    ∃ read, parser.pending = read ++ₛ (action.run parser).after.pending := by
  have halike : Alike (fun later _ => ∃ read, parser.pending = read ++ₛ later.pending)
      parser.depth parser parser := ⟨rfl, rfl, rfl, [], rfl⟩
  have hends := h (kept_front _) halike
  generalize action.run parser = parsed at hends hsettles ⊢
  cases hends with
  | endless => exact absurd rfl (hsettles _)
  | ok hafter => exact hafter.kept
  | fault hafter => exact hafter.kept

/-- Parsing up to the higher level is the beginning of parsing up to the lower level, which does
exactly what going on does. -/
theorem parseExpr_begins (hlimit : grammar.depthLimit = some limit)
    (hend : grammar.infixRule .endOfInput = none) (hle : low ≤ high) (parser : Parser) :
    ((parseExpr grammar high).run parser).Begins
      (fun left after whole => StoppedAt grammar high after ∧
        whole = (resumeExpr grammar low left).run after)
      ((parseExpr grammar low).run parser) := by
  have hends := (settles_parseExpr hlimit hend low parser).ne_endless
  obtain ⟨fuel, hfuel⟩ : ∃ fuel, parser.fuel grammar = fuel + 1 := ⟨_, rfl⟩
  rw [run_parseExpr, hfuel] at hends ⊢
  rw [run_parseExpr, hfuel]
  have hbegins := expression_begins hlimit hle fuel parser
  generalize (expression grammar (fuel + 1) high).run parser = parsed at hbegins ⊢
  generalize (expression grammar (fuel + 1) low).run parser = whole at hbegins hends ⊢
  cases hbegins with
  | stop => exact .stop
  | @ok left after _ hrest =>
    obtain ⟨hstopped, more, rfl⟩ := hrest
    refine .ok ⟨hstopped, ?_⟩
    have halike : Alike Eq after.depth after after := ⟨rfl, rfl, rfl, rfl⟩
    have hresume : ((deeper (extend grammar (expression grammar fuel) low more left)).run
        after).EndsAs (Alike Eq after.depth) ((resumeExpr grammar low left).run after) :=
      extend_endsAs_resumeExpr hlimit kept_eq halike fuel more left
    generalize (deeper _).run after = parsed at hresume hends ⊢
    generalize (resumeExpr grammar low left).run after = resumed at hresume ⊢
    cases hresume with
    | endless => exact absurd rfl (hends _)
    | ok hafter => rw [hafter.kept]
    | fault hafter => rw [hafter.kept]

end Parser

/-- What parsing up to a level says of parsing up to a lower level, for every grammar in which no
end mark extends an expression and for every parser. Where the first fails, the second fails with
the same fault and leaves the same parser. Where the first gives an expression, the next token
does not bind tighter than its level, and the second does exactly what going on from that
expression does, at the depth of the first. So the tokens that the first takes are the beginning
of those that the second takes. -/
theorem parseExpr_resumes {entries : List Entry} {low high : Nat}
    (hend : (Grammar.empty.addAll entries).infixRule .endOfInput = none) (hle : low ≤ high)
    (parser : Parser) :
    let grammar := Grammar.empty.addAll entries
    let part := (Parser.parseExpr grammar high).run parser
    let whole := (Parser.parseExpr grammar low).run parser
    part ≠ .stop .endless part.after ∧
    (∀ fault after, part = .stop (.fault fault) after → whole = .stop (.fault fault) after) ∧
    ∀ left after, part = .ok left after →
      (∃ level ≤ high, (Parser.peekLevel grammar).run after = .ok level after) ∧
      whole = (Parser.resumeExpr grammar low left).run after ∧
      ∃ read more, parser.pending = read ++ₛ after.pending ∧
        parser.pending = (read ++ more) ++ₛ whole.after.pending := by
  intro grammar part whole
  have hlimit : grammar.depthLimit = some Grammar.maxDepth := Grammar.depthLimit_addAll _ entries
  have hpart : ∀ after, part ≠ .stop .endless after :=
    (Parser.settles_parseExpr hlimit hend high parser).ne_endless
  have hwhole : ∀ after, whole ≠ .stop .endless after :=
    (Parser.settles_parseExpr hlimit hend low parser).ne_endless
  have hread : ∃ read, parser.pending = read ++ₛ part.after.pending :=
    Parser.exists_read_of_blind (Parser.blind_parseExpr hlimit high) hpart
  have hbegins : part.Begins _ whole := Parser.parseExpr_begins hlimit hend hle parser
  clear_value part whole
  refine ⟨hpart part.after, ?_, ?_⟩
  · rintro fault after rfl
    cases hbegins
    rfl
  · rintro left after rfl
    cases hbegins with
    | ok hrest =>
      obtain ⟨hstopped, rfl⟩ := hrest
      obtain ⟨read, hread⟩ := hread
      obtain ⟨more, hmore⟩ :=
        Parser.exists_read_of_blind (Parser.blind_resumeExpr hlimit left) hwhole
      refine ⟨hstopped.run_peekLevel, rfl, read, more, hread, ?_⟩
      rw [Stream'.append_append_stream, ← hmore]
      exact hread

/-- In `a(b)! - c = d`, parsing up to the level of sums stops before the minus sign. Parsing up to
the lowest level goes on from there, to a fault at the equals sign. -/
theorem parseExpr_resumes_minus :
    let entries := Grammar.standardEntries
    let parse := Parser.parseExpr (Grammar.empty.addAll entries)
    let parser := Parser.ofSupply (.text (.ofText "a(b)! - c = d"))
    let left : Expr := .postfixed (.call (.name "a") [.name "b"]) .bang
    let after := ((parse 3).run parser).after
    let last := ((parse 0).run parser).after
    (Grammar.empty.addAll entries).infixRule .endOfInput = none ∧ 0 ≤ 3 ∧
    (parse 3).run parser = .ok left after ∧ after.next.1.kind = .dash ∧
    (parse 0).run parser = .stop (.fault ⟨.invalidAssignmentTarget, ⟨10, shell⟩⟩) last ∧
    (parse 0).run parser = (Parser.resumeExpr (Grammar.empty.addAll entries) 0 left).run after := by
  intro entries parse parser left after last
  have hend : (Grammar.empty.addAll entries).infixRule .endOfInput = none := rfl
  have hle : 0 ≤ 3 := by decide
  have hpart : (parse 3).run parser = .ok left after := by decide +kernel
  obtain ⟨-, hresume, -⟩ := (parseExpr_resumes hend hle parser).2.2 left after hpart
  exact ⟨hend, hle, hpart, by decide +kernel, by decide +kernel, hresume⟩

end Precedence
