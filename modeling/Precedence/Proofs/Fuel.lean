import Precedence.Proofs.Alike
import Precedence.Proofs.Program

/-!
# Fuel decides nothing

A parse with more fuel ends as one with less fuel does, unless the latter is endless. And
`Parser.fuel` is enough: a parse that is endless with it is endless with any fuel. Before
the end of the supply each turn of a loop takes a token. At the end of it only an end mark
can be taken again and again, and a rule that has taken one twice goes on for ever. The
main statement is `Parser.parseExpr_endsAs`.
-/

namespace Precedence

/-- Two actions that give a value have each given one. -/
theorem ParseM.of_bind_ok {α β : Type} {first : ParseM α} {second : α → ParseM β}
    {parser after : Parser} {value : β} (h : (first >>= second).run parser = .ok value after) :
    ∃ start middle, first.run parser = .ok start middle ∧
      (second start).run middle = .ok value after := by
  rw [run_bind] at h
  cases hfirst : first.run parser with
  | ok start middle =>
    rw [hfirst] at h
    exact ⟨start, middle, rfl, h⟩
  | stop reason middle =>
    rw [hfirst] at h
    cases h

namespace Parser

variable {kept : Parser → Parser → Prop} {depth bound level turns : Nat}
  {parser other after : Parser} {operand another : Operand} {grammar : Grammar} {mark : Token}
  {rule : InfixRule} {left expr : Expr}

/-- A turn of the loop looks at the next token, and takes it if it binds tighter. -/
theorem run_extend (grammar : Grammar) (operand : Operand) (level turns : Nat) (left : Expr)
    (parser : Parser) :
    (extend grammar operand level (turns + 1) left).run parser =
      match grammar.infixRule parser.next.1.kind with
      | none => .ok left (parser.next.2.unread parser.next.1)
      | some rule =>
        if rule.level ≤ level then .ok left (parser.next.2.unread parser.next.1)
        else (rule.parse operand turns left parser.next.1 >>=
          extend grammar operand level turns).run parser.next.2 := by
  rw [extend, ParseM.run_bind, run_peek]
  cases hrule : grammar.infixRule parser.next.1.kind with
  | none => simp only [hrule, ParseM.run_pure]
  | some rule =>
    by_cases hlevel : rule.level ≤ level
    · simp only [hrule, hlevel, if_true, ParseM.run_pure]
    · simp only [hrule, hlevel, if_false, ParseM.run_bind, run_consume, next_unread]

/-- At the limit an expression is a fault at the next token, which stays. -/
theorem run_nested_of_le {α : Type} {limit : Nat} (action : ParseM α)
    (h : limit ≤ parser.depth) :
    (nested (some limit) action).run parser =
      .stop (.fault ⟨.nestingTooDeep limit, parser.next.1.start⟩)
        (parser.next.2.unread parser.next.1) := by
  simp only [nested, ParseM.run_bind, checkDepth, h, if_true]
  rfl

/-- A parser that has nothing but one token to come. -/
def AtEnd (mark : Token) (parser _other : Parser) : Prop := parser.pending = Stream'.const mark

/-- Reading does not leave the end. -/
theorem kept_atEnd (mark : Token) : Kept (AtEnd mark) := by
  constructor
  · intro parser _ hparser
    have hpending : parser.pending = Stream'.cons mark (Stream'.const mark) := by
      rw [← Stream'.const_eq]
      exact hparser
    exact (next_of_pending hpending).2
  · intro parser _ distance hparser
    exact (parser.pending_reach distance).trans hparser
  · intro parser _ inner hparser
    exact hparser

/-- An infix rule makes no names. -/
theorem name?_of_extending {token : Token}
    (h : (rule.parse operand turns left token).run parser = .ok expr after) :
    expr.name? = none := by
  cases rule with
  | postfixed power =>
    cases h
    rfl
  | binary power associativity =>
    obtain ⟨right, middle, -, hlast⟩ := ParseM.of_bind_ok h
    cases hlast
    rfl
  | conditional =>
    obtain ⟨yes, middle, -, hrest⟩ := ParseM.of_bind_ok h
    obtain ⟨colon, final, -, hno⟩ := ParseM.of_bind_ok hrest
    obtain ⟨no, last, -, hlast⟩ := ParseM.of_bind_ok hno
    cases hlast
    rfl
  | call =>
    obtain ⟨exprs, middle, -, hlast⟩ := ParseM.of_bind_ok h
    cases hlast
    rfl
  | assign =>
    obtain ⟨value, middle, -, hlast⟩ := ParseM.of_bind_ok h
    unfold Expr.assignTo at hlast
    cases hname : left.name? with
    | some text =>
      rw [hname] at hlast
      cases hlast
      rfl
    | none =>
      rw [hname] at hlast
      cases hlast

/-- At the end of a supply no other token than the end mark is found. -/
theorem expect_ne_ok_of_atEnd {kind : Kind} {token : Token}
    (hparser : parser.pending = Stream'.const mark) (hkind : mark.kind ≠ kind) :
    (expect kind).run parser ≠ .ok token after := by
  have hnext : parser.next.1 = mark := by
    rw [← head_pending, hparser]
    rfl
  rw [run_expect, hnext, if_neg hkind]
  simp

/-- Parsers at the end of their supplies are alike. -/
theorem AlikeWithin.of_atEnd (hmark : mark.IsLast)
    (hparser : parser.pending = Stream'.const mark) (hother : other.pending = Stream'.const mark)
    (hdepth : parser.depth = depth) (hsame : other.depth = depth) :
    AlikeWithin (AtEnd mark) depth 0 parser other :=
  ⟨⟨by rw [hparser, hother], hdepth, hsame, hparser⟩, mark, hmark, hparser⟩

/-- What an operand gives at the end of a supply, it gives whenever it is there. -/
theorem operand_again (hmark : mark.IsLast)
    (hself : OperandsEndAs (AtEnd mark) depth 0 operand operand)
    (hparser : parser.pending = Stream'.const mark) (hdepth : parser.depth = depth)
    (hrun : (operand level).run parser = .ok expr after) {later : Parser}
    (hlater : later.pending = Stream'.const mark) (hsame : later.depth = depth) :
    ∃ last, (operand level).run later = .ok expr last ∧ last.pending = Stream'.const mark ∧
      last.depth = depth := by
  have halike := AlikeWithin.of_atEnd hmark hparser hlater hdepth hsame
  have hends := hself level le_rfl halike
  rw [hrun] at hends
  generalize hgiven : (operand level).run later = given at hends
  cases hends with
  | @ok _ _ last hafter =>
    exact ⟨last, rfl, by rw [← hafter.pending]; exact hafter.kept, hafter.right⟩

/-- At the end of a supply no arguments are closed. -/
theorem arguments_ne_ok_of_atEnd (hmark : mark.IsLast)
    (hself : OperandsEndAs (AtEnd mark) depth 0 operand operand)
    (hparser : parser.pending = Stream'.const mark) (hdepth : parser.depth = depth)
    {exprs : List Expr} : (operand.arguments turns).run parser ≠ .ok exprs after := by
  intro hrun
  have halike := AlikeWithin.of_atEnd hmark hparser hparser hdepth hdepth
  have hpeek := halike.peek (kept_atEnd mark)
  have hnext : parser.next.1.kind ≠ .closeParen := by
    rw [← head_pending, hparser]
    exact fun hclose => by simp [hmark.kind] at hclose
  rw [Operand.arguments, ParseM.run_bind, run_accept, if_neg hnext] at hrun
  obtain ⟨found, middle, hfound, hrest⟩ := ParseM.of_bind_ok hrun
  obtain ⟨closing, last, hclosing, -⟩ := ParseM.of_bind_ok hrest
  have hends := separated_endsAs (kept_atEnd mark) hself le_rfl (.inl (le_refl turns)) hpeek
  rw [hfound] at hends
  cases hends with
  | ok hmiddle => exact expect_ne_ok_of_atEnd hmiddle.kept (by simp [hmark.kind]) hclosing

/-- A rule that takes an end mark whenever it is asked to. -/
def GoesOn (operand : Operand) (rule : InfixRule) (mark : Token) (depth : Nat) : Prop :=
  ∀ (left : Expr) (turns : Nat) (parser : Parser), parser.pending = Stream'.const mark →
    parser.depth = depth → ∃ longer after,
      (rule.parse operand turns left mark).run parser = .ok longer after ∧
      after.pending = Stream'.const mark ∧ after.depth = depth

/-- A rule that takes an end mark after an expression that is no name goes on for ever. -/
theorem goesOn_of_extending (hmark : mark.IsLast)
    (hself : OperandsEndAs (AtEnd mark) depth 0 operand operand) (hleft : left.name? = none)
    (hparser : parser.pending = Stream'.const mark) (hdepth : parser.depth = depth)
    (hrun : (rule.parse operand turns left mark).run parser = .ok expr after) :
    GoesOn operand rule mark depth := by
  intro more others later hlater hsame
  cases rule with
  | postfixed power => exact ⟨_, later, rfl, hlater, hsame⟩
  | binary power associativity =>
    obtain ⟨right, middle, hright, -⟩ := ParseM.of_bind_ok hrun
    obtain ⟨last, hagain, hlast⟩ := operand_again hmark hself hparser hdepth hright hlater hsame
    exact ⟨.binary more mark.kind right, last, by
      rw [InfixRule.parse, ParseM.run_bind, hagain]; rfl, hlast⟩
  | conditional =>
    obtain ⟨yes, middle, hyes, hrest⟩ := ParseM.of_bind_ok hrun
    obtain ⟨colon, final, hcolon, -⟩ := ParseM.of_bind_ok hrest
    obtain ⟨last, hagain, hlast, -⟩ :=
      operand_again hmark hself hparser hdepth hyes hparser hdepth
    rw [hyes] at hagain
    cases hagain
    exact absurd hcolon (expect_ne_ok_of_atEnd hlast (by simp [hmark.kind]))
  | call =>
    obtain ⟨exprs, middle, hexprs, -⟩ := ParseM.of_bind_ok hrun
    exact absurd hexprs (arguments_ne_ok_of_atEnd hmark hself hparser hdepth)
  | assign =>
    obtain ⟨value, middle, -, hlast⟩ := ParseM.of_bind_ok hrun
    simp only [Expr.assignTo, hleft] at hlast
    cases hlast

/-- A loop whose rule goes on for ever is endless. -/
theorem extend_endless (hmark : mark.IsLast)
    (hrule : grammar.infixRule .endOfInput = some rule) (hlevel : level < rule.level)
    (hgoes : GoesOn operand rule mark depth) (turns : Nat) (left : Expr) (parser : Parser)
    (hparser : parser.pending = Stream'.const mark) (hdepth : parser.depth = depth) :
    ∃ after, (extend grammar operand level turns left).run parser = .stop .endless after := by
  induction turns generalizing left parser with
  | zero => exact ⟨parser, rfl⟩
  | succ turns ih =>
    have hpending : parser.pending = Stream'.cons mark (Stream'.const mark) := by
      rw [← Stream'.const_eq, hparser]
    obtain ⟨hnext, hrest⟩ := next_of_pending hpending
    obtain ⟨longer, after, hturn, hafter, hsame⟩ :=
      hgoes left turns parser.next.2 hrest (by rw [depth_next, hdepth])
    obtain ⟨last, hlast⟩ := ih longer after hafter hsame
    refine ⟨last, ?_⟩
    rw [run_extend, hnext, hmark.kind, hrule]
    simp only [Nat.not_le.mpr hlevel, if_false]
    rw [ParseM.run_bind, hturn]
    exact hlast

/-- Once nothing but end marks is to come and one has been taken after an expression that
is no name, the loop is endless. -/
theorem extend_endless_of_extending
    (hself : ∀ mark, OperandsEndAs (AtEnd mark) depth 0 operand operand)
    (hends : EndsWithin 0 parser.pending) (hdepth : parser.depth = depth)
    (hrule : grammar.infixRule parser.next.1.kind = some rule) (hlevel : level < rule.level)
    (hleft : left.name? = none) {longer : Expr}
    (hrun : (rule.parse operand turns left parser.next.1).run parser.next.2 = .ok longer after) :
    ∃ last, (extend grammar operand level turns longer).run after = .stop .endless last := by
  obtain ⟨mark, hmark, hparser⟩ := hends
  rw [Stream'.drop_zero, Stream'.const_eq] at hparser
  obtain ⟨hnext, hrest⟩ := next_of_pending hparser
  have hsame : parser.next.2.depth = depth := by rw [depth_next, hdepth]
  rw [hnext] at hrule hrun
  have hgoes := goesOn_of_extending hmark (hself mark) hleft hrest hsame hrun
  obtain ⟨found, last, hagain, hlast, hkeep⟩ := hgoes left turns parser.next.2 hrest hsame
  rw [hrun] at hagain
  cases hagain
  rw [hmark.kind] at hrule
  exact extend_endless hmark hrule hlevel hgoes turns longer after hlast hkeep

/-- Extending an expression ends as it does with other operands, if there are turns for
all tokens and for what may happen at the end of them. -/
theorem extend_endsAs (hkept : Kept kept)
    (hoperand : OperandsEndAs kept depth bound operand another)
    (hself : ∀ mark, OperandsEndAs (AtEnd mark) depth 0 operand operand) {within others : Nat}
    (hwithin : within ≤ bound)
    (hturns : turns ≤ others ∨ within + 3 ≤ others ∨ within + 2 ≤ others ∧ left.name? = none)
    (h : AlikeWithin kept depth within parser other) :
    ((extend grammar operand level turns left).run parser).EndsAs (AlikeWithin kept depth within)
      ((extend grammar another level others left).run other) := by
  induction turns generalizing within others left parser other with
  | zero => exact .endless
  | succ turns ih =>
    obtain ⟨others, rfl⟩ : ∃ less, others = less + 1 := ⟨others - 1, by omega⟩
    have hpeek := h.peek hkept
    rw [run_extend, run_extend]
    rw [← h.token] at hpeek ⊢
    cases hrule : grammar.infixRule parser.next.1.kind with
    | none => exact .ok hpeek
    | some rule =>
      by_cases hlevel : rule.level ≤ level
      · simp only [hlevel, if_true]
        exact .ok hpeek
      · simp only [hlevel, if_false]
        have henough : turns ≤ others ∨ within - 1 < others := by omega
        have hturn := extending_endsAs hkept hoperand (by omega) henough (h.next hkept) rule left
          parser.next.1
        rw [ParseM.run_bind, ParseM.run_bind]
        generalize hrun : (rule.parse operand turns left parser.next.1).run parser.next.2 = parsed
          at hturn
        generalize (rule.parse another others left parser.next.1).run other.next.2 = given at hturn
        cases hturn with
        | endless => exact .endless
        | fault hafter => exact .fault (hafter.mono (Nat.sub_le _ _))
        | @ok longer after last hafter =>
          have hlonger := name?_of_extending hrun
          by_cases hmore : turns ≤ others ∨ within - 1 + 2 ≤ others
          · have hloop := ih (by omega)
              (hmore.imp id fun hleft => .inr ⟨hleft, hlonger⟩) hafter
            exact hloop.imp fun hlast => hlast.mono (Nat.sub_le _ _)
          · -- Too few turns are left only if nothing but end marks was to come.
            obtain ⟨rfl, hleft⟩ : within = 0 ∧ left.name? = none := by
              rcases hturns with hfew | hfew | ⟨hfew, hleft⟩
              · omega
              · omega
              · exact ⟨by omega, hleft⟩
            obtain ⟨final, hendless⟩ := extend_endless_of_extending hself h.ends h.left hrule
              (Nat.not_le.mp hlevel) hleft hrun
            simp only [hendless]
            exact .endless

/-- The beginning of an expression ends as it does with other operands. -/
theorem begin_endsAs (hkept : Kept kept)
    (hoperand : OperandsEndAs kept depth bound operand another)
    (hself : ∀ mark, OperandsEndAs (AtEnd mark) depth 0 operand operand) {others : Nat}
    (hturns : turns ≤ others ∨ bound + 3 ≤ others)
    (h : AlikeWithin kept depth bound parser other) :
    ((begin grammar operand level turns).run parser).EndsAs (AlikeWithin kept depth bound)
      ((begin grammar another level others).run other) := by
  have hnext := (h.next hkept).mono (Nat.sub_le bound 1)
  rw [begin, begin, ParseM.run_bind, ParseM.run_bind, run_consume, run_consume, ← h.token]
  cases hrule : grammar.prefixRule parser.next.1.kind with
  | none =>
    simp only [hrule]
    exact .fault hnext
  | some rule =>
    simp only [hrule]
    refine (starting_endsAs hkept hoperand hnext rule parser.next.1).bind
      fun {left after last} hafter => ?_
    exact extend_endsAs hkept hoperand hself le_rfl (hturns.imp id .inl) hafter

/-- An action one expression deeper ends as another does, if they do there. -/
theorem deeper_endsAs {action start : ParseM Expr} (hkept : Kept kept)
    (h : (action.run { parser with depth := parser.depth + 1 }).EndsAs
      (AlikeWithin kept (depth + 1) bound)
      (start.run { other with depth := other.depth + 1 })) :
    ((deeper action).run parser).EndsAs (AlikeWithin kept depth bound)
      ((deeper start).run other) := by
  refine h.deeper fun {after last} hafter => ?_
  rw [hafter.left, hafter.right]
  exact ⟨hafter.toAlike.nest hkept depth, hafter.ends⟩

/-- An expression ends as it does with other fuel, if that is more or enough. -/
theorem expression_endsAs (grammar : Grammar) (hkept : Kept kept) {fuel others : Nat}
    (hfuel : fuel ≤ others ∨
      ∃ limit, grammar.depthLimit = some limit ∧ bound + (limit - depth) + 2 ≤ others) :
    OperandsEndAs kept depth bound (expression grammar fuel) (expression grammar others) := by
  induction fuel generalizing kept depth bound others with
  | zero => exact fun level _ _ => .endless
  | succ fuel ih =>
    intro within parser other level hwithin h
    obtain ⟨others, rfl⟩ : ∃ less, others = less + 1 := ⟨others - 1, by omega⟩
    rw [expression_succ, expression_succ]
    by_cases hroom : ∀ limit ∈ grammar.depthLimit, depth + 1 ≤ limit
    · have hoperand : OperandsEndAs kept (depth + 1) within (expression grammar fuel)
          (expression grammar others) := by
        refine ih hkept (hfuel.imp (fun hle => by omega) ?_)
        rintro ⟨limit, hlimit, henough⟩
        have hlt := hroom limit hlimit
        exact ⟨limit, hlimit, by omega⟩
      have hself : ∀ mark, OperandsEndAs (AtEnd mark) (depth + 1) 0 (expression grammar fuel)
          (expression grammar fuel) := fun mark => ih (kept_atEnd mark) (.inl le_rfl)
      have hturns : fuel + 1 ≤ others + 1 ∨ within + 3 ≤ others + 1 := by
        refine hfuel.imp id ?_
        rintro ⟨limit, hlimit, henough⟩
        have hlt := hroom limit hlimit
        omega
      rw [nested_of_lt _ (by rwa [h.left]), nested_of_lt _ (by rwa [h.right])]
      apply deeper_endsAs hkept
      rw [h.left, h.right]
      exact begin_endsAs hkept hoperand hself hturns
        ⟨h.toAlike.nest hkept (depth + 1), h.ends⟩
    · obtain ⟨limit, hlimit, hlt⟩ : ∃ limit ∈ grammar.depthLimit, limit < depth + 1 := by
        simpa using hroom
      have hpeek := h.peek hkept
      rw [Option.mem_def.mp hlimit, run_nested_of_le _ (by rw [h.left]; omega),
        run_nested_of_le _ (by rw [h.right]; omega)]
      rw [h.token] at hpeek ⊢
      exact .fault hpeek

/-- A parse that ends does the same with more fuel. -/
theorem expression_of_le {fuel others : Nat} (hle : fuel ≤ others)
    (hends : ∀ last, (expression grammar fuel level).run parser ≠ .stop .endless last) :
    (expression grammar others level).run parser = (expression grammar fuel level).run parser := by
  have halike : AlikeWithin Eq parser.depth (parser.ahead.length + parser.supply.size) parser
      parser := ⟨⟨rfl, rfl, rfl, rfl⟩, parser.endsWithin_pending⟩
  have hrun := expression_endsAs grammar kept_eq (.inl hle) level le_rfl halike
  generalize (expression grammar fuel level).run parser = parsed at hrun hends ⊢
  generalize (expression grammar others level).run parser = given at hrun ⊢
  cases hrun with
  | endless => exact absurd rfl (hends _)
  | ok hafter => rw [hafter.kept]
  | fault hafter => rw [hafter.kept]

/-- A parse of a whole input that ends does the same with more fuel. -/
theorem whole_of_le {fuel others : Nat} (hle : fuel ≤ others)
    (hends : ∀ last, (whole grammar fuel).run parser ≠ .stop .endless last) :
    (whole grammar others).run parser = (whole grammar fuel).run parser := by
  have hexpr : ∀ last,
      (expression grammar fuel Power.lowest.level).run parser ≠ .stop .endless last := by
    intro last hrun
    exact hends last (by rw [whole, ParseM.run_bind, hrun])
  rw [whole, whole, ParseM.run_bind, ParseM.run_bind, expression_of_le hle hexpr]

/-- The fuel of a parser is enough for all tokens to come and all levels of nesting left. -/
theorem enough_fuel {limit : Nat} (parser : Parser) (hlimit : grammar.depthLimit = some limit) :
    parser.ahead.length + parser.supply.size + (limit - parser.depth) + 2 ≤
      parser.fuel grammar := by
  simp only [fuel, hlimit, Option.map_some, Option.getD_some]
  exact le_rfl

/-- Where nesting is limited, parsers that are alike give the same expression or fault and
are alike afterwards, unless the first is endless. -/
theorem parseExpr_endsAs {limit : Nat} (hlimit : grammar.depthLimit = some limit)
    (hkept : Kept kept) (h : Alike kept depth parser other) (level : Nat) :
    ((parseExpr grammar level).run parser).EndsAs (Alike kept depth)
      ((parseExpr grammar level).run other) := by
  have hends := other.endsWithin_pending
  rw [← h.pending] at hends
  have henough := other.enough_fuel hlimit
  rw [h.right] at henough
  rw [run_parseExpr, run_parseExpr]
  have hrun : OperandsEndAs kept depth (other.ahead.length + other.supply.size)
      (expression grammar (parser.fuel grammar)) (expression grammar (other.fuel grammar)) :=
    expression_endsAs grammar hkept (.inr ⟨limit, hlimit, henough⟩)
  exact (hrun level le_rfl ⟨h, hends⟩).imp AlikeWithin.toAlike

/-- A parse that is endless stays so with any other fuel. -/
theorem expression_endless {limit : Nat} (hlimit : grammar.depthLimit = some limit)
    (h : (parseExpr grammar level).run parser = .stop .endless after) (fuel : Nat) :
    ∃ last, (expression grammar fuel level).run parser = .stop .endless last := by
  have halike : AlikeWithin (fun _ _ => True) parser.depth
      (parser.ahead.length + parser.supply.size) parser parser :=
    ⟨⟨rfl, rfl, rfl, trivial⟩, parser.endsWithin_pending⟩
  have hrun : ((expression grammar fuel level).run parser).EndsAs _
      ((expression grammar (parser.fuel grammar) level).run parser) :=
    expression_endsAs grammar kept_true (.inr ⟨limit, hlimit, parser.enough_fuel hlimit⟩) level
      le_rfl halike
  rw [← run_parseExpr, h] at hrun
  generalize (expression grammar fuel level).run parser = parsed at hrun ⊢
  cases hrun
  exact ⟨_, rfl⟩

end Parser

end Precedence
