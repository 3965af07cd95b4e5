import Precedence.Proofs.LexedAhead
import Precedence.Proofs.Pulled

/-!
# Nothing is read after an end mark

Where no rule is for end marks, a parser that takes one has nothing left to do: it has found the
end of the input that it needs, or no expression starts there. Before, it looks at no token but the
next. So what a supply gives after its first end mark is never asked for. The statements follow the
programs of the parser; the main one is `parseTokens_reads_to_mark`.
-/

namespace Precedence

namespace Change

/-- No end mark is taken by changes that are made one after the other. -/
def Spare (parser : Parser) : List Change → Prop
  | [] => True
  | change :: changes =>
    (change = take → parser.next.1.kind ≠ .endOfInput) ∧ Spare (change.apply parser) changes

/-- If an end mark is taken by changes that are made one after the other, then expressions are left
and nothing else happens. -/
def Closed (parser : Parser) (changes : List Change) : Prop :=
  Spare parser changes ∨
    ∃ done count, changes = done ++ take :: List.replicate count leave ∧ Spare parser done

variable {parser : Parser} {changes others : List Change}

/-- No end mark is taken by a change that takes no token. -/
theorem spare_cons {change : Change} (hchange : change ≠ take)
    (h : Spare (change.apply parser) changes) : Spare parser (change :: changes) :=
  ⟨fun htake => absurd htake hchange, h⟩

/-- No end mark is taken by some changes and then others if none is by each of them. -/
theorem spare_append :
    Spare parser (changes ++ others) ↔
      Spare parser changes ∧ Spare (applyAll parser changes) others := by
  induction changes generalizing parser with
  | nil => simp [Spare]
  | cons change changes ih => rw [List.cons_append, Spare, Spare, ih, and_assoc, applyAll_cons]

/-- What is done before changes that end with an end mark takes none. -/
theorem Closed.append (h : Spare parser changes)
    (hothers : Closed (applyAll parser changes) others) : Closed parser (changes ++ others) := by
  rcases hothers with hothers | ⟨done, count, rfl, hdone⟩
  · exact .inl (spare_append.mpr ⟨h, hothers⟩)
  · exact .inr ⟨changes ++ done, count, (List.append_assoc _ _ _).symm, spare_append.mpr ⟨h, hdone⟩⟩

/-- An expression may be left at last. -/
theorem Closed.leave (h : Closed parser changes) : Closed parser (changes ++ [.leave]) := by
  rcases h with h | ⟨done, count, rfl, hdone⟩
  · exact .inl (spare_append.mpr ⟨h, spare_cons (by decide) trivial⟩)
  · refine .inr ⟨done, count + 1, ?_, hdone⟩
    rw [List.append_assoc, List.cons_append, ← List.replicate_succ']

/-- Leaving expressions takes nothing out. -/
theorem pulled_leaves (parser : Parser) (count : Nat) :
    pulled parser (List.replicate count leave) = [] := by
  induction count generalizing parser with
  | zero => rfl
  | succ count ih => exact ih _

end Change

namespace Program

variable {α β : Type} {limit? : Option Nat} {action first : ParseM α} {second : α → ParseM β}
  {parser : Parser} {kind : Kind}

/-- An action that takes no end mark if it gives a value, and does nothing after it has taken one
if it stops. -/
structure StopsAtMark (program : Program limit? action) (parser : Parser) : Prop where
  closed : Change.Closed parser (program.changes parser)
  spare : ∀ {value after}, action.run parser = .ok value after →
    Change.Spare parser (program.changes parser)

/-- An action that takes no end mark at all does nothing after one. -/
theorem StopsAtMark.of_spare {program : Program limit? action}
    (h : Change.Spare parser (program.changes parser)) : program.StopsAtMark parser :=
  ⟨.inl h, fun _ => h⟩

/-- Giving a value takes nothing. -/
theorem stopsAtMark_pure (value : α) :
    (Program.pure value : Program limit? _).StopsAtMark parser :=
  .of_spare trivial

/-- Stopping takes nothing. -/
theorem stopsAtMark_stop (reason : Stop) :
    (Program.stop reason : Program limit? (ParseM.stop reason : ParseM α)).StopsAtMark parser :=
  .of_spare trivial

/-- Looking at a token takes nothing. -/
theorem stopsAtMark_peek : (Program.peek : Program limit? _).StopsAtMark parser :=
  .of_spare (Change.spare_cons (by decide) trivial)

/-- A token that is no end mark may be taken. -/
theorem stopsAtMark_consume (h : parser.next.1.kind ≠ .endOfInput) :
    (Program.consume : Program limit? _).StopsAtMark parser :=
  .of_spare ⟨fun _ => h, trivial⟩

/-- Any token may be taken before the action stops. -/
theorem stopsAtMark_taken {second : Token → ParseM α}
    {next : ∀ token, Program limit? (second token)}
    (hchanges : (next parser.next.1).changes parser.next.2 = [])
    (hstop : ∀ value after, (second parser.next.1).run parser.next.2 ≠ .ok value after) :
    (Program.consume.bind next).StopsAtMark parser where
  closed := .inr ⟨[], 0, congrArg (Change.take :: ·) hchanges, trivial⟩
  spare hrun := absurd hrun (hstop _ _)

/-- What is done after an action that has given a value may end with an end mark. -/
theorem StopsAtMark.closed_bind {program : Program limit? first}
    {next : ∀ value, Program limit? (second value)} (h : program.StopsAtMark parser)
    (hnext : ∀ {value after}, first.run parser = .ok value after →
      Change.Closed after ((next value).changes after)) :
    Change.Closed parser ((program.bind next).changes parser) := by
  have hafter := program.after_run parser
  rw [changes]
  cases hrun : first.run parser with
  | ok value after =>
    rw [hrun] at hafter
    change after = _ at hafter
    exact .append (h.spare hrun) (hafter ▸ hnext hrun)
  | stop reason after => simpa using h.closed

/-- One action may follow another if both may be done. -/
theorem StopsAtMark.bind {program : Program limit? first}
    {next : ∀ value, Program limit? (second value)} (h : program.StopsAtMark parser)
    (hnext : ∀ {value after}, first.run parser = .ok value after →
      (next value).StopsAtMark after) : (program.bind next).StopsAtMark parser where
  closed := h.closed_bind fun hrun => (hnext hrun).closed
  spare hrun := by
    obtain ⟨value, after, hfirst, hsecond⟩ := ParseM.of_bind_ok hrun
    have hafter := program.after_run parser
    rw [hfirst] at hafter
    change after = _ at hafter
    rw [changes, hfirst]
    exact Change.spare_append.mpr ⟨h.spare hfirst, hafter ▸ (hnext hfirst).spare hsecond⟩

/-- A choice may be made if the action that is chosen may be done. -/
theorem StopsAtMark.ite {condition : Prop} [decision : Decidable condition] {other : ParseM α}
    {yes : Program limit? action} {no : Program limit? other}
    (hyes : condition → yes.StopsAtMark parser) (hno : ¬condition → no.StopsAtMark parser) :
    (Program.ite yes no : Program limit? (if condition then action else other)).StopsAtMark
      parser := by
  cases decision with
  | isTrue h => exact hyes h
  | isFalse h => exact hno h

/-- A token of a kind may be accepted unless end marks are of that kind. -/
theorem stopsAtMark_accept (hkind : kind ≠ .endOfInput) :
    (Program.accept kind : Program limit? _).StopsAtMark parser := by
  refine stopsAtMark_peek.bind fun {token after} hpeek => ?_
  cases hpeek
  refine .ite (fun htoken => ?_) fun _ => stopsAtMark_pure false
  exact (stopsAtMark_consume (htoken ▸ hkind)).bind fun _ => stopsAtMark_pure true

/-- A token of a kind may be required unless end marks are of that kind. -/
theorem stopsAtMark_expect (hkind : kind ≠ .endOfInput) :
    (Program.expect kind : Program limit? _).StopsAtMark parser := by
  refine stopsAtMark_peek.bind fun {token after} hpeek => ?_
  cases hpeek
  exact .ite (fun htoken => stopsAtMark_consume (htoken ▸ hkind)) fun _ => stopsAtMark_stop _

/-- After a choice nothing is done after an end mark if nothing is either way. -/
theorem closed_ite {condition : Prop} [decision : Decidable condition] {other : ParseM α}
    {yes : Program limit? action} {no : Program limit? other}
    (hyes : Change.Closed parser (yes.changes parser))
    (hno : Change.Closed parser (no.changes parser)) :
    Change.Closed parser ((Program.ite yes no :
      Program limit? (if condition then action else other)).changes parser) := by
  cases decision with
  | isTrue => exact hyes
  | isFalse => exact hno

/-- Whatever token is required, nothing is done after it has been taken. -/
theorem closed_expect (kind : Kind) (parser : Parser) :
    Change.Closed parser ((Program.expect kind : Program limit? _).changes parser) :=
  stopsAtMark_peek.closed_bind fun _ => closed_ite (.inr ⟨[], 0, rfl, trivial⟩) (.inl trivial)

/-- A value that is given at last is no change. -/
theorem changes_bind_pure (program : Program limit? first) (value : β) (parser : Parser) :
    Program.changes (program.bind fun _ => .pure value) parser = program.changes parser := by
  rw [changes]
  cases first.run parser <;> exact List.append_nil _

/-- An action may be done one expression deeper. -/
theorem StopsAtMark.nested {inside : Program limit? action}
    (h : inside.StopsAtMark (Change.enter.apply parser)) :
    (Program.nested inside).StopsAtMark parser := by
  by_cases hfull : limit?.any (· ≤ parser.depth) = true
  · apply of_spare
    rw [changes, if_pos hfull]
    exact Change.spare_cons (by decide) trivial
  · constructor
    · have henter : Change.Spare parser [.enter] :=
        Change.spare_cons (by decide) trivial
      rw [changes, if_neg hfull]
      exact .append henter h.closed.leave
    · intro value after hrun
      rw [Parser.nested_of_not_full action hfull] at hrun
      rw [changes, if_neg hfull]
      simp only [Parser.deeper] at hrun
      cases hinside : action.run { parser with depth := parser.depth + 1 } with
      | ok found last =>
        refine Change.spare_cons (by decide) (Change.spare_append.mpr ⟨h.spare hinside, ?_⟩)
        exact Change.spare_cons (by decide) trivial
      | stop reason last =>
        rw [hinside] at hrun
        cases hrun

end Program

section Rules

variable {limit? : Option Nat} {operand : Operand}
  {operands : ∀ level, Program limit? (operand level)}

/-- Operands that take no end mark if they give a value, and do nothing after one if they stop. -/
def OperandsStopAtMark (operands : ∀ level, Program limit? (operand level)) : Prop :=
  ∀ level parser, (operands level).StopsAtMark parser

/-- No prefix rule reads on after an end mark. -/
theorem PrefixRule.stopsAtMark (hoperands : OperandsStopAtMark operands) (token : Token)
    (rule : PrefixRule) (parser : Parser) : (rule.program operands token).StopsAtMark parser := by
  cases rule with
  | name => exact Program.stopsAtMark_pure _
  | group =>
    exact (hoperands _ _).bind fun _ => (Program.stopsAtMark_expect (by decide)).bind fun _ =>
      Program.stopsAtMark_pure _
  | operator power => exact (hoperands _ _).bind fun _ => Program.stopsAtMark_pure _

/-- Arguments are not read on after an end mark. -/
theorem Operand.separated_stopsAtMark (hoperands : OperandsStopAtMark operands) (turns : Nat)
    (parser : Parser) : (Operand.separatedProgram operands turns).StopsAtMark parser := by
  induction turns generalizing parser with
  | zero => exact Program.stopsAtMark_stop _
  | succ turns ih =>
    refine (hoperands _ _).bind fun _ => (Program.stopsAtMark_accept (by decide)).bind fun _ => ?_
    exact .ite (fun _ => (ih _).bind fun _ => Program.stopsAtMark_pure _)
      fun _ => Program.stopsAtMark_pure _

/-- No call is read on after an end mark. -/
theorem Operand.arguments_stopsAtMark (hoperands : OperandsStopAtMark operands) (turns : Nat)
    (parser : Parser) : (Operand.argumentsProgram operands turns).StopsAtMark parser := by
  refine (Program.stopsAtMark_accept (by decide)).bind fun _ => ?_
  refine .ite (fun _ => Program.stopsAtMark_pure _) fun _ => ?_
  exact (separated_stopsAtMark hoperands turns _).bind fun _ =>
    (Program.stopsAtMark_expect (by decide)).bind fun _ => Program.stopsAtMark_pure _

/-- No infix rule reads on after an end mark. -/
theorem InfixRule.stopsAtMark (hoperands : OperandsStopAtMark operands) (turns : Nat)
    (left : Expr) (token : Token) (rule : InfixRule) (parser : Parser) :
    (rule.program operands turns left token).StopsAtMark parser := by
  cases rule with
  | postfixed power => exact Program.stopsAtMark_pure _
  | binary power associativity => exact (hoperands _ _).bind fun _ => Program.stopsAtMark_pure _
  | conditional =>
    refine (hoperands _ _).bind fun _ => (Program.stopsAtMark_expect (by decide)).bind fun _ => ?_
    exact (hoperands _ _).bind fun _ => Program.stopsAtMark_pure _
  | call =>
    exact (Operand.arguments_stopsAtMark hoperands turns _).bind fun _ =>
      Program.stopsAtMark_pure _
  | assign =>
    refine (hoperands _ _).bind fun {value after} _ => ?_
    cases left.assignTo value token.start with
    | ok expr => exact Program.stopsAtMark_pure _
    | error fault => exact Program.stopsAtMark_stop _

end Rules

namespace Parser

variable {grammar : Grammar} {operand : Operand}
  {operands : ∀ level, Program grammar.depthLimit (operand level)}

/-- An expression that an end mark does not extend is not extended after one. -/
theorem extend_stopsAtMark (hextend : grammar.infixRule .endOfInput = none)
    (hoperands : OperandsStopAtMark operands) (level turns : Nat) (left : Expr)
    (parser : Parser) :
    (extendProgram grammar operands level turns left).StopsAtMark parser := by
  induction turns generalizing left parser with
  | zero => exact Program.stopsAtMark_stop _
  | succ turns ih =>
    refine Program.stopsAtMark_peek.bind fun {token after} hpeek => ?_
    cases hpeek
    cases hrule : grammar.infixRule (parser.reach 0).1.kind with
    | none => exact Program.stopsAtMark_pure _
    | some rule =>
      have hkind : (parser.reach 0).2.next.1.kind ≠ .endOfInput := by
        intro hend
        rw [show (parser.reach 0).1.kind = .endOfInput from hend, hextend] at hrule
        cases hrule
      refine .ite (fun _ => Program.stopsAtMark_pure _) fun _ => ?_
      refine (Program.stopsAtMark_consume hkind).bind fun _ => ?_
      exact (rule.stopsAtMark hoperands turns left _ _).bind fun _ => ih _ _

/-- An expression that does not begin with an end mark is not read on after one. -/
theorem begin_stopsAtMark (hstart : grammar.prefixRule .endOfInput = none)
    (hextend : grammar.infixRule .endOfInput = none) (hoperands : OperandsStopAtMark operands)
    (level turns : Nat) (parser : Parser) :
    (beginProgram grammar operands level turns).StopsAtMark parser := by
  by_cases hkind : parser.next.1.kind = .endOfInput
  · have hrule : grammar.prefixRule parser.next.1.kind = none := hkind ▸ hstart
    apply Program.stopsAtMark_taken
    · cases hfound : grammar.prefixRule parser.next.1.kind with
      | none => rfl
      | some rule => simp [hrule] at hfound
    · simp [hrule]
  · refine (Program.stopsAtMark_consume hkind).bind fun {token after} _ => ?_
    cases grammar.prefixRule token.kind with
    | none => exact Program.stopsAtMark_stop _
    | some rule =>
      exact (rule.stopsAtMark hoperands _ _).bind fun _ =>
        extend_stopsAtMark hextend hoperands level turns _ _

/-- No expression is read on after an end mark. -/
theorem expression_stopsAtMark (hstart : grammar.prefixRule .endOfInput = none)
    (hextend : grammar.infixRule .endOfInput = none) (fuel : Nat) :
    OperandsStopAtMark (expressionProgram grammar fuel) := by
  induction fuel with
  | zero => exact fun _ _ => Program.stopsAtMark_stop _
  | succ fuel ih =>
    exact fun level _ => (begin_stopsAtMark hstart hextend ih level (fuel + 1) _).nested

/-- Nothing is done after an end mark when a whole input is parsed. -/
theorem closed_whole (hstart : grammar.prefixRule .endOfInput = none)
    (hextend : grammar.infixRule .endOfInput = none) (fuel : Nat) (parser : Parser) :
    Change.Closed parser ((wholeProgram grammar fuel).changes parser) := by
  refine (expression_stopsAtMark hstart hextend fuel _ parser).closed_bind
    fun {expr after} _ => ?_
  rw [Program.changes_bind_pure]
  exact Program.closed_expect _ _

/-- Where nesting is limited, a parse of a whole input does the same with more fuel. -/
theorem run_whole_of_le {limit fuel : Nat} (hlimit : grammar.depthLimit = some limit)
    (hextend : grammar.infixRule .endOfInput = none) (parser : Parser)
    (hle : parser.fuel grammar ≤ fuel) :
    (whole grammar fuel).run parser = (parseAll grammar).run parser := by
  rw [run_parseAll_eq_whole]
  exact whole_of_le hle (settles_parseAll hlimit hextend parser).ne_endless

end Parser

/-- The tokens that a supply gives first start with its next one. -/
theorem Supply.eq_cons_of_stream {supply : Supply} {left : List Token} {rest : Stream' Token}
    (hne : left ≠ []) (h : supply.stream = left ++ₛ rest) :
    ∃ more, left = supply.next.1 :: more ∧ supply.next.2.stream = more ++ₛ rest := by
  obtain ⟨first, more, rfl⟩ := List.exists_cons_of_ne_nil hne
  rw [Supply.stream_eq] at h
  obtain ⟨rfl, hrest⟩ := Stream'.cons_injective2 h
  exact ⟨more, rfl, hrest⟩

namespace Parser

variable {left more : List Token} {rest : Stream' Token} {parser : Parser} {change : Change}
  {changes : List Change}

/-- An end mark is among the tokens that have been read ahead and those that the supply gives before
`rest`. -/
structure HasMark (left : List Token) (rest : Stream' Token) (parser : Parser) : Prop where
  stream : parser.supply.stream = left ++ₛ rest
  mark : ∃ token ∈ parser.ahead ++ left, token.kind = .endOfInput

/-- While an end mark is to come, a change takes nothing from after it, and leaves the mark unless
it takes one. -/
theorem HasMark.apply (h : HasMark left rest parser) (change : Change) :
    ∃ more, left = change.pulls parser ++ more ∧
      ((change = .take → parser.next.1.kind ≠ .endOfInput) →
        HasMark more rest (change.apply parser)) := by
  obtain ⟨supply, ahead, depth⟩ := parser
  obtain ⟨hstream, token, htoken, hkind⟩ := h
  -- A token comes from the supply only if none has been read ahead, and then the mark is to come
  -- from there as well.
  cases change with
  | enter | leave => exact ⟨left, rfl, fun _ => ⟨hstream, token, htoken, hkind⟩⟩
  | take =>
    cases ahead with
    | cons first ahead =>
      refine ⟨left, rfl, fun hfirst => ⟨hstream, token, ?_, hkind⟩⟩
      exact (List.mem_cons.mp htoken).resolve_left fun heq => hfirst rfl (heq ▸ hkind)
    | nil =>
      obtain ⟨more, rfl, hrest⟩ := Supply.eq_cons_of_stream (List.ne_nil_of_mem htoken) hstream
      refine ⟨more, rfl, fun hfirst => ⟨hrest, token, ?_, hkind⟩⟩
      exact (List.mem_cons.mp htoken).resolve_left fun heq => hfirst rfl (heq ▸ hkind)
  | look =>
    cases ahead with
    | cons first ahead => exact ⟨left, rfl, fun _ => ⟨hstream, token, htoken, hkind⟩⟩
    | nil =>
      obtain ⟨more, rfl, hrest⟩ := Supply.eq_cons_of_stream (List.ne_nil_of_mem htoken) hstream
      exact ⟨more, rfl, fun _ => ⟨hrest, token, htoken, hkind⟩⟩

/-- While no end mark is taken, one remains. -/
theorem HasMark.applyAll (h : HasMark left rest parser) (hspare : Change.Spare parser changes) :
    ∃ more, left = Change.pulled parser changes ++ more ∧
      HasMark more rest (Change.applyAll parser changes) := by
  induction changes generalizing parser left with
  | nil => exact ⟨left, rfl, h⟩
  | cons change changes ih =>
    obtain ⟨middle, rfl, hkeep⟩ := h.apply change
    obtain ⟨more, rfl, hafter⟩ := ih (hkeep hspare.1) hspare.2
    exact ⟨more, by rw [Change.pulled, List.append_assoc], hafter⟩

/-- Changes after which nothing is done take nothing from after an end mark. -/
theorem HasMark.pulled_isPrefix (h : HasMark left rest parser)
    (hclosed : Change.Closed parser changes) : Change.pulled parser changes <+: left := by
  rcases hclosed with hspare | ⟨done, count, rfl, hspare⟩
  · obtain ⟨more, rfl, -⟩ := h.applyAll hspare
    exact List.prefix_append _ _
  · obtain ⟨middle, rfl, hmark⟩ := h.applyAll hspare
    obtain ⟨more, rfl, -⟩ := hmark.apply .take
    rw [Change.pulled_append, Change.pulled, Change.pulled_leaves, List.append_nil]
    exact ⟨more, List.append_assoc _ _ _⟩

end Parser

namespace Change

variable {parser : Parser} {changes : List Change} {left more later : List Token}
  {stop : Position}

/-- What changes take out of a list of tokens is taken from its start. -/
theorem supply_applyAll_list (hsupply : parser.supply = .list ⟨left ++ later, stop⟩)
    (hleft : left = pulled parser changes ++ more) :
    (applyAll parser changes).supply = .list ⟨more ++ later, stop⟩ := by
  rw [supply_applyAll, hsupply, hleft, List.append_assoc, Supply.drop_list]

end Change

/-- A parse of a whole input ends alike on supplies that give the same tokens up to an end mark. -/
theorem Parser.parseAll_endsAs_of_mark {grammar : Grammar} {limit : Nat}
    (hlimit : grammar.depthLimit = some limit) (hstart : grammar.prefixRule .endOfInput = none)
    (hextend : grammar.infixRule .endOfInput = none) {supply other : Supply} {left : List Token}
    {rest others : Stream' Token} (hsupply : supply.stream = left ++ₛ rest)
    (hother : other.stream = left ++ₛ others) (hmark : ∃ token ∈ left, token.kind = .endOfInput) :
    ((parseAll grammar).run (.ofSupply supply)).EndsAs (fun _ _ => True)
      ((parseAll grammar).run (.ofSupply other)) := by
  -- Both runs are compared with the larger fuel, which changes neither.
  obtain ⟨fuel, hfirst, hsecond⟩ : ∃ fuel, (ofSupply supply).fuel grammar ≤ fuel ∧
      (ofSupply other).fuel grammar ≤ fuel := ⟨max _ _, le_max_left _ _, le_max_right _ _⟩
  have hclosed := closed_whole hstart hextend fuel (.ofSupply supply)
  have hmarked : HasMark left rest (.ofSupply supply) := ⟨hsupply, hmark⟩
  obtain ⟨more, hmore⟩ := hmarked.pulled_isPrefix hclosed
  have htwins : Twins (Change.pulled (ofSupply supply)
      ((wholeProgram grammar fuel).changes (.ofSupply supply)) ++ more) others
      (.ofSupply supply) (.ofSupply other) := ⟨rfl, rfl, hmore ▸ hother⟩
  have hends := (wholeProgram grammar fuel).run_endsAs htwins
  rw [run_whole_of_le hlimit hextend _ hfirst, run_whole_of_le hlimit hextend _ hsecond] at hends
  exact hends.imp fun _ => trivial

/-- Nothing after an end mark is looked at, whatever stands before it and whatever the mark looks
like. Tokens that come later change nothing, nor does the place of the end marks that the list gives
of itself, and every token that is taken out of the list comes before the end of the mark. -/
theorem parseTokens_reads_to_mark (tokens later : List Token) {mark : Token}
    (hmark : mark.kind = .endOfInput) (stop : Position) :
    let supply : Supply := .list ⟨tokens ++ mark :: later, stop⟩
    let parser := Parser.ofSupply supply
    let program := Parser.wholeProgram .standard (parser.fuel .standard)
    let parsed := (Parser.parseAll .standard).run parser
    parseTokens (tokens ++ mark :: later) = parseTokens (tokens ++ [mark]) ∧
    parse supply = parseTokens (tokens ++ [mark]) ∧
    parsed.after = Change.applyAll parser (program.changes parser) ∧
    ∃ unread, Change.pulled parser (program.changes parser) ++ unread = tokens ++ [mark] ∧
      parsed.after.supply = .list ⟨unread ++ later, stop⟩ := by
  intro supply parser program parsed
  have hlist : tokens ++ mark :: later = tokens ++ [mark] ++ later := by simp
  have hmem : ∃ token ∈ tokens ++ [mark], token.kind = .endOfInput := ⟨mark, by simp, hmark⟩
  have hstream : ∀ last, ∃ rest,
      (Supply.list ⟨tokens ++ mark :: later, last⟩).stream = tokens ++ [mark] ++ₛ rest := by
    intro last
    rw [Supply.stream_list, hlist, Stream'.append_append_stream]
    exact ⟨_, rfl⟩
  have hparse : ∀ last, parse (.list ⟨tokens ++ mark :: later, last⟩) =
      parseTokens (tokens ++ [mark]) := by
    intro last
    obtain ⟨rest, hrest⟩ := hstream last
    have hshort := Supply.stream_list (.ofList (tokens ++ [mark]))
    exact parse_eq_of_endsAs (Parser.parseAll_endsAs_of_mark rfl rfl rfl hrest hshort hmem)
  have hafter : parsed.after = Change.applyAll parser (program.changes parser) :=
    program.after_run parser
  obtain ⟨rest, hrest⟩ := hstream stop
  have hmarked : Parser.HasMark (tokens ++ [mark]) rest parser := ⟨hrest, hmem⟩
  have hclosed : Change.Closed parser (program.changes parser) := Parser.closed_whole rfl rfl _ _
  obtain ⟨unread, hunread⟩ := hmarked.pulled_isPrefix hclosed
  refine ⟨hparse _, hparse stop, hafter, unread, hunread, ?_⟩
  rw [hafter]
  exact Change.supply_applyAll_list (by rw [← hlist]; rfl) hunread.symm

/-- Where an end mark stands in place of an operand, it is the mark that is reported, and the
operand that comes after it is left in the list. -/
theorem parseTokens_reads_to_mark_sum :
    let token (kind : Kind) (value : String) : Token := ⟨kind, value, default⟩
    let tokens := [token .identifier "a", token .plus "+"]
    let mark : Token := ⟨.endOfInput, "stop", ⟨⟨7, "notes"⟩, ⟨3, "notes"⟩⟩⟩
    let later := [token .identifier "b", mark, token .star "*"]
    let parser := Parser.ofSupply (.list ⟨tokens ++ mark :: later, .null⟩)
    mark.kind = .endOfInput ∧
    parseTokens (tokens ++ mark :: later) = .error ⟨.noPrefixRule "stop", ⟨7, "notes"⟩⟩ ∧
    ((Parser.parseAll .standard).run parser).after.supply = .list ⟨later, .null⟩ := by
  intro token tokens mark later parser
  have hmark : mark.kind = .endOfInput := rfl
  obtain ⟨hparse, -⟩ := parseTokens_reads_to_mark tokens later hmark .null
  exact ⟨hmark, hparse.trans (by decide +kernel), by decide +kernel⟩

end Precedence
