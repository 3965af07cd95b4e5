import Precedence.Proofs.DepthDiscipline
import Precedence.Proofs.NestingGuard

/-!
# How long a parse takes

The tokens to come never run out, so they do not bound a parse by themselves. What bounds it
is that end marks extend no expression: each turn of a loop takes one of the finitely many
other tokens, and an expression that starts with an end mark goes one level deeper. Each
token that is not an end mark pays for a price of elementary changes, and the price is higher
the more levels of nesting are left. The statements follow the programs of the parser; the
main one is `parseExpr_returns`.
-/

namespace Precedence

/-- No change adds to the tokens to come. -/
theorem Change.live_apply_le (change : Change) (parser : Parser) :
    (change.apply parser).live ≤ parser.live := by
  cases change with
  | take => exact parser.live_next_le
  | look => exact parser.live_unread_next
  | enter | leave => exact le_rfl

/-- No changes add to the tokens to come. -/
theorem Change.live_applyAll_le (changes : List Change) (parser : Parser) :
    (applyAll parser changes).live ≤ parser.live := by
  induction changes generalizing parser with
  | nil => exact le_rfl
  | cons change changes ih => exact Nat.le_trans (ih _) (change.live_apply_le parser)

/-- A token that was required is gone, and it was not an end mark unless asked for. -/
theorem Parser.live_lt_of_expect {kind : Kind} {parser after : Parser} {token : Token}
    (hkind : kind ≠ .endOfInput) (h : (expect kind).run parser = .ok token after) :
    after.live < parser.live := by
  rw [run_expect] at h
  split at h
  next hnext =>
    cases h
    exact live_next_lt (hnext ▸ hkind)
  next => cases h

namespace Program

variable {α β : Type} {limit? : Option Nat} {price base total : Nat} {action : ParseM α}
  {first : ParseM α} {second : α → ParseM β} {parser : Parser}

/-- No action adds to the tokens to come. -/
theorem live_after_run (program : Program limit? action) (parser : Parser) :
    (action.run parser).after.live ≤ parser.live := by
  rw [program.after_run]
  exact Change.live_applyAll_le _ parser

/-- An action whose changes are paid for: each token that it uses up pays for `price` of them,
and `base` are free. -/
def Affords (price base : Nat) (program : Program limit? action) (parser : Parser) : Prop :=
  (program.changes parser).length + price * (action.run parser).after.live ≤
    price * parser.live + base

/-- What is paid for at a low price is paid for at a higher one, and more may be free. -/
theorem Affords.mono {program : Program limit? action} (h : program.Affords price base parser)
    {other : Nat} (hprice : price ≤ other) (hbase : base ≤ total) :
    program.Affords other total parser := by
  obtain ⟨extra, rfl⟩ := Nat.exists_eq_add_of_le hprice
  have hlive := Nat.mul_le_mul_left extra (program.live_after_run parser)
  unfold Affords at h ⊢
  rw [Nat.add_mul, Nat.add_mul]
  omega

/-- Giving a value makes no changes. -/
theorem affords_pure (value : α) :
    (Program.pure value : Program limit? _).Affords price base parser := by
  change 0 + price * parser.live ≤ _
  omega

/-- Stopping makes no changes. -/
theorem affords_stop (reason : Stop) :
    (Program.stop reason : Program limit? (ParseM.stop reason : ParseM α)).Affords price base
      parser := by
  change 0 + price * parser.live ≤ _
  omega

/-- One action after another is paid for if both are. -/
theorem Affords.bind {program : Program limit? first}
    {next : ∀ value, Program limit? (second value)}
    (hprogram : program.Affords price base parser) (hbase : base ≤ total)
    (hnext : ∀ {value after}, first.run parser = .ok value after →
      (next value).Affords price (total - base) after) :
    (program.bind next).Affords price total parser := by
  unfold Affords at hprogram ⊢
  rw [changes, List.length_append, ParseM.run_bind]
  cases hrun : first.run parser with
  | ok value after =>
    have hsecond := hnext hrun
    unfold Affords at hsecond
    rw [hrun] at hprogram
    change _ + price * after.live ≤ _ at hprogram
    dsimp only
    omega
  | stop reason after =>
    rw [hrun] at hprogram
    change _ + price * after.live ≤ _ at hprogram
    change _ + 0 + price * after.live ≤ _
    omega

/-- One action after another is paid for if the first makes few changes and the second is paid
for, where a token that the first has used up pays for the second. -/
theorem Affords.bind_of_few {program : Program limit? first}
    {next : ∀ value, Program limit? (second value)}
    (hfew : (program.changes parser).length ≤ base) (hbase : base ≤ total)
    (hnext : ∀ {value after}, first.run parser = .ok value after →
      (next value).Affords price (total - base) after ∨
        after.live < parser.live ∧ (next value).Affords price (total + price - base) after) :
    (program.bind next).Affords price total parser := by
  have hlive := Nat.mul_le_mul_left price (program.live_after_run parser)
  unfold Affords
  rw [changes, List.length_append, ParseM.run_bind]
  cases hrun : first.run parser with
  | ok value after =>
    rw [hrun] at hlive
    change price * after.live ≤ _ at hlive
    dsimp only
    rcases hnext hrun with hsecond | ⟨hlt, hsecond⟩
    · unfold Affords at hsecond
      omega
    · have hprice : price * (after.live + 1) ≤ price * parser.live :=
        Nat.mul_le_mul_left price hlt
      rw [Nat.mul_add, Nat.mul_one] at hprice
      unfold Affords at hsecond
      omega
  | stop reason after =>
    rw [hrun] at hlive
    change price * after.live ≤ _ at hlive
    change _ + 0 + price * after.live ≤ _
    omega

/-- A choice is paid for if the action that is chosen is. -/
theorem Affords.ite {condition : Prop} [decision : Decidable condition] {other : ParseM α}
    {yes : Program limit? action} {no : Program limit? other}
    (hyes : condition → yes.Affords price base parser)
    (hno : ¬condition → no.Affords price base parser) :
    (Program.ite yes no : Program limit? (if condition then action else other)).Affords price base
      parser := by
  cases decision with
  | isTrue h => exact hyes h
  | isFalse h => exact hno h

/-- Taking a token is one change. -/
theorem affords_consume : (Program.consume : Program limit? _).Affords price 1 parser := by
  have hlive := Nat.mul_le_mul_left price parser.live_next_le
  change 1 + price * parser.next.2.live ≤ _
  omega

/-- A token that is taken and used up pays for what is done next. -/
theorem affords_consume_bind {second : Token → ParseM β}
    {next : ∀ token, Program limit? (second token)} (hkind : parser.next.1.kind ≠ .endOfInput)
    (hprice : 1 ≤ total + price)
    (hnext : (next parser.next.1).Affords price (total + price - 1) parser.next.2) :
    (Program.consume.bind next).Affords price total parser := by
  have hpaid : price * (parser.next.2.live + 1) ≤ price * parser.live :=
    Nat.mul_le_mul_left price (Parser.live_next_lt hkind)
  rw [Nat.mul_add, Nat.mul_one] at hpaid
  unfold Affords at hnext ⊢
  change ((next parser.next.1).changes parser.next.2).length + 1 +
    price * ((second parser.next.1).run parser.next.2).after.live ≤ _
  omega

/-- Accepting a token is two changes at most. -/
theorem length_changes_accept (kind : Kind) (parser : Parser) :
    ((Program.accept kind : Program limit? _).changes parser).length ≤ 2 := by
  have hpaid : (Program.accept kind : Program limit? _).Affords 0 2 parser := by
    refine .bind_of_few (Nat.le_refl 1) (by omega) fun _ => .inl (.ite (fun _ => ?_) fun _ => ?_)
    · exact affords_consume.bind le_rfl fun _ => affords_pure true
    · exact affords_pure false
  unfold Affords at hpaid
  omega

/-- Requiring a token is two changes at most. -/
theorem length_changes_expect (kind : Kind) (parser : Parser) :
    ((Program.expect kind : Program limit? _).changes parser).length ≤ 2 := by
  have hpaid : (Program.expect kind : Program limit? _).Affords 0 2 parser := by
    refine .bind_of_few (Nat.le_refl 1) (by omega) fun _ => .inl (.ite (fun _ => ?_) fun _ => ?_)
    · exact affords_consume
    · exact affords_stop _
  unfold Affords at hpaid
  omega

/-- An action one expression deeper is paid for if it is so there. -/
theorem Affords.nested {inside : Program limit? action}
    (h : ¬limit?.any (· ≤ parser.depth) = true →
      inside.Affords price base (Change.enter.apply parser)) :
    (Program.nested inside).Affords price (base + 2) parser := by
  unfold Affords
  rw [changes]
  split
  next hfull =>
    have hlive := Nat.mul_le_mul_left price (Change.look.live_apply_le parser)
    rw [Parser.after_nested_of_ge action hfull, List.length_singleton]
    omega
  next hroom =>
    have hinside := h hroom
    unfold Affords at hinside
    rw [Parser.after_nested_of_lt action hroom, List.length_cons, List.length_append,
      List.length_singleton]
    change _ + price * (action.run (Change.enter.apply parser)).after.live ≤ _
    change _ ≤ price * parser.live + base at hinside
    omega

end Program

section Rules

variable {limit? : Option Nat} {depth unit : Nat} {operand : Operand}
  {operands : ∀ level, Program limit? (operand level)} {parser : Parser}

/-- Operands are paid for at a depth: each makes at most `unit` changes that are free, and
`unit + 8` for each token that it uses up. -/
def OperandsAfford (operands : ∀ level, Program limit? (operand level)) (depth unit : Nat) : Prop :=
  ∀ level {parser : Parser}, parser.depth = depth →
    (operands level).Affords (unit + 8) unit parser

/-- A prefix rule is paid for if its operands are. -/
theorem PrefixRule.affords (hoperands : OperandsAfford operands depth unit) (token : Token)
    (rule : PrefixRule) (hdepth : parser.depth = depth) :
    (rule.program operands token).Affords (unit + 8) (unit + 2) parser := by
  cases rule with
  | name => exact Program.affords_pure _
  | group =>
    refine (hoperands _ hdepth).bind (by omega) fun _ => ?_
    refine .bind_of_few (Program.length_changes_expect _ _) (by omega) fun _ => .inl ?_
    exact Program.affords_pure _
  | operator power =>
    exact (hoperands _ hdepth).bind (by omega) fun _ => Program.affords_pure _

/-- Arguments are paid for if each of them is: every comma pays for the argument after it. -/
theorem Operand.affords_separated (hoperands : OperandsAfford operands depth unit) (turns : Nat)
    (hdepth : parser.depth = depth) :
    (separatedProgram operands turns).Affords (unit + 8) (unit + 2) parser := by
  induction turns generalizing parser with
  | zero => exact Program.affords_stop _
  | succ turns ih =>
    refine (hoperands _ hdepth).bind (by omega) fun {first after} hfirst => ?_
    have hafter := (operands _).depth_of_ok hfirst
    refine .bind_of_few (Program.length_changes_accept _ _) (by omega) fun {more last} hmore => ?_
    have hlast := (Program.accept .comma : Program limit? _).depth_of_ok hmore
    cases more with
    | false => exact .inl (.ite nofun fun _ => Program.affords_pure _)
    | true =>
      have hlt := Parser.live_lt_of_accept (by decide) hmore
      refine .inr ⟨hlt, .ite (fun _ => ?_) (fun hfalse => absurd rfl hfalse)⟩
      exact (ih (by omega)).bind (by omega) fun _ => Program.affords_pure _

/-- The arguments of a call are paid for if each of them is. -/
theorem Operand.affords_arguments (hoperands : OperandsAfford operands depth unit) (turns : Nat)
    (hdepth : parser.depth = depth) :
    (argumentsProgram operands turns).Affords (unit + 8) (unit + 6) parser := by
  refine .bind_of_few (Program.length_changes_accept _ _) (by omega) fun {closed after} hclosed =>
    .inl (.ite (fun _ => Program.affords_pure _) fun _ => ?_)
  have hafter := (Program.accept .closeParen : Program limit? _).depth_of_ok hclosed
  refine (affords_separated hoperands turns (by omega)).bind (by omega) fun _ => ?_
  refine .bind_of_few (Program.length_changes_expect _ _) (by omega) fun _ => .inl ?_
  exact Program.affords_pure _

/-- An infix rule is paid for if its operands are: the colon of a choice pays for what comes
after it. -/
theorem InfixRule.affords (hoperands : OperandsAfford operands depth unit) (turns : Nat)
    (left : Expr) (token : Token) (rule : InfixRule) (hdepth : parser.depth = depth) :
    (rule.program operands turns left token).Affords (unit + 8) (unit + 6) parser := by
  cases rule with
  | postfixed power => exact Program.affords_pure _
  | binary power associativity =>
    exact (hoperands _ hdepth).bind (by omega) fun _ => Program.affords_pure _
  | conditional =>
    refine (hoperands _ hdepth).bind (by omega) fun {yes after} hyes => ?_
    have hafter := (operands _).depth_of_ok hyes
    refine .bind_of_few (Program.length_changes_expect _ _) (by omega) fun {colon last} hcolon => ?_
    have hlast := (Program.expect .colon : Program limit? _).depth_of_ok hcolon
    have hlt := Parser.live_lt_of_expect (by decide) hcolon
    exact .inr ⟨hlt, (hoperands _ (by omega)).bind (by omega) fun _ => Program.affords_pure _⟩
  | call =>
    refine (Operand.affords_arguments hoperands turns hdepth).bind le_rfl fun _ => ?_
    exact Program.affords_pure _
  | assign =>
    refine (hoperands _ hdepth).bind (by omega) fun {value after} _ => ?_
    cases left.assignTo value token.start with
    | ok expr => exact Program.affords_pure _
    | error fault => exact Program.affords_stop _

/-- Extending an expression is paid for if the operands are: the token of each turn pays for
the turn, since it is no end mark. -/
theorem Parser.affords_extend {grammar : Grammar} (hend : grammar.infixRule .endOfInput = none)
    (hoperands : OperandsAfford operands depth unit) (level turns : Nat) (left : Expr)
    (hdepth : parser.depth = depth) :
    (extendProgram grammar operands level turns left).Affords (unit + 8) 1 parser := by
  induction turns generalizing parser left with
  | zero => exact Program.affords_stop _
  | succ turns ih =>
    refine .bind_of_few (Nat.le_refl 1) le_rfl fun {following after} hpeek => .inl ?_
    have hafter := (Program.peek : Program limit? _).depth_of_ok hpeek
    have hnext : after.next.1 = following := by
      cases hpeek
      rfl
    cases hrule : grammar.infixRule following.kind with
    | none => exact Program.affords_pure _
    | some rule =>
      have hkind : after.next.1.kind ≠ .endOfInput := by
        intro hmark
        rw [← hnext, hmark, hend] at hrule
        cases hrule
      refine .ite (fun _ => Program.affords_pure _) fun _ => ?_
      refine Program.affords_consume_bind hkind (by omega) ?_
      have hlast : after.next.2.depth = depth := by rw [depth_next, hafter, hdepth]
      have hturn := rule.affords hoperands turns left after.next.1 hlast
      refine hturn.bind (by omega) fun {longer final} hlonger => ?_
      have hfinal := (rule.program operands turns left after.next.1).depth_of_ok hlonger
      exact (ih longer (by omega)).mono le_rfl (by omega)

/-- What an expression does once its depth has been checked is paid for. -/
theorem Parser.affords_begin {grammar : Grammar} (hend : grammar.infixRule .endOfInput = none)
    (hoperands : OperandsAfford operands depth unit) (level turns : Nat)
    (hdepth : parser.depth = depth) :
    (beginProgram grammar operands level turns).Affords (unit + 8) (unit + 4) parser := by
  refine Program.affords_consume.bind (by omega) fun {token after} htoken => ?_
  have hafter := (Program.consume : Program limit? _).depth_of_ok htoken
  cases grammar.prefixRule token.kind with
  | none => exact Program.affords_stop _
  | some rule =>
    have hstart := rule.affords hoperands token (show after.depth = depth by omega)
    refine hstart.bind (by omega) fun {left last} hleft => ?_
    have hlast := (rule.program operands token).depth_of_ok hleft
    exact (affords_extend hend hoperands level turns left (by omega)).mono le_rfl (by omega)

end Rules

/-- An expression is paid for, whatever its fuel: the price goes up by eight with each level of
nesting that is left. -/
theorem Parser.affords_expression {grammar : Grammar} {limit : Nat}
    (hlimit : grammar.depthLimit = some limit) (hend : grammar.infixRule .endOfInput = none)
    (fuel level : Nat) (parser : Parser) {room : Nat} (hroom : limit - parser.depth = room) :
    (expressionProgram grammar fuel level).Affords (8 * room + 2) (8 * room + 2) parser := by
  induction fuel generalizing level parser room with
  | zero => exact Program.affords_stop _
  | succ fuel ih =>
    cases room with
    | zero =>
      refine .nested fun hlt => absurd ?_ hlt
      rw [hlimit]
      exact decide_eq_true (by omega)
    | succ room =>
      have hoperands : OperandsAfford (expressionProgram grammar fuel) (parser.depth + 1)
          (8 * room + 2) := by
        intro inner other hother
        exact (ih inner other (by omega)).mono (by omega) le_rfl
      have hinside : (expressionProgram grammar (fuel + 1) level).Affords (8 * room + 2 + 8)
          (8 * room + 2 + 4 + 2) parser :=
        .nested fun _ => affords_begin hend hoperands level (fuel + 1) rfl
      exact hinside.mono (by omega) (by omega)

/-- A parse gives an expression or a fault where no end mark extends an expression, whatever
else the grammar says, whatever tokens are to come and however deep the parser is. With more
fuel it does the same. And no fuel makes it do more elementary changes than the levels of
nesting that are left and the tokens to come allow. -/
theorem parseExpr_returns {entries : List Entry}
    (hend : (Grammar.empty.addAll entries).infixRule .endOfInput = none) (level : Nat)
    (parser : Parser) :
    let grammar := Grammar.empty.addAll entries
    let parsed := (Parser.parseExpr grammar level).run parser
    (∃ result, parsed.result? = some result) ∧
    (∀ fuel, parser.fuel grammar ≤ fuel →
      (Parser.expression grammar fuel level).run parser = parsed) ∧
    ∀ fuel, ((Parser.expressionProgram grammar fuel level).changes parser).length ≤
      (8 * (256 - parser.depth) + 2) * (parser.live + 1) := by
  intro grammar parsed
  have hlimit : grammar.depthLimit = some 256 := Grammar.depthLimit_addAll _ entries
  have hsettles := Parser.settles_parseExpr hlimit hend level parser
  refine ⟨hsettles.exists_result?, fun fuel hfuel => ?_, fun fuel => ?_⟩
  · exact Parser.expression_of_le hfuel hsettles.ne_endless
  · have hpaid := Parser.affords_expression hlimit hend fuel level parser rfl
    unfold Program.Affords at hpaid
    rw [Nat.mul_add, Nat.mul_one]
    omega

/-- Here end marks are operators before an operand, and a comma and a closing parenthesis extend
expressions. A parse that starts 250 levels deep takes two end marks and a sum, and then end
marks for ever until it is too deep. -/
theorem parseExpr_returns_marks :
    let grammar := Grammar.empty.addAll [.starting .identifier .name,
      .starting .endOfInput (.operator .sum), .extending .comma (.binary .sum .right),
      .extending .closeParen .call]
    let tokens : List Token := [.plain .endOfInput, .plain .endOfInput, .plain .identifier,
      .plain .comma]
    let parser : Parser := ⟨.list ⟨tokens, ⟨7, shell⟩⟩, [], 250⟩
    grammar.infixRule .endOfInput = none ∧
      ((Parser.parseExpr grammar 0).run parser).result? =
        some (.error ⟨.nestingTooDeep 256, ⟨7, shell⟩⟩) ∧
      ∀ fuel, ((Parser.expressionProgram grammar fuel 0).changes parser).length ≤ 250 := by
  intro grammar tokens parser
  have hend : grammar.infixRule .endOfInput = none := by decide
  exact ⟨hend, by decide +kernel, (parseExpr_returns hend 0 parser).2.2⟩

/-- Where an end mark extends an expression, a parse may go on for ever. -/
example : ((Parser.parseExpr (Grammar.empty.addAll [.starting .identifier .name,
    .extending .endOfInput (.postfixed .call)]) 0).run
    (.ofSupply (.text (.ofText "a")))).result? = none := by
  decide +kernel

end Precedence
