import Precedence.Proofs.History
import Precedence.Proofs.Program

/-!
# The depth of a parser

A parser counts the expressions it is inside of. Whatever is put together from elementary
actions leaves each expression that it enters, however it ends, and does not leave any other.
So the count is the same after every call as before it, and during the call it is never lower
than before and never beyond the limit. The main statement is `parseExpr_keeps_depth`.
-/

namespace Precedence

/-- Changes that leave each expression they enter and no other, and that are never inside of
more than `room` expressions at once. -/
inductive Change.Balanced : Nat → List Change → Prop where
  /-- Nothing happens. -/
  | nil {room} : Balanced room []
  /-- A token is taken or looked at first. -/
  | read {room change changes} (hchange : change = .take ∨ change = .look)
      (hchanges : Balanced room changes) : Balanced room (change :: changes)
  /-- An expression is entered first, and left again. -/
  | nest {room inside changes} (hinside : Balanced room inside)
      (hchanges : Balanced (room + 1) changes) :
      Balanced (room + 1) (.enter :: (inside ++ .leave :: changes))

namespace Change.Balanced

variable {room : Nat} {changes others : List Change}

/-- Balanced changes after balanced changes are balanced. -/
theorem append (h : Balanced room changes) (hothers : Balanced room others) :
    Balanced room (changes ++ others) := by
  induction h with
  | nil => exact hothers
  | read hchange _ ih => exact .read hchange (ih hothers)
  | nest hinside _ _ ih =>
    rw [List.cons_append, List.append_assoc, List.cons_append]
    exact .nest hinside (ih hothers)

/-- Neither taking a token nor looking at one changes the depth. -/
theorem depth_of_read {change : Change} (h : change = .take ∨ change = .look) (parser : Parser) :
    (change.apply parser).depth = parser.depth := by
  rcases h with rfl | rfl
  · exact parser.depth_next
  · exact parser.depth_reach 0

/-- Balanced changes leave the depth as it was. -/
theorem depth_eq (h : Balanced room changes) (parser : Parser) :
    (applyAll parser changes).depth = parser.depth := by
  induction h generalizing parser with
  | nil => rfl
  | read hchange _ ih => exact (ih _).trans (depth_of_read hchange parser)
  | @nest room inside changes _ _ ihinside ih =>
    have hinside := ihinside (enter.apply parser)
    rw [applyAll_cons, applyAll_append, applyAll_cons, ih]
    change (applyAll (enter.apply parser) inside).depth - 1 = parser.depth
    rw [hinside]
    rfl

/-- Between two of some balanced changes the depth is not lower than at the start and not
higher by more than the room there is, and where an expression is left it is higher. -/
theorem between (h : Balanced room changes) (parser : Parser) {done rest : List Change}
    (hsplit : changes = done ++ rest) :
    parser.depth ≤ (applyAll parser done).depth ∧
      (applyAll parser done).depth ≤ parser.depth + room ∧
      (rest.head? = some .leave → parser.depth < (applyAll parser done).depth) := by
  induction h generalizing parser done rest with
  | nil =>
    obtain ⟨rfl, rfl⟩ := List.append_eq_nil_iff.mp hsplit.symm
    simp
  | @read room change changes hchange _ ih =>
    cases done with
    | nil =>
      obtain rfl : change :: changes = rest := hsplit
      rcases hchange with rfl | rfl <;> simp
    | cons first done =>
      obtain ⟨rfl, hrest⟩ := List.cons.inj hsplit
      have hlater := ih (change.apply parser) hrest
      rwa [depth_of_read hchange] at hlater
  | @nest room inside changes hinside _ ihinside ih =>
    have hentered : (enter.apply parser).depth = parser.depth + 1 := rfl
    cases done with
    | nil =>
      obtain rfl : enter :: (inside ++ leave :: changes) = rest := hsplit
      simp
    | cons first done =>
      obtain ⟨rfl, hrest⟩ := List.cons.inj hsplit
      rw [applyAll_cons]
      rcases List.append_eq_append_iff.mp hrest with ⟨more, rfl, hmore⟩ | ⟨more, rfl, rfl⟩
      · have hdepth := hinside.depth_eq (enter.apply parser)
        rw [applyAll_append]
        cases more with
        | nil =>
          rw [applyAll_nil, hdepth, hentered]
          omega
        | cons last more =>
          -- The expression has been left, so what follows starts at the depth before it.
          obtain ⟨rfl, hlater⟩ := List.cons.inj hmore
          have hleft : (leave.apply (applyAll (enter.apply parser) inside)).depth =
              parser.depth := by
            change (applyAll (enter.apply parser) inside).depth - 1 = parser.depth
            omega
          have hlater := ih (leave.apply (applyAll (enter.apply parser) inside)) hlater
          rwa [hleft] at hlater
      · obtain ⟨hlow, hhigh, -⟩ := ihinside (enter.apply parser) rfl
        omega

end Change.Balanced

namespace Program

variable {α : Type} {action : ParseM α} {limit? : Option Nat} {limit : Nat}

/-- Whatever is put together from elementary actions makes balanced changes. -/
theorem balanced (program : Program limit? action) (hlimit : limit? = some limit)
    (parser : Parser) : Change.Balanced (limit - parser.depth) (program.changes parser) := by
  induction program generalizing parser with
  | pure | stop => exact .nil
  | consume => exact .read (.inl rfl) .nil
  | peek => exact .read (.inr rfl) .nil
  | @bind _ _ first second program next ih ihnext =>
    have hfirst := ih parser
    rw [changes]
    cases hrun : first.run parser with
    | ok value after =>
      have hsecond := ihnext value after
      rw [program.depth_of_ok hrun] at hsecond
      exact hfirst.append hsecond
    | stop reason after => exact hfirst.append .nil
  | @nested _ action inside ih =>
    subst hlimit
    rw [changes]
    split
    next => exact .read (.inr rfl) .nil
    next hlt =>
      have hroom : limit - parser.depth = limit - (parser.depth + 1) + 1 := by
        have : ¬limit ≤ parser.depth := fun hle => hlt (decide_eq_true hle)
        omega
      rw [hroom]
      exact .nest (ih (Change.enter.apply parser)) .nil

end Program

namespace Parser

variable {grammar : Grammar} {limit : Nat} {parser : Parser}

/-- At the limit a parse stops at the next token, which stays to come. -/
theorem parseExpr_of_ge (hlimit : grammar.depthLimit = some limit) (hdepth : limit ≤ parser.depth)
    (level : Nat) :
    (parseExpr grammar level).run parser =
      .stop (.fault ⟨.nestingTooDeep limit, parser.next.1.start⟩) (parser.reach 0).2 := by
  rw [run_parseExpr, fuel, expression_succ, hlimit]
  simp [nested, checkDepth, hdepth]

end Parser

/-- What can be done with a parser from outside. -/
inductive Operation where
  /-- A line is added to the grammar. -/
  | register (entry : Entry)
  /-- A step is taken. -/
  | perform (step : Step)
deriving DecidableEq, Repr, Inhabited

namespace Operation

/-- The grammar and the parser after an operation, whether it succeeds or not. -/
def run (state : Grammar × Parser) : Operation → Grammar × Parser
  | register entry => (state.1.add entry, state.2)
  | perform step => (state.1, (step.run state.1 state.2).2)

/-- The grammar and the parser after operations done one after the other. -/
def runAll (state : Grammar × Parser) (operations : List Operation) : Grammar × Parser :=
  operations.foldl run state

end Operation

/-- A reply leaves the parser where its action does. -/
theorem ParseM.snd_reply {α : Type} (action : ParseM α) (answer : α → Reply) (parser : Parser) :
    (action.reply answer parser).2 = (action.run parser).after := by
  unfold reply
  cases action.run parser <;> rfl

/-- No step changes the depth, not even one that fails. -/
theorem Step.depth_snd_run (grammar : Grammar) (parser : Parser) (step : Step) :
    (step.run grammar parser).2.depth = parser.depth := by
  cases step with
  | parse level =>
    rw [run, ParseM.snd_reply, Parser.run_parseExpr]
    exact (Parser.expressionProgram grammar _ level).depth_after_run parser
  | accept kind =>
    rw [run, ParseM.snd_reply]
    exact (Program.accept kind : Program none _).depth_after_run parser
  | expect kind =>
    rw [run, ParseM.snd_reply]
    exact (Program.expect kind : Program none _).depth_after_run parser
  | consume => exact parser.depth_next
  | lookAhead distance => exact parser.depth_reach distance
  | peekLevel =>
    rw [run, ParseM.snd_reply, Parser.run_peekLevel]
    exact parser.depth_next

/-- Whatever is done with a parser, its depth stays as it was. -/
theorem Operation.depth_runAll (operations : List Operation) (state : Grammar × Parser) :
    (runAll state operations).2.depth = state.2.depth := by
  induction operations generalizing state with
  | nil => rfl
  | cons operation operations ih =>
    cases operation with
    | register entry => exact ih (state.1.add entry, state.2)
    | perform step =>
      exact (ih (state.1, (step.run state.1 state.2).2)).trans
        (Step.depth_snd_run state.1 state.2 step)

/-- A parse that starts at a depth of at most 256 ends at the same depth, however it ends. It
is made of elementary changes, and between any two of them the depth is not lower than at the
start and at most 256; where an expression is left the depth is not 0. At the depth 256 the
parse stops since the nesting is too deep, and all tokens stay to come. So the depth is 0 after
all operations on a new parser, whether they succeed or not. -/
theorem parseExpr_keeps_depth (entries : List Entry) (level : Nat) {parser : Parser}
    (hdepth : parser.depth ≤ 256) :
    let grammar := Grammar.empty.addAll entries
    let parsed := (Parser.parseExpr grammar level).run parser
    let program := Parser.expressionProgram grammar (parser.fuel grammar) level
    parsed.after = Change.applyAll parser (program.changes parser) ∧
    parsed.after.depth = parser.depth ∧
    (∀ done rest, program.changes parser = done ++ rest →
      let now := Change.applyAll parser done
      parser.depth ≤ now.depth ∧ now.depth ≤ 256 ∧ (rest.head? = some .leave → 0 < now.depth)) ∧
    (parser.depth = 256 → ∃ after, after.pending = parser.pending ∧
      parsed = .stop (.fault ⟨.nestingTooDeep 256, parser.next.1.start⟩) after) ∧
    ∀ supply operations,
      (Operation.runAll (.empty, .ofSupply supply) operations).2.depth = 0 := by
  intro grammar parsed program
  have hlimit : grammar.depthLimit = some 256 := Grammar.depthLimit_addAll _ entries
  refine ⟨program.after_run parser, program.depth_after_run parser, ?_, ?_, ?_⟩
  · intro done rest hsplit now
    obtain ⟨hlow, hhigh, hleave⟩ := (program.balanced hlimit parser).between parser hsplit
    refine ⟨hlow, ?_, fun hrest => ?_⟩
    · change (Change.applyAll parser done).depth ≤ 256
      omega
    · exact Nat.zero_lt_of_lt (hleave hrest)
  · intro hfull
    refine ⟨(parser.reach 0).2, parser.pending_reach 0, ?_⟩
    exact Parser.parseExpr_of_ge hlimit (Nat.le_of_eq hfull.symm) level
  · intro supply operations
    exact Operation.depth_runAll operations (.empty, .ofSupply supply)

/-- In `-(a b` a closing parenthesis is missing, three expressions deep. All three are left. -/
theorem parseExpr_keeps_depth_unclosed :
    let parser : Parser := .ofSupply (.text (.ofText "-(a b"))
    let parsed := (Parser.parseExpr .standard 0).run parser
    let program := Parser.expressionProgram .standard (parser.fuel .standard) 0
    parser.depth ≤ 256 ∧
    program.changes parser = [.enter, .take, .enter, .take, .enter, .take, .look, .leave, .look,
      .leave, .leave] ∧
    parsed = .stop (.fault ⟨.unexpectedToken .closeParen .identifier, ⟨4, shell⟩⟩) parsed.after ∧
    parsed.after.depth = 0 := by
  intro parser parsed program
  obtain ⟨-, hafter, -⟩ :=
    parseExpr_keeps_depth Grammar.standardEntries 0 (show parser.depth ≤ 256 by decide)
  exact ⟨by decide, by decide +kernel, by decide +kernel, hafter⟩

end Precedence
