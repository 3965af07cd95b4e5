import Precedence.Proofs.DepthDiscipline
import Precedence.Proofs.EndMark

/-!
# How far a parser reads ahead

A parser keeps the tokens that it has read and not yet consumed. Looking ahead reads one token after
the other until there are enough of them, and everything else that a parser does is made of looks at
the next token. So at no time are more tokens kept than somebody has asked to see, and a parse keeps
at most one. The changes of a run come first, then looks further ahead, then the points that a step
goes through. The main statement is `Step.ahead_bounded`.
-/

namespace Precedence

namespace Change

/-- No change makes a parser keep more than one token, unless it keeps more already. -/
theorem length_ahead_apply_le (change : Change) (parser : Parser) :
    (change.apply parser).ahead.length ≤ max parser.ahead.length 1 := by
  cases change with
  | take =>
    have hnext := parser.length_ahead_next
    change parser.next.2.ahead.length ≤ _
    omega
  | look => exact Nat.le_of_eq (parser.length_ahead_reach 0)
  | enter | leave => exact Nat.le_max_left _ _

/-- No changes make a parser keep more than one token, unless it keeps more already. -/
theorem length_ahead_applyAll_le (changes : List Change) (parser : Parser) :
    (applyAll parser changes).ahead.length ≤ max parser.ahead.length 1 := by
  induction changes generalizing parser with
  | nil => exact Nat.le_max_left _ _
  | cons change changes ih =>
    have hfirst := change.length_ahead_apply_le parser
    have hrest := ih (change.apply parser)
    rw [applyAll_cons]
    omega

/-- Somewhere while changes are made, the parser is `now`. -/
def Passes (parser : Parser) (changes : List Change) (now : Parser) : Prop :=
  ∃ done, done <+: changes ∧ now = applyAll parser done

/-- While changes are made, no more than one token is kept, unless more are kept already. -/
theorem Passes.length_ahead_le {parser now : Parser} {changes : List Change}
    (h : Passes parser changes now) : now.ahead.length ≤ max parser.ahead.length 1 := by
  obtain ⟨done, -, rfl⟩ := h
  exact length_ahead_applyAll_le done parser

/-- Changes start where they are made. -/
theorem passes_start (parser : Parser) (changes : List Change) : Passes parser changes parser :=
  ⟨[], List.nil_prefix, rfl⟩

end Change

namespace Parser

/-- Reads some tokens, one after the other, behind those that are kept. -/
def pull : Nat → Parser → Parser
  | 0, parser => parser
  | count + 1, parser =>
    let (token, supply) := parser.supply.next
    pull count { parser with supply, ahead := parser.ahead ++ [token] }

/-- Each token that is read is kept. -/
theorem length_ahead_pull (count : Nat) (parser : Parser) :
    (parser.pull count).ahead.length = parser.ahead.length + count := by
  induction count generalizing parser with
  | zero => rfl
  | succ count ih =>
    rw [pull, ih, List.length_append, List.length_singleton]
    omega

/-- A token may be put back in front before others are read behind. -/
theorem unread_pull (count : Nat) (parser : Parser) (token : Token) :
    (parser.pull count).unread token = (parser.unread token).pull count := by
  induction count generalizing parser with
  | zero => rfl
  | succ count ih => exact ih _

/-- Looking ahead reads one token after the other behind those that are kept, until there are
enough. -/
theorem reach_eq_pull (parser : Parser) (distance : Nat) :
    (parser.reach distance).2 = parser.pull (distance + 1 - parser.ahead.length) := by
  obtain ⟨supply, ahead, depth⟩ := parser
  induction distance generalizing supply ahead with
  | zero =>
    cases ahead with
    | nil => rfl
    | cons token ahead =>
      have henough : 0 + 1 - (token :: ahead).length = 0 := by simp
      rw [henough]
      rfl
  | succ distance ih =>
    cases ahead with
    | nil =>
      change ((reach distance ⟨supply.next.2, [], depth⟩).2.unread supply.next.1) = _
      rw [ih, unread_pull]
      rfl
    | cons token ahead =>
      change ((reach distance ⟨supply, ahead, depth⟩).2.unread token) = _
      rw [ih, unread_pull, List.length_cons, Nat.succ_sub_succ]
      rfl

end Parser

/-- An action ends after all of its changes. -/
theorem Program.passes_after {limit? : Option Nat} {α : Type} {action : ParseM α}
    (program : Program limit? action) (parser : Parser) :
    Change.Passes parser (program.changes parser) (action.run parser).after :=
  ⟨_, List.prefix_rfl, program.after_run parser⟩

namespace Step

variable {grammar : Grammar} {parser now : Parser}

/-- Somewhere in a step, between two elementary changes or before or after them, the parser is
`now`. To look ahead is to read one token after the other. -/
def Passes (grammar : Grammar) (parser now : Parser) : Step → Prop
  | parse level =>
    let program := Parser.expressionProgram grammar (parser.fuel grammar) level
    Change.Passes parser (program.changes parser) now
  | accept kind =>
    let program : Program grammar.depthLimit _ := .accept kind
    Change.Passes parser (program.changes parser) now
  | expect kind =>
    let program : Program grammar.depthLimit _ := .expect kind
    Change.Passes parser (program.changes parser) now
  | consume => Change.Passes parser [.take] now
  | lookAhead distance =>
    ∃ count ≤ distance + 1 - parser.ahead.length, now = parser.pull count
  | peekLevel =>
    let program : Program grammar.depthLimit _ := .peekLevel grammar
    Change.Passes parser (program.changes parser) now

/-- A step starts with the parser as it is. -/
theorem passes_start (grammar : Grammar) (parser : Parser) (step : Step) :
    step.Passes grammar parser parser := by
  cases step with
  | lookAhead distance => exact ⟨0, Nat.zero_le _, rfl⟩
  | _ => exact Change.passes_start parser _

/-- A step ends with the parser that it leaves. -/
theorem passes_run (grammar : Grammar) (parser : Parser) (step : Step) :
    step.Passes grammar parser (step.run grammar parser).2 := by
  cases step with
  | parse level =>
    rw [run, ParseM.snd_reply, Parser.run_parseExpr]
    exact (Parser.expressionProgram grammar _ level).passes_after parser
  | accept kind =>
    rw [run, ParseM.snd_reply]
    exact (Program.accept kind).passes_after parser
  | expect kind =>
    rw [run, ParseM.snd_reply]
    exact (Program.expect kind).passes_after parser
  | consume => exact ⟨[.take], List.prefix_rfl, rfl⟩
  | lookAhead distance => exact ⟨_, Nat.le_refl _, parser.reach_eq_pull distance⟩
  | peekLevel =>
    rw [run, ParseM.snd_reply]
    exact (Program.peekLevel grammar).passes_after parser

/-- How far ahead a step asks to look, if it does. All steps but taking a token look at least at
the next one. -/
def distance? : Step → Option Nat
  | lookAhead distance => some distance
  | consume => none
  | parse _ | accept _ | expect _ | peekLevel => some 0

/-- How many tokens a step asks to see. -/
def needs (step : Step) : Nat :=
  match step.distance? with
  | some distance => distance + 1
  | none => 0

/-- How many tokens steps ask to see: up to the farthest one that any of them asks for. -/
def allNeed (steps : List Step) : Nat :=
  match (steps.filterMap distance?).max? with
  | some farthest => farthest + 1
  | none => 0

/-- Steps ask for no more tokens than some number if none of them does. -/
theorem allNeed_le_iff {steps : List Step} {bound : Nat} :
    allNeed steps ≤ bound ↔ ∀ step ∈ steps, step.needs ≤ bound := by
  unfold allNeed needs
  cases hmax : (steps.filterMap distance?).max? with
  | none =>
    have hnone := List.filterMap_eq_nil_iff.mp (List.max?_eq_none_iff.mp hmax)
    simp +contextual [hnone]
  | some farthest =>
    obtain ⟨hmem, hall⟩ := List.max?_eq_some_iff.mp hmax
    constructor
    · intro hle step hstep
      cases hdistance : step.distance? with
      | none => exact Nat.zero_le _
      | some distance =>
        have hfar := hall distance (List.mem_filterMap.mpr ⟨step, hstep, hdistance⟩)
        exact Nat.le_trans (Nat.succ_le_succ hfar) hle
    · intro hsteps
      obtain ⟨step, hstep, hdistance⟩ := List.mem_filterMap.mp hmem
      have hle := hsteps step hstep
      rwa [hdistance] at hle

/-- Only the farthest look counts. -/
example : allNeed [.parse 0, .lookAhead 3, .consume] = 4 := by decide

/-- A step that asks to see the next token only keeps no other one, unless it is kept already. -/
theorem Passes.length_ahead_le_one {step : Step} (h : step.Passes grammar parser now)
    (hdistance : step.distance? = some 0) :
    now.ahead.length ≤ max parser.ahead.length 1 := by
  cases step with
  | lookAhead distance =>
    obtain ⟨count, hcount, rfl⟩ := h
    obtain rfl : distance = 0 := Option.some.inj hdistance
    rw [Parser.length_ahead_pull]
    omega
  | _ => exact Change.Passes.length_ahead_le h

/-- In a step no more tokens are kept than it asks to see, unless they are kept already. -/
theorem Passes.length_ahead_le {step : Step} (h : step.Passes grammar parser now) :
    now.ahead.length ≤ max parser.ahead.length step.needs := by
  cases step with
  | lookAhead distance =>
    obtain ⟨count, hcount, rfl⟩ := h
    rw [Parser.length_ahead_pull]
    change _ ≤ max _ (distance + 1)
    omega
  | consume =>
    obtain ⟨done, hdone, rfl⟩ := h
    rcases List.prefix_cons_iff.mp hdone with rfl | ⟨rest, rfl, hrest⟩
    · exact Nat.le_max_left _ _
    · obtain rfl := List.prefix_nil.mp hrest
      have hnext := parser.length_ahead_next
      change parser.next.2.ahead.length ≤ _
      omega
  | parse | accept | expect | peekLevel => exact h.length_ahead_le_one rfl

/-- After steps that ask for no more tokens than some number, no more are kept, unless they are kept
already. -/
theorem length_ahead_after_le {steps : List Step} {bound : Nat}
    (hparser : parser.ahead.length ≤ bound) (hsteps : ∀ step ∈ steps, step.needs ≤ bound) :
    (after grammar parser steps).ahead.length ≤ bound := by
  induction steps generalizing parser with
  | nil => exact hparser
  | cons step steps ih =>
    obtain ⟨hstep, hrest⟩ := List.forall_mem_cons.mp hsteps
    have hlater := (passes_run grammar parser step).length_ahead_le
    exact ih (Nat.le_trans hlater (Nat.max_le.mpr ⟨hparser, hstep⟩)) hrest

end Step

/-- Whatever steps a new parser takes, at every point of them it keeps no more tokens than up to the
farthest that has been asked for, and none if none has. A look ahead makes it keep the tokens up to
the one that is asked for, taking a token leaves one fewer, and at no point does another step keep
more than one, unless more are kept already. So in a parse of a whole input at most one token more
has been taken out of the supply than has been consumed, at every point. -/
theorem Step.ahead_bounded (entries : List Entry) (supply : Supply) (earlier : List Step)
    (step : Step) :
    let grammar := Grammar.empty.addAll entries
    let parser := Step.after grammar (.ofSupply supply) earlier
    let after := (step.run grammar parser).2
    (step.Passes grammar parser parser ∧ step.Passes grammar parser after) ∧
    (∀ now, step.Passes grammar parser now →
      now.ahead.length ≤ Step.allNeed (earlier ++ [step])) ∧
    (∀ distance, step = .lookAhead distance →
      after.ahead.length = max parser.ahead.length (distance + 1)) ∧
    (step = .consume → after.ahead.length = parser.ahead.length - 1) ∧
    (step.distance? = some 0 → ∀ now, step.Passes grammar parser now →
      now.ahead.length ≤ max parser.ahead.length 1) ∧
    let fresh := Parser.ofSupply supply
    let program := Parser.wholeProgram .standard (fresh.fuel .standard)
    ((Parser.parseAll .standard).run fresh).after =
      Change.applyAll fresh (program.changes fresh) ∧
    ∀ done, done <+: program.changes fresh →
      let now := Change.applyAll fresh done
      let taken := (Change.pulled fresh done).length
      now.supply = supply.drop taken ∧ taken = done.count .take + now.ahead.length ∧
        taken ≤ done.count .take + 1 := by
  intro grammar parser after
  refine ⟨⟨Step.passes_start _ _ _, Step.passes_run _ _ _⟩, ?_, ?_, ?_, ?_, ?_⟩
  · intro now hnow
    have hneeds := Step.allNeed_le_iff.mp (Nat.le_refl (Step.allNeed (earlier ++ [step])))
    have hparser : parser.ahead.length ≤ Step.allNeed (earlier ++ [step]) :=
      Step.length_ahead_after_le (Nat.zero_le _) fun other hother =>
        hneeds other (List.mem_append_left _ hother)
    have hstep := hneeds step (List.mem_append_right _ List.mem_cons_self)
    exact Nat.le_trans hnow.length_ahead_le (Nat.max_le.mpr ⟨hparser, hstep⟩)
  · rintro distance rfl
    exact parser.length_ahead_reach distance
  · rintro rfl
    exact parser.length_ahead_next
  · exact fun hdistance now hnow => hnow.length_ahead_le_one hdistance
  · intro fresh program
    refine ⟨program.after_run fresh, ?_⟩
    intro done _ now taken
    have htaken : taken = done.count .take + now.ahead.length :=
      Change.length_pulled done fresh
    have hahead : now.ahead.length ≤ 1 := Change.length_ahead_applyAll_le done fresh
    exact ⟨Change.supply_applyAll done fresh, htaken, by omega⟩

end Precedence
