import Precedence.Proofs.Blame
import Precedence.Proofs.DepthDiscipline

/-!
# What a failed parse leaves behind

A parse that fails has taken the tokens up to its fault and no others. From where the fault
arises, the parser only leaves the expressions that it is inside of, so whoever goes on with
the same parser finds the token after those that explain the fault. The main statement is
`parseExpr_fault_leaves`.
-/

namespace Precedence

/-- A fault arises while an action runs, and there the parser is in the state `origin`. -/
inductive Program.Raises {limit? : Option Nat} (fault : Fault) (origin : Parser) :
    {α : Type} → {action : ParseM α} → Program limit? action → Parser → Prop where
  /-- The action does nothing but stop with the fault. -/
  | here {α : Type} : Raises fault origin (@Program.stop limit? α (.fault fault)) origin
  /-- The fault arises in the first of two actions. -/
  | first {α β : Type} {first : ParseM α} {second : α → ParseM β} {program : Program limit? first}
      {next : ∀ value, Program limit? (second value)} {parser : Parser}
      (hfirst : program.Raises fault origin parser) :
      Raises fault origin (program.bind next) parser
  /-- The fault arises in the second of two actions. -/
  | second {α β : Type} {first : ParseM α} {second : α → ParseM β} {program : Program limit? first}
      {next : ∀ value, Program limit? (second value)} {parser last : Parser} {value : α}
      (hfirst : first.run parser = .ok value last)
      (hsecond : (next value).Raises fault origin last) :
      Raises fault origin (program.bind next) parser
  /-- The fault arises inside of an expression. -/
  | inside {α : Type} {action : ParseM α} {inside : Program limit? action} {parser : Parser}
      (hroom : ∀ limit ∈ limit?, parser.depth + 1 ≤ limit)
      (hinside : inside.Raises fault origin (Change.enter.apply parser)) :
      Raises fault origin inside.nested parser
  /-- There is no room for an expression, as a look at the next token reports. -/
  | full {α : Type} {action : ParseM α} {inside : Program limit? action} {parser : Parser}
      {limit : Nat} (hlimit : limit ∈ limit?) (hdepth : limit ≤ parser.depth)
      (hfault : fault = ⟨.nestingTooDeep limit, parser.next.1.start⟩)
      (horigin : origin = Change.look.apply parser) : Raises fault origin inside.nested parser

namespace Program

variable {α : Type} {action : ParseM α} {limit? : Option Nat} {limit : Nat} {fault : Fault}
  {origin parser after : Parser}

/-- Below the limit an action that is nested fails as it does one expression deeper. -/
theorem run_nested_eq_fault_iff (hroom : ∀ limit ∈ limit?, parser.depth + 1 ≤ limit) :
    (Parser.nested limit? action).run parser = .stop (.fault fault) after ↔
      ∃ last, action.run (Change.enter.apply parser) = .stop (.fault fault) last ∧
        after = Change.leave.apply last := by
  rw [Parser.nested_of_lt action hroom]
  simp only [Parser.deeper, Change.apply]
  cases action.run { parser with depth := parser.depth + 1 } with
  | ok value last => simp
  | stop reason last =>
    simp only [Parsed.stop.injEq]
    constructor
    · rintro ⟨rfl, rfl⟩
      exact ⟨last, ⟨rfl, rfl⟩, rfl⟩
    · rintro ⟨_, ⟨rfl, rfl⟩, rfl⟩
      exact ⟨rfl, rfl⟩

/-- An action that fails has its fault arise somewhere, and from there on only the depth
changes. -/
theorem exists_raises (program : Program limit? action) (hlimit : limit? = some limit)
    (hrun : action.run parser = .stop (.fault fault) after) :
    ∃ origin, program.Raises fault origin parser ∧
      after = { origin with depth := parser.depth } := by
  induction program generalizing parser after with
  | pure | consume | peek => cases hrun
  | stop reason =>
    cases hrun
    exact ⟨parser, .here, rfl⟩
  | @bind _ _ first second program next ih ihnext =>
    rw [ParseM.run_bind] at hrun
    cases hfirst : first.run parser with
    | ok value last =>
      rw [hfirst] at hrun
      obtain ⟨origin, hraises, hafter⟩ := ihnext value hrun
      rw [program.depth_of_ok hfirst] at hafter
      exact ⟨origin, .second hfirst hraises, hafter⟩
    | stop reason last =>
      rw [hfirst] at hrun
      cases hrun
      obtain ⟨origin, hraises, hafter⟩ := ih hfirst
      exact ⟨origin, .first hraises, hafter⟩
  | @nested _ action inside ih =>
    subst hlimit
    by_cases hdepth : limit ≤ parser.depth
    · rw [Parser.run_nested_of_le action hdepth] at hrun
      cases hrun
      refine ⟨_, .full rfl hdepth rfl rfl, ?_⟩
      rw [← parser.depth_reach 0]
      rfl
    · have hroom : ∀ other ∈ some limit, parser.depth + 1 ≤ other := by
        intro other hother
        cases hother
        omega
      obtain ⟨last, hinside, rfl⟩ := (run_nested_eq_fault_iff hroom).mp hrun
      obtain ⟨origin, hraises, rfl⟩ := ih hinside
      exact ⟨origin, .inside hroom hraises, rfl⟩

/-- Where a fault arises, the action fails with it, and from there on only the depth changes. -/
theorem Raises.run {program : Program limit? action} (hlimit : limit? = some limit)
    (h : program.Raises fault origin parser) :
    action.run parser = .stop (.fault fault) { origin with depth := parser.depth } := by
  induction h with
  | here => rfl
  | first _ ih => rw [ParseM.run_bind, ih]
  | @second _ _ _ _ program _ _ last _ hfirst _ ih =>
    rw [ParseM.run_bind, hfirst, ← program.depth_of_ok hfirst]
    exact ih
  | inside hroom _ ih => exact (run_nested_eq_fault_iff hroom).mpr ⟨_, ih, rfl⟩
  | @full _ _ _ parser other hother hdepth hfault horigin =>
    obtain rfl : limit? = some other := hother
    rw [Parser.run_nested_of_le _ hdepth, hfault, horigin, ← parser.depth_reach 0]
    rfl

/-- An action fails exactly where a fault arises. -/
theorem run_eq_fault_iff (program : Program limit? action) (hlimit : limit? = some limit) :
    action.run parser = .stop (.fault fault) after ↔
      ∃ origin, program.Raises fault origin parser ∧
        after = { origin with depth := parser.depth } := by
  constructor
  · exact exists_raises program hlimit
  · rintro ⟨origin, hraises, rfl⟩
    exact hraises.run hlimit

end Program

/-- A parse below the limit that fails has taken a token at least, and those it has taken or
the next one explain its fault. -/
theorem Parser.exists_read_of_fault {grammar : Grammar} {level : Nat} {parser after : Parser}
    {fault : Fault} (hroom : ∀ limit ∈ grammar.depthLimit, parser.depth + 1 ≤ limit)
    (hrun : (parseExpr grammar level).run parser = .stop (.fault fault) after) :
    ∃ read, read ≠ [] ∧ parser.pending = read ++ₛ after.pending ∧
      fault.Arises grammar read after.pending.head := by
  rw [run_parseExpr, fuel, expression_succ] at hrun
  obtain ⟨last, hinside, rfl⟩ := (Program.run_nested_eq_fault_iff hroom).mp hrun
  -- The first token has been taken when anything can go wrong.
  set inner := Change.enter.apply parser
  have haccounts : (Parsed.stop (.fault fault) last : Parsed Expr).Accounts grammar
      ([] ++ [inner.next.1]) inner.next.2.pending := by
    rw [← hinside]
    exact accounts_begin_taken (accounts_expression grammar _) level _
  obtain ⟨others, hothers, harises⟩ := haccounts
  refine ⟨inner.next.1 :: others, List.cons_ne_nil _ _, ?_, harises⟩
  change inner.pending = _
  rw [inner.pending_eq, hothers]
  rfl

/-- What a failed parse leaves behind, for every grammar and every parser that is not inside of
an expression. One token or more has been taken from the front of those that were to come, the
last of them or the next one is at fault as `Fault.Arises` says, and since the fault arose
nothing has been taken or looked at. -/
theorem parseExpr_fault_leaves {entries : List Entry} {level : Nat} {parser after : Parser}
    {fault : Fault} (hdepth : parser.depth = 0)
    (hrun : (Parser.parseExpr (Grammar.empty.addAll entries) level).run parser =
      .stop (.fault fault) after) :
    let grammar := Grammar.empty.addAll entries
    (∃ read, read ≠ [] ∧ parser.pending = read ++ₛ after.pending ∧
      fault.Arises grammar read after.pending.head) ∧
    ∃ origin, (Parser.expressionProgram grammar (parser.fuel grammar) level).Raises fault origin
      parser ∧ after = { origin with depth := 0 } := by
  intro grammar
  have hlimit : grammar.depthLimit = some 256 := Grammar.depthLimit_addAll _ entries
  constructor
  · refine Parser.exists_read_of_fault (fun limit hmem => ?_) hrun
    rw [hlimit] at hmem
    cases hmem
    omega
  · rw [← hdepth]
    exact (Program.run_eq_fault_iff _ hlimit).mp hrun

/-- Two tokens of a text have been looked at before a parse. It takes both and finds a name where
the group should close. After the parse, that name is the next token. -/
theorem parseExpr_fault_leaves_name :
    let entries : List Entry := [.starting .openParen .group, .starting .identifier .name]
    let parse := Parser.parseExpr (Grammar.empty.addAll entries) 0
    let parser := ((Parser.ofSupply (.text (.ofText "(a b)"))).reach 1).2
    let after := (parse.run parser).after
    let fault : Fault := ⟨.unexpectedToken .closeParen .identifier, ⟨3, shell⟩⟩
    parse.run parser = .stop (.fault fault) after ∧ after.next.1.value = "b" ∧
      ∃ read, read ≠ [] ∧ parser.pending = read ++ₛ after.pending ∧
        fault.Arises (Grammar.empty.addAll entries) read after.pending.head := by
  intro entries parse parser after fault
  have hrun : parse.run parser = .stop (.fault fault) after := by
    decide +kernel
  exact ⟨hrun, by decide +kernel, (parseExpr_fault_leaves rfl hrun).1⟩

end Precedence
