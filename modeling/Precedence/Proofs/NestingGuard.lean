import Precedence.Proofs.Calls
import Precedence.Proofs.EarliestFault
import Precedence.Proofs.Fuel

/-!
# The limit on nesting is not seen

A parser with a limit does what the parser without a limit does, up to the first call that
is nested beyond the limit. It stops there, at the token that this call is about to take.
The two parsers are put together in the same way, and go through their programs side by
side. The main statement is `parseTokens_unlimited`.
-/

namespace Precedence

/-- The first of some calls that is nested deeper than a limit. -/
def firstBeyond (limit : Nat) (calls : List Call) : Option Call :=
  calls.find? fun call => limit < call.active

/-- The first call beyond a limit is one of the calls made first, if there is any there. -/
theorem firstBeyond_append (limit : Nat) (calls others : List Call) :
    firstBeyond limit (calls ++ others) =
      (firstBeyond limit calls).or (firstBeyond limit others) :=
  List.find?_append

/-- No call is beyond a limit exactly if all of them are within it. -/
theorem firstBeyond_eq_none_iff {limit : Nat} {calls : List Call} :
    firstBeyond limit calls = none ↔ ∀ call ∈ calls, call.active ≤ limit := by
  simp [firstBeyond]

/-- The calls before the first call beyond a limit are within it. -/
theorem exists_append_of_firstBeyond {limit : Nat} {calls : List Call} {call : Call}
    (h : firstBeyond limit calls = some call) :
    ∃ before later, calls = before ++ call :: later ∧
      ∀ earlier ∈ before, earlier.active ≤ limit := by
  obtain ⟨-, before, later, hcalls, hbefore⟩ := List.find?_eq_some_iff_append.mp h
  exact ⟨before, later, hcalls, fun earlier hearlier => by simpa using hbefore earlier hearlier⟩

/-- The fault of a call that is nested beyond a limit. -/
def Call.tooDeep (call : Call) (limit : Nat) : Fault := ⟨.nestingTooDeep limit, call.token.start⟩

/-- A limited action that does what an action without a limit does, unless that makes a call
beyond the limit. The calls are those of its program. -/
structure Guards {α : Type} {free : ParseM α} (limit : Nat) (limited : ParseM α)
    (program : Program none free) (parser : Parser) : Prop where
  /-- Within the limit the two actions do the same. -/
  within : firstBeyond limit (Change.calls parser (program.changes parser)) = none →
    limited.run parser = free.run parser
  /-- The first call beyond the limit is just beyond it, and it is a fault. -/
  beyond : ∀ {call}, firstBeyond limit (Change.calls parser (program.changes parser)) = some call →
    call.active = limit + 1 ∧
      ∃ after, limited.run parser = .stop (.fault (call.tooDeep limit)) after

namespace Guards

variable {α β : Type} {limit : Nat} {parser : Parser}

/-- An action that makes no calls is the same with a limit. -/
theorem quiet {action : ParseM α} {program : Program none action}
    (hcalls : Change.calls parser (program.changes parser) = []) :
    Guards limit action program parser :=
  ⟨fun _ => rfl, fun hsome => by rw [hcalls] at hsome; cases hsome⟩

/-- One action after another is limited if both are. -/
theorem bind {first start : ParseM α} {second next : α → ParseM β} {program : Program none start}
    {programs : ∀ value, Program none (next value)} (hfirst : Guards limit first program parser)
    (hsecond : ∀ {value after}, after.depth = parser.depth →
      Guards limit (second value) (programs value) after) :
    Guards limit (first >>= second) (program.bind programs) parser := by
  have hafter := program.after_run parser
  constructor
  · intro hnone
    rw [Program.changes, Change.calls_append, firstBeyond_append, Option.or_eq_none_iff,
      ← hafter] at hnone
    rw [ParseM.run_bind, ParseM.run_bind, hfirst.within hnone.1]
    cases hrun : start.run parser with
    | ok value after =>
      rw [hrun] at hnone
      exact (hsecond (program.depth_of_ok hrun)).within hnone.2
    | stop reason after => rfl
  · intro call hsome
    rw [Program.changes, Change.calls_append, firstBeyond_append, ← hafter] at hsome
    rw [ParseM.run_bind]
    cases hcalls : firstBeyond limit (Change.calls parser (program.changes parser)) with
    | some earlier =>
      rw [hcalls, Option.some_or] at hsome
      cases hsome
      obtain ⟨hactive, after, hstop⟩ := hfirst.beyond hcalls
      exact ⟨hactive, after, by rw [hstop]⟩
    | none =>
      rw [hcalls, Option.none_or] at hsome
      rw [hfirst.within hcalls]
      cases hrun : start.run parser with
      | ok value after =>
        rw [hrun] at hsome
        exact (hsecond (program.depth_of_ok hrun)).beyond hsome
      | stop reason after =>
        rw [hrun] at hsome
        cases hsome

/-- A call is limited if what is done in it is, where that is within the limit. -/
theorem nested {action free : ParseM α} {inside : Program none free}
    (hdepth : parser.depth ≤ limit)
    (h : parser.depth < limit → Guards limit action inside (Change.enter.apply parser)) :
    Guards limit (Parser.nested (some limit) action) inside.nested parser := by
  have hcalls : Change.calls parser (inside.nested.changes parser) =
      ⟨parser.depth + 1, parser.next.1⟩ :: Change.calls (Change.enter.apply parser)
        (inside.changes (Change.enter.apply parser)) :=
    Change.calls_inside parser _
  by_cases hlt : parser.depth < limit
  · have hinside := h hlt
    have hfirst : firstBeyond limit (Change.calls parser (inside.nested.changes parser)) =
        firstBeyond limit (Change.calls (Change.enter.apply parser)
          (inside.changes (Change.enter.apply parser))) := by
      rw [hcalls]
      exact List.find?_cons_of_neg (by simp only [decide_eq_true_eq]; omega)
    have hlimited : (Parser.nested (some limit) action).run parser =
        (Parser.deeper action).run parser := Parser.nested_of_lt _ (by rintro _ ⟨⟩; exact hlt)
    constructor
    · intro hnone
      rw [hlimited]
      change _ = (Parser.deeper free).run parser
      have hsame : action.run { parser with depth := parser.depth + 1 } =
          free.run { parser with depth := parser.depth + 1 } := hinside.within (hfirst ▸ hnone)
      simp only [Parser.deeper, hsame]
    · intro call hsome
      obtain ⟨hactive, after, hstop⟩ := hinside.beyond (hfirst ▸ hsome)
      have hsame : action.run { parser with depth := parser.depth + 1 } = _ := hstop
      rw [hlimited]
      exact ⟨hactive, Change.leave.apply after, by simp only [Parser.deeper, hsame]; rfl⟩
  · -- This call is beyond the limit, and what is done in it is not looked at.
    have hfirst : firstBeyond limit (Change.calls parser (inside.nested.changes parser)) =
        some ⟨parser.depth + 1, parser.next.1⟩ := by
      rw [hcalls]
      exact List.find?_cons_of_pos (by simp only [decide_eq_true_eq]; omega)
    constructor
    · intro hnone
      rw [hfirst] at hnone
      cases hnone
    · intro call hsome
      rw [hfirst] at hsome
      cases hsome
      exact ⟨by simp only; omega, _, Parser.run_nested_of_le _ (by omega)⟩

/-- A limited action is limited if its program is that of the other one. -/
theorem of_mirrors {limit? : Option Nat} (hlimit : limit? = some limit) {action free : ParseM α}
    {limited : Program limit? action} {program : Program none free}
    (h : Mirrors limited program) (hdepth : parser.depth ≤ limit) :
    Guards limit action program parser := by
  subst hlimit
  induction h generalizing parser with
  | pure | stop | consume | peek => exact quiet rfl
  | bind _ _ ih ihnext =>
    exact (ih hdepth).bind fun {value after} hafter => ihnext value (by omega)
  | nested _ ih => exact nested hdepth fun hlt => ih hlt

end Guards

namespace Parser

variable {grammar : Grammar} {limit : Nat} {parser : Parser}

/-- What an expression does inside of its call settles if operands do when fewer tokens are
to come, since no end mark starts an expression. -/
theorem settles_begin {operand : Operand} (hstart : grammar.prefixRule .endOfInput = none)
    (hend : grammar.infixRule .endOfInput = none) (level : Nat) {turns : Nat}
    (hoperand : ∀ bound < parser.live, OperandsSettle operand parser.depth bound)
    (hturns : parser.live ≤ turns) : Settles (begin grammar operand level turns) parser := by
  refine (settles_consume parser).bind fun token after htoken => ?_
  have hafter := (settles_consume parser).of_ok htoken
  cases hrule : grammar.prefixRule token.kind with
  | none => exact settles_fault _ after
  | some rule =>
    have hkind : token.kind ≠ .endOfInput := by
      intro hmark
      rw [hmark, hstart] at hrule
      cases hrule
    have hlt : after.live < parser.live := by
      cases htoken
      exact live_next_lt hkind
    have hleft := settles_prefixRule (hoperand after.live hlt) token rule hafter.2 le_rfl
    refine hleft.bind fun left last hlast => ?_
    have hlast := hleft.of_ok hlast
    exact settles_extend hend (hoperand after.live hlt) level turns left (by omega) hlast.1
      (by omega)

/-- Where the grammar has no rule for end marks, an expression settles at any depth with
fuel for every token to come. -/
theorem settles_unlimited (hstart : grammar.prefixRule .endOfInput = none)
    (hend : grammar.infixRule .endOfInput = none) (fuel level : Nat)
    (hfuel : parser.live < fuel) :
    Settles (expression grammar.unlimited fuel level) parser := by
  induction fuel generalizing level parser with
  | zero => omega
  | succ fuel ih =>
    have hoperand : ∀ bound < parser.live,
        OperandsSettle (expression grammar.unlimited fuel) (parser.depth + 1) bound :=
      fun bound hbound inner last _ hlast => ih inner (by omega)
    have hbegin : Settles (begin grammar.unlimited (expression grammar.unlimited fuel) level
        (fuel + 1)) { parser with depth := parser.depth + 1 } :=
      settles_begin (by exact hstart) (by exact hend) level hoperand (Nat.le_of_lt hfuel)
    have hdeeper := settles_deeper hbegin
    rw [expression_succ]
    unfold Settles at hdeeper ⊢
    rw [nested_of_lt _ (by simp [Grammar.unlimited])]
    exact hdeeper

/-- Where the grammar has no rule for end marks, a parse without a limit settles. -/
theorem settles_parseExpr_unlimited (hstart : grammar.prefixRule .endOfInput = none)
    (hend : grammar.infixRule .endOfInput = none) (level : Nat) (parser : Parser) :
    Settles (parseExpr grammar.unlimited level) parser := by
  have hlive := parser.live_le
  have hfuel : parser.live < parser.fuel grammar.unlimited := by
    unfold fuel
    omega
  have hsettles := settles_unlimited hstart hend (parser.fuel grammar.unlimited) level hfuel
  unfold Settles at hsettles ⊢
  rw [run_parseExpr]
  exact hsettles

/-- Where the grammar has no rule for end marks, a parse of the whole input without a limit
settles. -/
theorem settles_parseAll_unlimited (hstart : grammar.prefixRule .endOfInput = none)
    (hend : grammar.infixRule .endOfInput = none) (parser : Parser) :
    Settles (parseAll grammar.unlimited) parser :=
  (settles_parseExpr_unlimited hstart hend _ parser).bind fun expr after _ =>
    (settles_expect _ after).bind fun _ last _ => settles_pure expr last

end Parser

/-- How a parser without a limit parses a whole input. -/
def Parser.freeProgram (grammar : Grammar) (parser : Parser) :
    Program none (whole grammar.unlimited (parser.fuel grammar.unlimited)) :=
  wholeProgram grammar.unlimited (parser.fuel grammar.unlimited)

/-- A parse of the whole input is limited, although it runs with more fuel. -/
theorem Guards.parseAll {limit : Nat} {parser : Parser} {grammar : Grammar}
    (hlimit : grammar.depthLimit = some limit) (hstart : grammar.prefixRule .endOfInput = none)
    (hend : grammar.infixRule .endOfInput = none) (hdepth : parser.depth ≤ limit) :
    Guards limit (Parser.parseAll grammar) (Parser.freeProgram grammar parser) parser := by
  have hguards : Guards limit (Parser.whole grammar (parser.fuel grammar.unlimited))
      (Parser.freeProgram grammar parser) parser := of_mirrors hlimit (.whole grammar _) hdepth
  have hle : parser.fuel grammar.unlimited ≤ parser.fuel grammar := by
    simp only [Parser.fuel, Grammar.unlimited, Option.map_none, Option.getD_none]
    omega
  refine ⟨fun hnone => ?_, fun {call} hsome => ?_⟩
  · have hsame := hguards.within hnone
    rw [Parser.run_parseAll_eq_whole, Parser.whole_of_le hle, hsame]
    rw [hsame, ← Parser.run_parseAll_eq_whole]
    exact (Parser.settles_parseAll_unlimited hstart hend parser).ne_endless
  · obtain ⟨hactive, after, hstop⟩ := hguards.beyond hsome
    refine ⟨hactive, after, ?_⟩
    rw [Parser.run_parseAll_eq_whole, Parser.whole_of_le hle, hstop]
    simp [hstop]

/-- What is at fault in what is read is never its nesting. -/
theorem Reads.cause_ne_nestingTooDeep {grammar : Grammar} {task : Task} {read : List Token}
    {following : Token} {result : Except Fault Expr} {height : Nat} {fault : Fault}
    (h : Reads grammar task read following result height) (hresult : result = .error fault)
    (limit : Nat) : fault.cause ≠ .nestingTooDeep limit := by
  induction h generalizing fault with
  | finish | name | group | postfixed | no_arguments | last => cases hresult
  | no_start | group_open | conditional_open | argument_open =>
    cases hresult
    nofun
  | finish_fault _ ih | start _ _ ih | extend _ _ _ _ _ ih | group_fault _ ih
  | conditional_fault _ ih | call _ ih | some_arguments _ _ ih | more _ _ _ _ ih
  | argument_fault _ ih => exact ih hresult
  | operator _ ih | binary _ ih | conditional _ _ _ _ ih => exact ih (eq_error_of_map hresult)
  | @assign _ _ _ _ result _ _ ih =>
    cases result with
    | ok value =>
      rw [Expr.cause_of_assignTo hresult]
      nofun
    | error inner => exact ih hresult

/-- A parse without a limit is never too deep. -/
theorem Parser.cause_of_unlimited {grammar : Grammar} {parser after : Parser} {fault : Fault}
    (h : (parseAll grammar.unlimited).run parser = .stop (.fault fault) after) (limit : Nat) :
    fault.cause ≠ .nestingTooDeep limit := by
  have htraces := traces_parseExpr grammar.unlimited Power.lowest.level parser
  rw [run_parseAll] at h
  cases hrun : (parseExpr grammar.unlimited Power.lowest.level).run parser with
  | ok expr last =>
    rw [hrun] at h
    by_cases hend : last.next.1.kind = .endOfInput
    · simp only [hend, if_true] at h
      cases h
    · simp only [hend, if_false] at h
      cases h
      nofun
  | stop reason last =>
    rw [hrun] at h htraces
    cases h
    rcases htraces with ⟨_, ⟨⟩, -⟩ | ⟨read, following, rest, height, -, hreads, -⟩
    exact hreads.cause_ne_nestingTooDeep rfl limit

/-- What a run gives, if it ends: a value or a fault. -/
def Parsed.result? {α : Type} : Parsed α → Option (Except Fault α)
  | .ok value _ => some (.ok value)
  | .stop (.fault fault) _ => some (.error fault)
  | .stop .endless _ => none

/-- A parse gives what the run of the parser does. -/
theorem result?_parseAll (supply : Supply) :
    ((Parser.parseAll .standard).run (.ofSupply supply)).result? = some (parse supply) := by
  cases hparse : parse supply with
  | ok expr =>
    obtain ⟨after, hrun⟩ := parse_eq_ok_iff.mp hparse
    rw [hrun]
    rfl
  | error fault =>
    obtain ⟨after, hrun⟩ := parse_eq_error_iff.mp hparse
    rw [hrun]
    rfl

/-- A run that settles gives something. -/
theorem Parser.Settles.exists_result? {α : Type} {action : ParseM α} {parser : Parser}
    (h : Parser.Settles action parser) : ∃ result, (action.run parser).result? = some result := by
  have hends := h.ne_endless
  rcases hrun : action.run parser with ⟨value, after⟩ | ⟨fault | _, after⟩
  · exact ⟨.ok value, rfl⟩
  · exact ⟨.error fault, rfl⟩
  · exact absurd hrun (hends after)

section Standard

variable {supply : Supply}

/-- The calls that the standard parse makes without a limit. -/
def freeCalls (supply : Supply) : List Call :=
  Change.calls (.ofSupply supply)
    ((Parser.freeProgram .standard (.ofSupply supply)).changes (.ofSupply supply))

/-- The standard parser is limited from its start. -/
theorem guards_standard (supply : Supply) :
    Guards Grammar.maxDepth (Parser.parseAll .standard)
      (Parser.freeProgram .standard (.ofSupply supply)) (.ofSupply supply) :=
  Guards.parseAll rfl rfl rfl (Nat.zero_le _)

/-- Where all calls are within the limit, the parse gives what it gives without a limit. -/
theorem parse_of_within (h : ∀ call ∈ freeCalls supply, call.active ≤ Grammar.maxDepth) :
    ((Parser.parseAll Grammar.standard.unlimited).run (.ofSupply supply)).result? =
      some (parse supply) := by
  rw [Parser.run_parseAll_eq_whole,
    ← (guards_standard supply).within (firstBeyond_eq_none_iff.mpr h)]
  exact result?_parseAll supply

/-- Where a call is beyond the limit, the first such call is at fault. -/
theorem parse_of_beyond (h : ∃ call ∈ freeCalls supply, Grammar.maxDepth < call.active) :
    ∃ before call later, freeCalls supply = before ++ call :: later ∧
      (∀ earlier ∈ before, earlier.active ≤ Grammar.maxDepth) ∧
      call.active = Grammar.maxDepth + 1 ∧
      parse supply = .error (call.tooDeep Grammar.maxDepth) := by
  obtain ⟨deep, hdeep, hlt⟩ := h
  cases hcalls : firstBeyond Grammar.maxDepth (freeCalls supply) with
  | none => exact absurd hlt (Nat.not_lt.mpr (firstBeyond_eq_none_iff.mp hcalls deep hdeep))
  | some call =>
    obtain ⟨before, later, hsplit, hbefore⟩ := exists_append_of_firstBeyond hcalls
    obtain ⟨hactive, after, hrun⟩ := (guards_standard supply).beyond hcalls
    exact ⟨before, call, later, hsplit, hbefore, hactive, parse_eq_error_iff.mpr ⟨after, hrun⟩⟩

/-- A parse is too deep only where a call is beyond the limit. -/
theorem beyond_of_parse {limit : Nat} {position : Position}
    (h : parse supply = .error ⟨.nestingTooDeep limit, position⟩) :
    ∃ call ∈ freeCalls supply, Grammar.maxDepth < call.active := by
  by_contra hnone
  have hresult := parse_of_within fun call hcall =>
    Nat.not_lt.mp fun hlt => hnone ⟨call, hcall, hlt⟩
  rw [h] at hresult
  rcases hrun : (Parser.parseAll Grammar.standard.unlimited).run (.ofSupply supply) with
    ⟨expr, after⟩ | ⟨fault | _, after⟩ <;> rw [hrun] at hresult <;> cases hresult
  exact Parser.cause_of_unlimited hrun limit rfl

end Standard

/-- The limit on nesting is not seen unless it is reached. The calls that the parser makes without
a limit are told from the changes of the program that it runs. Where all of them are within the
limit, the parse gives what it gives without a limit, which is an expression or a fault. Otherwise
there is a first call beyond the limit, and the fault is at the token that it is about to take. No
other input is too deep. -/
theorem parseTokens_unlimited (tokens : List Token) :
    let start := Parser.ofSupply (.list (.ofList tokens))
    let unlimited := (Parser.parseAll Grammar.standard.unlimited).run start
    let changes := (Parser.freeProgram .standard start).changes start
    let calls := Change.calls start changes
    unlimited = (Parser.whole Grammar.standard.unlimited
      (start.fuel Grammar.standard.unlimited)).run start ∧
    unlimited.after = Change.applyAll start changes ∧
    (∃ result, unlimited.result? = some result) ∧
    ((∀ call ∈ calls, call.active ≤ 256) → unlimited.result? = some (parseTokens tokens)) ∧
    ((∃ call ∈ calls, 256 < call.active) →
      ∃ before call later, calls = before ++ call :: later ∧
        (∀ earlier ∈ before, earlier.active ≤ 256) ∧ call.active = 257 ∧
        parseTokens tokens = .error ⟨.nestingTooDeep 256, call.token.start⟩) ∧
    ((∃ position, parseTokens tokens = .error ⟨.nestingTooDeep 256, position⟩) ↔
      ∃ call ∈ calls, 256 < call.active) := by
  intro start unlimited changes calls
  have hsettles : Parser.Settles (Parser.parseAll Grammar.standard.unlimited) start :=
    Parser.settles_parseAll_unlimited rfl rfl start
  refine ⟨Parser.run_parseAll_eq_whole _ start,
    (Parser.freeProgram .standard start).after_run start, hsettles.exists_result?,
    parse_of_within, parse_of_beyond, ?_, ?_⟩
  · rintro ⟨position, hparse⟩
    exact beyond_of_parse hparse
  · intro hcalls
    obtain ⟨before, call, later, -, -, -, hparse⟩ := parse_of_beyond hcalls
    exact ⟨call.token.start, hparse⟩

/-- After 255 tildes the missing operand is at fault, with a limit as without one. After one
more tilde that operand would be nested too deep, and this is the fault. -/
theorem parseTokens_unlimited_tildes :
    let tildes : Nat → List Token := fun count => List.replicate count ⟨.tilde, "~", default⟩
    let calls := fun count => freeCalls (.list (.ofList (tildes count)))
    ((∀ call ∈ calls 255, call.active ≤ 256) ∧
      parseTokens (tildes 255) = .error (endMarkAfter (tildes 255)).noPrefixRule ∧
      ((Parser.parseAll Grammar.standard.unlimited).run
        (.ofSupply (.list (.ofList (tildes 255))))).result? = some (parseTokens (tildes 255))) ∧
    ∃ call ∈ calls 256, call.active = 257 ∧
      parseTokens (tildes 256) = .error ⟨.nestingTooDeep 256, call.token.start⟩ := by
  intro tildes calls
  have hreads : ∀ (mark : Token), mark.kind = .endOfInput → ∀ count level,
      Reads .standard (.expression level) (tildes count) mark (.error mark.noPrefixRule)
        (count + 1) := by
    intro mark hmark count
    induction count with
    | zero => exact fun level => .finish_fault (.no_start (by rw [hmark]; rfl))
    | succ count ih => exact fun level => .finish_fault (.start rfl (.operator (ih _)))
  obtain ⟨-, -, -, hwithin, -, hdeep⟩ := parseTokens_unlimited (tildes 255)
  obtain ⟨-, -, -, -, hbeyond, hiff⟩ := parseTokens_unlimited (tildes 256)
  constructor
  · have hparse : parseTokens (tildes 255) = .error (endMarkAfter (tildes 255)).noPrefixRule :=
      parse_of_rejects (.fault (hreads _ rfl 255 _)) (stream_ofList _) (by decide)
    have hcalls : ∀ call ∈ calls 255, call.active ≤ 256 := by
      intro call hcall
      refine Nat.not_lt.mp fun hlt => ?_
      obtain ⟨position, hposition⟩ := hdeep.mpr ⟨call, hcall, hlt⟩
      rw [hparse] at hposition
      cases hposition
    exact ⟨hcalls, hparse, hwithin hcalls⟩
  · have hparse := parse_of_reads_deep (hreads _ rfl 256 _) (stream_ofList (tildes 256)) (by decide)
    obtain ⟨before, call, later, hsplit, -, hactive, hfault⟩ := hbeyond (hiff.mp hparse)
    exact ⟨call, by simp [calls, freeCalls, hsplit], hactive, hfault⟩

end Precedence
