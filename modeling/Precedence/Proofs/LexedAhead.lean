import Precedence.Proofs.History

/-!
# Scanning ahead of parsing

A text can be scanned token by token while it is parsed, or all at once before. Both
supplies give the same tokens, the end marks past the last one included, so no step of a
parser can tell them apart. The main statement is `Step.runAll_tokenize`.
-/

namespace Precedence

namespace Parser

/-- Taking a token leaves one token fewer that has been read ahead. -/
theorem length_ahead_next (parser : Parser) :
    parser.next.2.ahead.length = parser.ahead.length - 1 := by
  obtain ⟨supply, ahead, depth⟩ := parser
  cases ahead <;> rfl

/-- Looking ahead reads no further than it has to. -/
theorem length_ahead_reach (parser : Parser) (distance : Nat) :
    (parser.reach distance).2.ahead.length = max parser.ahead.length (distance + 1) := by
  induction distance generalizing parser with
  | zero =>
    have hnext := parser.length_ahead_next
    change parser.next.2.ahead.length + 1 = _
    omega
  | succ distance ih =>
    have hnext := parser.length_ahead_next
    have hrest := ih parser.next.2
    change (parser.next.2.reach distance).2.ahead.length + 1 = _
    omega

/-- Parsers that have read equally far ahead go on doing so. -/
theorem kept_length_ahead : Kept fun parser other => parser.ahead.length = other.ahead.length := by
  constructor
  · intro parser other hlength
    rw [length_ahead_next, length_ahead_next, hlength]
  · intro parser other distance hlength
    rw [length_ahead_reach, length_ahead_reach, hlength]
  · intro parser other depth hlength
    exact hlength

end Parser

/-- The tokens of a text end with its last mark, and are given out one after the other when
the text is scanned. -/
theorem Scanner.stream_tokens (scanner : Scanner) :
    ∃ read mark, mark.IsLast ∧ scanner.tokens = read ++ [mark] ∧
      (Supply.text scanner).stream = read ++ₛ Stream'.const mark := by
  fun_induction tokens scanner with
  | case1 scanner hend =>
    obtain ⟨hlast, hstream⟩ := Supply.stream_text_of_end hend
    exact ⟨[], scanner.next.1, hlast, rfl, hstream⟩
  | case2 scanner hend ih =>
    obtain ⟨read, mark, hmark, htokens, hstream⟩ := ih
    refine ⟨scanner.next.1 :: read, mark, hmark, by rw [htokens]; rfl, ?_⟩
    rw [Supply.stream_eq]
    exact congrArg (Stream'.cons scanner.next.1) hstream

/-- A text gives the same tokens whether it is scanned ahead or not. -/
theorem Supply.stream_tokenize (text file : String) :
    (Supply.list (.ofList (tokenize text file))).stream =
      (Supply.text (.ofText text file)).stream := by
  obtain ⟨read, mark, hmark, htokens, hstream⟩ := (Scanner.ofText text file).stream_tokens
  rw [tokenize, htokens, stream_ofList_last read hmark, hstream]

/-- Supplies are parsed alike if the runs end alike. -/
theorem parse_eq_of_endsAs {supply other : Supply} {related : Parser → Parser → Prop}
    (h : ((Parser.parseAll .standard).run (.ofSupply supply)).EndsAs related
      ((Parser.parseAll .standard).run (.ofSupply other))) : parse supply = parse other := by
  generalize hrun : (Parser.parseAll .standard).run (.ofSupply supply) = parsed at h
  generalize hagain : (Parser.parseAll .standard).run (.ofSupply other) = given at h
  cases h with
  | endless => exact absurd hrun (Parser.parseAll_standard_ne_endless _ _)
  | ok => rw [parse_eq_ok_iff.mpr ⟨_, hrun⟩, parse_eq_ok_iff.mpr ⟨_, hagain⟩]
  | fault => rw [parse_eq_error_iff.mpr ⟨_, hrun⟩, parse_eq_error_iff.mpr ⟨_, hagain⟩]

/-- A parse depends on nothing but the tokens that its supply gives. -/
theorem parse_eq_of_stream {supply other : Supply} (h : supply.stream = other.stream) :
    parse supply = parse other := by
  have halike : Parser.Alike (fun _ _ => True) 0 (.ofSupply supply) (.ofSupply other) :=
    ⟨h, rfl, rfl, trivial⟩
  have hblind : (Parser.parseAll .standard).Blind := Parser.blind_parseAll rfl
  exact parse_eq_of_endsAs (hblind Parser.kept_true halike)

namespace Step

variable {grammar : Grammar} {limit depth : Nat} {parser other : Parser}

/-- What can be seen of a step: the reply, how many tokens have been read ahead and how deep
the parser is. -/
def seen (answer : Reply × Parser) : Reply × Nat × Nat :=
  (answer.1, answer.2.ahead.length, answer.2.depth)

/-- Parsers that are alike and have read equally far ahead are not told apart by any steps
that end, and the steps end on both or on neither. -/
theorem runAll_alike (hlimit : grammar.depthLimit = some limit)
    (h : Parser.Alike (fun parser other => parser.ahead.length = other.ahead.length) depth parser
      other) (steps : List Step) :
    ((∀ answer ∈ runAll grammar parser steps, answer.1 ≠ .stopped .endless) ↔
      ∀ answer ∈ runAll grammar other steps, answer.1 ≠ .stopped .endless) ∧
    ((∀ answer ∈ runAll grammar parser steps, answer.1 ≠ .stopped .endless) →
      (runAll grammar parser steps).map seen = (runAll grammar other steps).map seen) := by
  induction steps generalizing parser other with
  | nil => exact ⟨Iff.rfl, fun _ => rfl⟩
  | cons step steps ih =>
    obtain ⟨hreply, hafter⟩ := run_alike hlimit Parser.kept_length_ahead h step
    simp only [runAll, List.forall_mem_cons, List.map_cons]
    rw [← hreply]
    by_cases hend : (step.run grammar parser).1 = .stopped .endless
    · exact ⟨by simp [hend], fun hall => absurd hend hall.1⟩
    · have halike := hafter hend
      obtain ⟨hiff, hseen⟩ := ih halike
      refine ⟨and_congr_right' hiff, fun hall => ?_⟩
      have hfirst : seen (step.run grammar parser) = seen (step.run grammar other) := by
        unfold seen
        rw [hreply, halike.kept, halike.left, halike.right]
      rw [hfirst, hseen hall.2]

/-- Where no end mark extends an expression, all steps end. -/
theorem runAll_ne_endless (hlimit : grammar.depthLimit = some limit)
    (hend : grammar.infixRule .endOfInput = none) (parser : Parser) (steps : List Step) :
    ∀ answer ∈ runAll grammar parser steps, answer.1 ≠ .stopped .endless := by
  induction steps generalizing parser with
  | nil => exact List.forall_mem_nil _
  | cons step steps ih =>
    exact List.forall_mem_cons.mpr ⟨run_ne_endless hlimit hend parser step, ih _⟩

end Step

/-- Whatever a parser is asked to do, it is not seen whether its text is scanned ahead: all
steps end on both supplies or on neither, and if they end they look the same. They do end
where no end mark extends an expression, and a parse that does not end there would not end
with any fuel. -/
theorem Step.runAll_tokenize (entries : List Entry) (text file : String) (steps : List Step) :
    let grammar := Grammar.empty.addAll entries
    let scanned := Step.runAll grammar (.ofSupply (.text (.ofText text file))) steps
    let replayed := Step.runAll grammar (.ofSupply (.list (.ofList (tokenize text file)))) steps
    ((∀ answer ∈ scanned, answer.1 ≠ .stopped .endless) ↔
      ∀ answer ∈ replayed, answer.1 ≠ .stopped .endless) ∧
    ((∀ answer ∈ scanned, answer.1 ≠ .stopped .endless) →
      scanned.map Step.seen = replayed.map Step.seen) ∧
    (grammar.infixRule .endOfInput = none →
      ∀ answer ∈ scanned, answer.1 ≠ .stopped .endless) ∧
    (∀ level parser after, (Parser.parseExpr grammar level).run parser = .stop .endless after →
      ∀ fuel, ∃ last, (Parser.expression grammar fuel level).run parser = .stop .endless last) ∧
    parseText text file = parseTokens (tokenize text file) := by
  intro grammar scanned replayed
  have hlimit : grammar.depthLimit = some Grammar.maxDepth := Grammar.depthLimit_addAll _ entries
  have hstream := Supply.stream_tokenize text file
  have halike : Parser.Alike (fun parser other => parser.ahead.length = other.ahead.length) 0
      (.ofSupply (.text (.ofText text file))) (.ofSupply (.list (.ofList (tokenize text file)))) :=
    ⟨hstream.symm, rfl, rfl, rfl⟩
  obtain ⟨hiff, hseen⟩ := Step.runAll_alike hlimit halike steps
  refine ⟨hiff, hseen, fun hend => ?_, fun level parser after hendless fuel => ?_,
    parse_eq_of_stream hstream.symm⟩
  · exact Step.runAll_ne_endless hlimit hend _ steps
  · exact Parser.expression_endless hlimit hendless fuel

/-- Also where end marks extend expressions, steps may end: here the second expression is
asked to bind tighter than they do. -/
theorem Step.runAll_tokenize_extended :
    let grammar := Grammar.empty.addAll
      [.starting .identifier .name, .extending .endOfInput (.binary .sum .left)]
    let steps : List Step := [.parse 0, .lookAhead 4, .parse 3, .consume]
    (∀ answer ∈ Step.runAll grammar (.ofSupply (.text (.ofText "a b"))) steps,
      answer.1 ≠ .stopped .endless) ∧
    (Step.runAll grammar (.ofSupply (.text (.ofText "a b"))) steps).map Step.seen =
      (Step.runAll grammar (.ofSupply (.list (.ofList (tokenize "a b")))) steps).map
        Step.seen := by
  intro grammar steps
  obtain ⟨-, hsame, -⟩ := Step.runAll_tokenize
    [.starting .identifier .name, .extending .endOfInput (.binary .sum .left)] "a b" shell steps
  have hends : ∀ answer ∈ Step.runAll grammar (.ofSupply (.text (.ofText "a b"))) steps,
      answer.1 ≠ .stopped .endless := by
    decide +kernel
  exact ⟨hends, hsame hends⟩

end Precedence
