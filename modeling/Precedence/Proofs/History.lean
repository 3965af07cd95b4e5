import Precedence.Parser.Step
import Precedence.Proofs.Fuel
import Precedence.Proofs.WholeInput

/-!
# What a parser remembers

A parser remembers nothing but the tokens to come. Each step takes the first of them or
leaves them as they are, and a parse takes some from the front. After any steps a parser
replies as a new one does that is given the tokens still to come, so what it has read ahead
cannot be seen and looking ahead changes no other reply. The main statement is
`Step.replies_of_pending`.
-/

namespace Precedence

/-- An action that does the same on parsers that are alike, and leaves them alike. -/
def ParseM.Blind {α : Type} (action : ParseM α) : Prop :=
  ∀ ⦃kept : Parser → Parser → Prop⦄ ⦃depth : Nat⦄ ⦃parser other : Parser⦄, Parser.Kept kept →
    Parser.Alike kept depth parser other →
    (action.run parser).EndsAs (Parser.Alike kept depth) (action.run other)

namespace ParseM.Blind

variable {α β : Type}

/-- Giving a value does not depend on the parser. -/
theorem pure (value : α) : (Pure.pure value : ParseM α).Blind := fun _ _ _ _ _ h => .ok h

/-- One action after another does the same on parsers that are alike if both do. -/
theorem bind {first : ParseM α} {second : α → ParseM β} (hfirst : first.Blind)
    (hsecond : ∀ value, (second value).Blind) : (first >>= second).Blind :=
  fun _ _ _ _ hkept h => (hfirst hkept h).bind fun hafter => hsecond _ hkept hafter

/-- The reply of such an action is the same on parsers that are alike. -/
theorem reply {action : ParseM α} (h : action.Blind) (answer : α → Reply)
    {kept : Parser → Parser → Prop} {depth : Nat} {parser other : Parser}
    (hkept : Parser.Kept kept) (halike : Parser.Alike kept depth parser other) :
    (action.reply answer parser).1 = (action.reply answer other).1 ∧
      ((action.reply answer parser).1 ≠ .stopped .endless →
        Parser.Alike kept depth (action.reply answer parser).2 (action.reply answer other).2) := by
  have hends := h hkept halike
  -- Seen from the other parser, an endless run is found to be endless as well.
  have hback := h Parser.kept_true
    ⟨halike.pending.symm, halike.right, halike.left, trivial⟩
  unfold ParseM.reply
  generalize action.run parser = parsed at hends hback
  generalize action.run other = given at hends hback
  cases hends with
  | endless =>
    cases hback
    exact ⟨rfl, fun hne => absurd rfl hne⟩
  | ok hafter => exact ⟨rfl, fun _ => hafter⟩
  | fault hafter => exact ⟨rfl, fun _ => hafter⟩

end ParseM.Blind

namespace Parser

variable {grammar : Grammar} {limit : Nat}

/-- Stopping with a fault does not depend on the parser. -/
theorem blind_fail {α : Type} (cause : Cause) (position : Position) :
    (fail cause position : ParseM α).Blind := fun _ _ _ _ _ h => .fault h

/-- Taking the next token does the same on parsers that are alike. -/
theorem blind_consume : consume.Blind := by
  intro kept depth parser other hkept h
  rw [run_consume, run_consume, h.token]
  exact .ok (h.next hkept)

/-- Looking ahead does the same on parsers that are alike. -/
theorem blind_lookAhead (distance : Nat) : (lookAhead distance).Blind := by
  intro kept depth parser other hkept h
  rw [run_lookAhead, run_lookAhead, fst_reach, fst_reach, h.pending]
  exact .ok (h.reach hkept distance)

/-- Accepting a token does the same on parsers that are alike. -/
theorem blind_accept (kind : Kind) : (accept kind).Blind := by
  refine (blind_lookAhead 0).bind fun token => ?_
  split
  · exact blind_consume.bind fun _ => ParseM.Blind.pure true
  · exact ParseM.Blind.pure false

/-- Needing a token does the same on parsers that are alike. -/
theorem blind_expect (kind : Kind) : (expect kind).Blind := by
  refine (blind_lookAhead 0).bind fun token => ?_
  split
  · exact blind_consume
  · exact blind_fail _ _

/-- Asking for a level does the same on parsers that are alike. -/
theorem blind_peekLevel (grammar : Grammar) : (peekLevel grammar).Blind := by
  refine (blind_lookAhead 0).bind fun token => ?_
  split
  · exact ParseM.Blind.pure _
  · exact ParseM.Blind.pure _

/-- Where nesting is limited, parsing does the same on parsers that are alike. -/
theorem blind_parseExpr (hlimit : grammar.depthLimit = some limit) (level : Nat) :
    (parseExpr grammar level).Blind :=
  fun _ _ _ _ hkept h => parseExpr_endsAs hlimit hkept h level

/-- Parsing a whole input does the same on parsers that are alike. -/
theorem blind_parseAll (hlimit : grammar.depthLimit = some limit) : (parseAll grammar).Blind :=
  (blind_parseExpr hlimit _).bind fun expr => (blind_expect _).bind fun _ => ParseM.Blind.pure expr

/-- The level asked for is that of the next token, which stays. -/
theorem run_peekLevel (grammar : Grammar) (parser : Parser) :
    (peekLevel grammar).run parser =
      .ok (grammar.level parser.next.1.kind) (parser.next.2.unread parser.next.1) := by
  rw [peekLevel, ParseM.run_bind, run_peek, Grammar.level]
  cases hrule : grammar.infixRule parser.next.1.kind <;> simp only [hrule, ParseM.run_pure]

/-- Reading takes tokens from the front. -/
theorem kept_front (origin : Stream' Token) :
    Kept fun parser _ => ∃ read, origin = read ++ₛ parser.pending := by
  constructor
  · rintro parser _ ⟨read, hread⟩
    refine ⟨read ++ [parser.next.1], ?_⟩
    rw [hread, parser.pending_eq, Stream'.append_append_stream]
    rfl
  · rintro parser _ distance ⟨read, hread⟩
    exact ⟨read, by rw [pending_reach, hread]⟩
  · rintro parser _ inner ⟨read, hread⟩
    exact ⟨read, hread⟩

end Parser

/-- An action that settles has a reply. -/
theorem Parser.Settles.reply_ne {α : Type} {action : ParseM α} {parser : Parser}
    {answer : α → Reply} (h : Parser.Settles action parser)
    (hanswer : ∀ value, answer value ≠ .stopped .endless) :
    (action.reply answer parser).1 ≠ .stopped .endless := by
  unfold Parser.Settles at h
  unfold ParseM.reply
  rcases hrun : action.run parser with ⟨value, last⟩ | ⟨fault | _, last⟩ <;> rw [hrun] at h
  · exact hanswer value
  · nofun
  · exact h.elim

/-- Adding lines to a grammar does not change its limit on nesting. -/
theorem Grammar.depthLimit_addAll (grammar : Grammar) (entries : List Entry) :
    (grammar.addAll entries).depthLimit = grammar.depthLimit := by
  induction entries generalizing grammar with
  | nil => rfl
  | cons entry entries ih => cases entry <;> exact ih _

namespace Step

variable {grammar : Grammar} {limit depth : Nat} {parser other : Parser}
  {kept : Parser → Parser → Prop}

/-- The replies to steps taken one after the other. -/
def replies (grammar : Grammar) (parser : Parser) (steps : List Step) : List Reply :=
  (runAll grammar parser steps).map Prod.fst

/-- The parser after steps taken one after the other. -/
def after (grammar : Grammar) (parser : Parser) (steps : List Step) : Parser :=
  steps.foldl (fun parser step => (step.run grammar parser).2) parser

/-- A step that only asks what is to come. -/
def Looks : Step → Prop
  | lookAhead _ | peekLevel => True
  | _ => False

/-- What a step may do, where the tokens `before` are to come: its reply, and the tokens
that are to come after it. -/
def Takes (grammar : Grammar) (before : Stream' Token) (reply : Reply) (rest : Stream' Token) :
    Step → Prop
  | parse _ => ∃ read, before = read ++ₛ rest
  | accept kind =>
    if before.head.kind = kind then reply = .taken true ∧ rest = before.tail
    else reply = .taken false ∧ rest = before
  | expect kind =>
    if before.head.kind = kind then reply = .token before.head ∧ rest = before.tail
    else reply = .stopped (.fault (before.head.unexpected kind)) ∧ rest = before
  | consume => reply = .token before.head ∧ rest = before.tail
  | lookAhead distance => reply = .token (before.get distance) ∧ rest = before
  | peekLevel => reply = .level (grammar.level before.head.kind) ∧ rest = before

/-- The replies to some steps and then to others. -/
theorem replies_append (grammar : Grammar) (parser : Parser) (steps later : List Step) :
    replies grammar parser (steps ++ later) =
      replies grammar parser steps ++ replies grammar (after grammar parser steps) later := by
  induction steps generalizing parser with
  | nil => rfl
  | cons step steps ih => exact congrArg (_ :: ·) (ih _)

/-- There is one reply to each step. -/
theorem length_replies (grammar : Grammar) (parser : Parser) (steps : List Step) :
    (replies grammar parser steps).length = steps.length := by
  induction steps generalizing parser with
  | nil => rfl
  | cons step steps ih => exact congrArg (· + 1) (ih _)

/-- A step has the same reply on parsers that are alike and leaves them alike, unless it
never ends. -/
theorem run_alike (hlimit : grammar.depthLimit = some limit) (hkept : Parser.Kept kept)
    (h : Parser.Alike kept depth parser other) (step : Step) :
    (step.run grammar parser).1 = (step.run grammar other).1 ∧
      ((step.run grammar parser).1 ≠ .stopped .endless →
        Parser.Alike kept depth (step.run grammar parser).2 (step.run grammar other).2) := by
  cases step with
  | parse level => exact (Parser.blind_parseExpr hlimit level).reply .expr hkept h
  | accept kind => exact (Parser.blind_accept kind).reply .taken hkept h
  | expect kind => exact (Parser.blind_expect kind).reply .token hkept h
  | consume => exact Parser.blind_consume.reply .token hkept h
  | lookAhead distance => exact (Parser.blind_lookAhead distance).reply .token hkept h
  | peekLevel => exact (Parser.blind_peekLevel grammar).reply .level hkept h

/-- Where no end mark extends an expression, every step ends. -/
theorem run_ne_endless (hlimit : grammar.depthLimit = some limit)
    (hend : grammar.infixRule .endOfInput = none) (parser : Parser) (step : Step) :
    (step.run grammar parser).1 ≠ .stopped .endless := by
  cases step with
  | parse level => exact (Parser.settles_parseExpr hlimit hend level parser).reply_ne nofun
  | accept kind => exact (Parser.settles_accept kind parser).reply_ne nofun
  | expect kind => exact (Parser.settles_expect kind parser).reply_ne nofun
  | consume => exact (Parser.settles_consume parser).reply_ne nofun
  | lookAhead distance => nofun
  | peekLevel =>
    rw [run, ParseM.reply, Parser.run_peekLevel]
    nofun

/-- Every step does what it may do. -/
theorem takes_run (hlimit : grammar.depthLimit = some limit)
    (hend : grammar.infixRule .endOfInput = none) (parser : Parser) (step : Step) :
    step.Takes grammar parser.pending (step.run grammar parser).1
      (step.run grammar parser).2.pending := by
  have hhead := parser.head_pending
  have htail : parser.next.2.pending = parser.pending.tail := by rw [parser.pending_eq]; rfl
  cases step with
  | parse level =>
    have halike : Parser.Alike (fun later _ => ∃ read, parser.pending = read ++ₛ later.pending)
        parser.depth parser parser := ⟨rfl, rfl, rfl, [], rfl⟩
    have hafter := (run_alike hlimit (Parser.kept_front _) halike (parse level)).2
      (run_ne_endless hlimit hend parser _)
    exact hafter.kept
  | accept kind =>
    rw [Takes, hhead, run, ParseM.reply, Parser.run_accept]
    by_cases hkind : parser.next.1.kind = kind
    · simp only [hkind, if_true]
      exact ⟨trivial, htail⟩
    · simp only [hkind, if_false]
      exact ⟨trivial, parser.pending_unread_next⟩
  | expect kind =>
    rw [Takes, hhead, run, ParseM.reply, Parser.run_expect]
    by_cases hkind : parser.next.1.kind = kind
    · simp only [hkind, if_true]
      exact ⟨trivial, htail⟩
    · simp only [hkind, if_false]
      exact ⟨rfl, parser.pending_unread_next⟩
  | consume => exact ⟨congrArg Reply.token hhead.symm, htail⟩
  | lookAhead distance =>
    exact ⟨congrArg Reply.token (parser.fst_reach distance), parser.pending_reach distance⟩
  | peekLevel =>
    rw [Takes, hhead, run, ParseM.reply, Parser.run_peekLevel]
    exact ⟨rfl, parser.pending_unread_next⟩

/-- Parsers that are alike have the same replies to all steps. -/
theorem replies_alike (hlimit : grammar.depthLimit = some limit)
    (hend : grammar.infixRule .endOfInput = none)
    (h : Parser.Alike (fun _ _ => True) depth parser other) (steps : List Step) :
    replies grammar parser steps = replies grammar other steps := by
  induction steps generalizing parser other with
  | nil => rfl
  | cons step steps ih =>
    obtain ⟨hreply, hafter⟩ := run_alike hlimit Parser.kept_true h step
    have hrest := ih (hafter (run_ne_endless hlimit hend parser step))
    unfold replies at hrest ⊢
    rw [runAll, runAll, List.map_cons, List.map_cons, hreply, hrest]

/-- No step changes the depth. -/
theorem depth_run (hlimit : grammar.depthLimit = some limit)
    (hend : grammar.infixRule .endOfInput = none) (parser : Parser) (step : Step) :
    (step.run grammar parser).2.depth = parser.depth := by
  have halike : Parser.Alike (fun _ _ => True) parser.depth parser parser :=
    ⟨rfl, rfl, rfl, trivial⟩
  have hafter := (run_alike hlimit Parser.kept_true halike step).2
    (run_ne_endless hlimit hend parser step)
  exact hafter.left

/-- No steps change the depth. -/
theorem depth_after (hlimit : grammar.depthLimit = some limit)
    (hend : grammar.infixRule .endOfInput = none) (parser : Parser) (steps : List Step) :
    (after grammar parser steps).depth = parser.depth := by
  induction steps generalizing parser with
  | nil => rfl
  | cons step steps ih => exact (ih _).trans (depth_run hlimit hend parser step)

/-- A step that only looks changes no later reply. -/
theorem replies_look (hlimit : grammar.depthLimit = some limit)
    (hend : grammar.infixRule .endOfInput = none) (parser : Parser) {look : Step}
    (hlook : look.Looks) (later : List Step) :
    replies grammar (look.run grammar parser).2 later = replies grammar parser later := by
  have hpending : (look.run grammar parser).2.pending = parser.pending := by
    have htakes := takes_run hlimit hend parser look
    cases look with
    | lookAhead distance => exact htakes.2
    | peekLevel => exact htakes.2
    | _ => exact hlook.elim
  exact replies_alike hlimit hend
    ⟨hpending, depth_run hlimit hend parser look, rfl, trivial⟩ later

end Step

/-- A list of tokens with the last mark at its end is given out as such. -/
theorem Supply.stream_ofList_last (read : List Token) {mark : Token} (hmark : mark.IsLast) :
    (Supply.list (.ofList (read ++ [mark]))).stream = read ++ₛ Stream'.const mark := by
  obtain ⟨stop, rfl⟩ := hmark
  have hstop : (Replay.ofList (read ++ [Token.endMark ⟨stop, stop⟩])).stop = stop := by
    simp [Replay.ofList, Token.endMark]
  rw [stream_list, hstop, Replay.ofList, Stream'.append_append_stream]
  exact congrArg (read ++ₛ ·) (Stream'.const_eq _).symm

/-- Whatever a parser is about to read can be given out as a list of tokens. -/
theorem Parser.exists_list_of_pending (parser : Parser) :
    ∃ tokens, (Supply.list (.ofList tokens)).stream = parser.pending := by
  obtain ⟨mark, hmark, hdrop⟩ := parser.endsWithin_pending
  refine ⟨parser.pending.take (parser.ahead.length + parser.supply.size) ++ [mark], ?_⟩
  rw [Supply.stream_ofList_last _ hmark, ← hdrop, Stream'.append_take_drop]

/-- Whatever steps a parser has taken, each further step ends and does to the tokens to come
what it may do. The replies to all further steps are those of a new parser that is given
these tokens, of which there is one, and the replies to all other steps stay the same when
a step that only looks is put in between. -/
theorem Step.replies_of_pending {entries : List Entry}
    (hend : (Grammar.empty.addAll entries).infixRule .endOfInput = none) (supply : Supply)
    (steps : List Step) :
    let grammar := Grammar.empty.addAll entries
    let parser := Step.after grammar (.ofSupply supply) steps
    (∀ step : Step, (step.run grammar parser).1 ≠ .stopped .endless ∧
      step.Takes grammar parser.pending (step.run grammar parser).1
        (step.run grammar parser).2.pending) ∧
    (∃ tokens, (Supply.list (.ofList tokens)).stream = parser.pending) ∧
    (∀ fresh : Supply, fresh.stream = parser.pending → ∀ later,
      Step.replies grammar parser later = Step.replies grammar (.ofSupply fresh) later) ∧
    ∀ look later, look.Looks →
      (Step.replies grammar (.ofSupply supply) (steps ++ look :: later)).eraseIdx steps.length =
        Step.replies grammar (.ofSupply supply) (steps ++ later) := by
  intro grammar parser
  have hlimit : grammar.depthLimit = some Grammar.maxDepth := Grammar.depthLimit_addAll _ entries
  refine ⟨fun step => ⟨?_, ?_⟩, parser.exists_list_of_pending, ?_, ?_⟩
  · exact Step.run_ne_endless hlimit hend parser step
  · exact Step.takes_run hlimit hend parser step
  · intro fresh hfresh later
    have hdepth : parser.depth = 0 := Step.depth_after hlimit hend (.ofSupply supply) steps
    exact Step.replies_alike hlimit hend ⟨hfresh.symm, hdepth, rfl, trivial⟩ later
  · intro look later hlook
    have hlength := Step.length_replies grammar (.ofSupply supply) steps
    rw [Step.replies_append, Step.replies_append, ← hlength,
      List.eraseIdx_append_of_length_le le_rfl, Nat.sub_self]
    exact congrArg (_ ++ ·) (Step.replies_look hlimit hend parser hlook later)

/-- A look far ahead after an expression, also past the end, is not noticed when a missing
parenthesis is asked for. -/
theorem Step.replies_of_pending_look :
    let parser := Parser.ofSupply (.text (.ofText "a! b"))
    (Grammar.empty.addAll Grammar.standardEntries).infixRule .endOfInput = none ∧
      (Step.replies .standard parser [.parse 0, .lookAhead 7, .expect .closeParen]).eraseIdx 1 =
        Step.replies .standard parser [.parse 0, .expect .closeParen] :=
  ⟨rfl, (Step.replies_of_pending rfl _ [.parse 0]).2.2.2 (.lookAhead 7) [.expect .closeParen]
    trivial⟩

end Precedence
