import Precedence.Proofs.WholeInput

/-!
# Faults at the earliest token

A token that does not fit is found as soon as it is seen. What was read before it can
still be completed: operands that are missing are added, and everything that is open is
closed. What is read up to and including it cannot, whatever comes afterwards. The one
thing that may go wrong on the way is a target that cannot be assigned to, which is
looked at only after the value.
-/

namespace Precedence

/-- A cause that lies in a token which does not fit. -/
def Cause.Syntactic : Cause → Prop
  | noPrefixRule _ | unexpectedToken _ _ => True
  | invalidAssignmentTarget | nestingTooDeep _ => False

/-- A token of a kind, wherever it may come from. -/
def Token.plain (kind : Kind) : Token := ⟨kind, kind.display, default⟩

/-- A token is at fault where no expression starts with it or another kind is needed. -/
def Token.Offends (token : Token) (fault : Fault) : Prop :=
  fault = token.noPrefixRule ∨ ∃ expected, fault = token.unexpected expected

namespace Task

/-- A task that is completed by what has been read, before any token that extends
nothing and without nesting expressions deeper than `height`. -/
def Closes (read : List Token) (height : Nat) (task : Task) : Prop :=
  ∀ next : Token, Grammar.standard.infixRule next.kind = none →
    ∃ expr, ∃ lower ≤ height, Reads .standard task read next (.ok expr) lower

/-- A task that finds a target that cannot be assigned to in what has been read, in the
same circumstances. -/
def Misassigns (read : List Token) (height : Nat) (task : Task) : Prop :=
  ∀ next : Token, Grammar.standard.infixRule next.kind = none →
    ∃ position, ∃ lower ≤ height,
      Reads .standard task read next (.error ⟨.invalidAssignmentTarget, position⟩) lower

/-- A task that ends in one of these two ways if some tokens are added. -/
def Closable (read : List Token) (height : Nat) (task : Task) : Prop :=
  ∃ others, task.Closes (read ++ others) height ∨ task.Misassigns (read ++ others) height

variable {task other : Task} {read : List Token} {height bound : Nat}

/-- A task that is completed needs no more tokens. -/
theorem Closes.closable (h : task.Closes read height) : task.Closable read height :=
  ⟨[], .inl (by rwa [List.append_nil])⟩

/-- A task that is a part of another can be ended if the other can be ended after it, and
if the other finds a bad target where the part does. -/
theorem Closable.lift (h : task.Closable read height) (whole : List Token → List Token)
    (hwhole : ∀ read others, whole (read ++ others) = whole read ++ others)
    (hcloses : ∀ {read}, task.Closes read height → other.Closable (whole read) bound)
    (hfault : ∀ {read next position lower}, lower ≤ height →
      Reads .standard task read next (.error ⟨.invalidAssignmentTarget, position⟩) lower →
      ∃ more ≤ bound, Reads .standard other (whole read) next
        (.error ⟨.invalidAssignmentTarget, position⟩) more) :
    other.Closable (whole read) bound := by
  obtain ⟨others, hread | hread⟩ := h
  · obtain ⟨more, hmore⟩ := hcloses hread
    rw [hwhole, List.append_assoc] at hmore
    exact ⟨others ++ more, hmore⟩
  · refine ⟨others, .inr fun next hnext => ?_⟩
    obtain ⟨position, lower, hlower, hreads⟩ := hread next hnext
    obtain ⟨more, hmore, hlast⟩ := hfault hlower hreads
    rw [hwhole] at hlast
    exact ⟨position, more, hmore, hlast⟩

/-- A task that needs no tokens of its own ends where its part ends. -/
theorem Closable.pass (h : task.Closable read height) (whole : List Token → List Token)
    (hwhole : ∀ read others, whole (read ++ others) = whole read ++ others)
    (hok : ∀ {read next expr lower}, Grammar.standard.infixRule next.kind = none →
      lower ≤ height → Reads .standard task read next (.ok expr) lower →
      ∃ longer, ∃ more ≤ bound, Reads .standard other (whole read) next (.ok longer) more)
    (hfault : ∀ {read next position lower}, lower ≤ height →
      Reads .standard task read next (.error ⟨.invalidAssignmentTarget, position⟩) lower →
      ∃ more ≤ bound, Reads .standard other (whole read) next
        (.error ⟨.invalidAssignmentTarget, position⟩) more) :
    other.Closable (whole read) bound := by
  refine h.lift whole hwhole (fun hcloses => Closes.closable fun next hnext => ?_) hfault
  obtain ⟨expr, lower, hlower, hreads⟩ := hcloses next hnext
  exact hok hnext hlower hreads

/-- An expression that has been read is completed. -/
theorem closes_expression {level : Nat} {following : Token} {expr : Expr}
    (h : Reads .standard (.expression level) read following (.ok expr) height) :
    (expression level).Closes read height :=
  fun _ hnext => ⟨expr, height, Nat.le_refl _, h.of_following rfl rfl hnext⟩

/-- A group is closed by a closing parenthesis. -/
theorem Closes.group {token : Token} (h : (expression Power.lowest.level).Closes read height) :
    (starting .group token).Closable read height := by
  refine ⟨[.plain .closeParen], .inl fun next _ => ?_⟩
  obtain ⟨expr, lower, hlower, hreads⟩ := h (.plain .closeParen) rfl
  exact ⟨expr, lower, hlower, .group hreads rfl⟩

/-- A choice is completed by a colon and a name. -/
theorem Closes.conditional {left : Expr} {token : Token} (hheight : 0 < height)
    (h : (expression Power.lowest.level).Closes read height) :
    (extending .conditional left token).Closable read height := by
  refine ⟨[.plain .colon, .plain .identifier], .inl fun next hnext => ?_⟩
  obtain ⟨yes, lower, hlower, hyes⟩ := h (.plain .colon) rfl
  have hname : Reads .standard (.beginning (Power.conditional.level - 1)) [.plain .identifier] next
      (.ok (.name (Token.plain .identifier).value)) 0 := .start rfl .name
  have hno := hname.finish (by rw [Grammar.level_of_none hnext]; exact Nat.zero_le _)
  exact ⟨_, max lower 1, by omega, .conditional hyes rfl hno⟩

/-- The arguments of a call are closed by a closing parenthesis. -/
theorem Closes.argument {callee : Expr} {before : List Expr}
    (h : (expression Power.lowest.level).Closes read height) :
    (separated callee before).Closable read height := by
  refine ⟨[.plain .closeParen], .inl fun next _ => ?_⟩
  obtain ⟨expr, lower, hlower, hreads⟩ := h (.plain .closeParen) rfl
  exact ⟨_, lower, hlower, .last hreads rfl⟩

/-- An assignment is completed by its value, if its target is a name. -/
theorem Closes.assign {left : Expr} {token : Token}
    (h : (expression (Power.assignment.level - 1)).Closes read height) :
    (extending .assign left token).Closable read height := by
  refine ⟨[], ?_⟩
  rw [List.append_nil]
  cases hname : left.name? with
  | some text =>
    refine .inl fun next hnext => ?_
    obtain ⟨value, lower, hlower, hreads⟩ := h next hnext
    have hassign : Reads .standard (.extending .assign left token) read next
        (left.assignTo value token.start) lower := .assign hreads
    rw [Expr.assignTo, hname] at hassign
    exact ⟨_, lower, hlower, hassign⟩
  | none =>
    refine .inr fun next hnext => ?_
    obtain ⟨value, lower, hlower, hreads⟩ := h next hnext
    have hassign : Reads .standard (.extending .assign left token) read next
        (left.assignTo value token.start) lower := .assign hreads
    rw [Expr.assignTo, hname] at hassign
    exact ⟨_, lower, hlower, hassign⟩

end Task

/-- A mapped result is at fault only if the result is. -/
theorem eq_error_of_map {result : Except Fault Expr} {f : Expr → Expr} {fault : Fault}
    (h : result.map f = .error fault) : result = .error fault := by
  cases result with
  | ok value => cases h
  | error other =>
    cases h
    rfl

/-- An assignment that fails has a target that is not a name. -/
theorem Expr.cause_of_assignTo {target value : Expr} {position : Position} {fault : Fault}
    (h : target.assignTo value position = .error fault) :
    fault.cause = .invalidAssignmentTarget := by
  unfold assignTo at h
  split at h
  · cases h
  · cases h
    rfl

namespace Reads

variable {task : Task} {read : List Token} {following : Token} {result : Except Fault Expr}
  {height : Nat}

/-- Expressions are nested at least once in an expression. -/
theorem height_pos {grammar : Grammar} {level : Nat}
    (h : Reads grammar (.expression level) read following result height) : 0 < height := by
  cases h <;> exact Nat.succ_pos _

/-- Whatever is read before a token that does not fit can be ended without that token. -/
theorem closable (h : Reads .standard task read following result height) {fault : Fault}
    (hresult : result = .error fault) (hcause : fault.cause.Syntactic) :
    task.Closable read height := by
  induction h with
  | @finish_fault level _ _ _ _ _ ih =>
    refine (ih hresult).pass id (fun _ _ => rfl) ?_ ?_
    · intro read next expr lower hnext hlower hreads
      have hlevel : Grammar.standard.level next.kind ≤ level := by
        rw [Grammar.level_of_none hnext]
        exact Nat.zero_le _
      exact ⟨expr, lower + 1, by omega, hreads.finish hlevel⟩
    · intro read next position lower hlower hreads
      exact ⟨lower + 1, by omega, hreads.finish_fault⟩
  | no_start =>
    refine ⟨[.plain .identifier], .inl fun next _ => ?_⟩
    exact ⟨_, 0, Nat.le_refl _, .start rfl .name⟩
  | @start _ token _ _ _ _ _ hrule _ ih =>
    refine (ih hresult).pass (token :: ·) (fun _ _ => rfl) ?_ ?_
    · intro read next expr lower _ hlower hreads
      exact ⟨expr, lower, hlower, .start hrule hreads⟩
    · intro read next position lower hlower hreads
      exact ⟨lower, hlower, .start hrule hreads⟩
  | @extend _ before token _ _ _ _ height _ _ hbeginning hrule hlevel _ _ ih =>
    apply (ih hresult).pass (before ++ token :: ·) (by simp)
    · intro read next expr lower _ hlower hreads
      exact ⟨expr, max height lower, by omega, .extend hbeginning hrule hlevel hreads⟩
    · intro read next position lower hlower hreads
      exact ⟨max height lower, by omega, .extend hbeginning hrule hlevel hreads⟩
  | group_fault _ ih =>
    refine (ih hresult).lift id (fun _ _ => rfl) Task.Closes.group ?_
    intro read next position lower hlower hreads
    exact ⟨lower, hlower, .group_fault hreads⟩
  | group_open hexpr _ _ => exact (Task.closes_expression hexpr).group
  | @operator _ _ _ _ result _ _ ih =>
    refine (ih (eq_error_of_map hresult)).pass id (fun _ _ => rfl) ?_ ?_
    · intro read next expr lower _ hlower hreads
      exact ⟨_, lower, hlower, .operator hreads⟩
    · intro read next position lower hlower hreads
      exact ⟨lower, hlower, .operator hreads⟩
  | binary _ ih =>
    refine (ih (eq_error_of_map hresult)).pass id (fun _ _ => rfl) ?_ ?_
    · intro read next expr lower _ hlower hreads
      exact ⟨_, lower, hlower, .binary hreads⟩
    · intro read next position lower hlower hreads
      exact ⟨lower, hlower, .binary hreads⟩
  | @conditional _ _ middle colon _ _ _ _ height _ hyes hcolon _ _ ih =>
    apply (ih (eq_error_of_map hresult)).pass (middle ++ colon :: ·) (by simp)
    · intro read next expr lower _ hlower hreads
      exact ⟨_, max height lower, by omega, .conditional hyes hcolon hreads⟩
    · intro read next position lower hlower hreads
      exact ⟨max height lower, by omega, .conditional hyes hcolon hreads⟩
  | conditional_fault hyes ih =>
    refine (ih hresult).lift id (fun _ _ => rfl) (Task.Closes.conditional hyes.height_pos) ?_
    intro read next position lower hlower hreads
    exact ⟨lower, hlower, .conditional_fault hreads⟩
  | conditional_open hyes _ _ => exact (Task.closes_expression hyes).conditional hyes.height_pos
  | call _ ih =>
    refine (ih hresult).pass id (fun _ _ => rfl) ?_ ?_
    · intro read next expr lower _ hlower hreads
      exact ⟨expr, lower, hlower, .call hreads⟩
    · intro read next position lower hlower hreads
      exact ⟨lower, hlower, .call hreads⟩
  | @assign left token _ _ result _ _ ih =>
    cases result with
    | ok value =>
      rw [Expr.cause_of_assignTo hresult] at hcause
      exact absurd hcause id
    | error other =>
      refine (ih hresult).lift id (fun _ _ => rfl) Task.Closes.assign ?_
      intro read next position lower hlower hreads
      exact ⟨lower, hlower, .assign hreads⟩
  | some_arguments _ _ ih =>
    refine (ih hresult).pass id (fun _ _ => rfl) ?_ ?_
    · intro read next expr lower _ hlower hreads
      exact ⟨expr, lower, hlower, arguments_of_separated rfl hreads (by simp)⟩
    · intro read next position lower hlower hreads
      exact ⟨lower, hlower, arguments_of_separated rfl hreads (by simp [Token.noPrefixRule])⟩
  | @more _ _ first comma _ _ _ _ height _ hexpr hcomma _ _ ih =>
    apply (ih hresult).pass (first ++ comma :: ·) (by simp)
    · intro read next expr lower _ hlower hreads
      exact ⟨expr, max height lower, by omega, .more hexpr hcomma hreads⟩
    · intro read next position lower hlower hreads
      exact ⟨max height lower, by omega, .more hexpr hcomma hreads⟩
  | argument_fault _ ih =>
    refine (ih hresult).lift id (fun _ _ => rfl) Task.Closes.argument ?_
    intro read next position lower hlower hreads
    exact ⟨lower, hlower, .argument_fault hreads⟩
  | argument_open hexpr _ _ _ => exact (Task.closes_expression hexpr).argument
  | finish | name | group | postfixed | no_arguments | last => cases hresult

/-- A token that does not fit is the one that is seen next. -/
theorem offends (h : Reads .standard task read following result height) {fault : Fault}
    (hresult : result = .error fault) (hcause : fault.cause.Syntactic) :
    following.Offends fault := by
  induction h with
  | finish_fault _ ih | start _ _ ih | extend _ _ _ _ _ ih | group_fault _ ih
  | conditional_fault _ ih | call _ ih | some_arguments _ _ ih | more _ _ _ _ ih
  | argument_fault _ ih => exact ih hresult
  | no_start =>
    cases hresult
    exact .inl rfl
  | group_open | conditional_open | argument_open =>
    cases hresult
    exact .inr ⟨_, rfl⟩
  | operator _ ih | binary _ ih | conditional _ _ _ _ ih => exact ih (eq_error_of_map hresult)
  | @assign _ _ _ _ result _ _ ih =>
    cases result with
    | ok value =>
      rw [Expr.cause_of_assignTo hresult] at hcause
      exact absurd hcause id
    | error other => exact ih hresult
  | finish | name | group | postfixed | no_arguments | last => cases hresult

end Reads

/-- Tokens that can be continued so that they are parsed, or fail only because of a target
that cannot be assigned to. -/
def Viable (tokens : List Token) : Prop :=
  ∃ others, (∃ expr, parseTokens (tokens ++ others) = .ok expr) ∨
    ∃ position, parseTokens (tokens ++ others) = .error ⟨.invalidAssignmentTarget, position⟩

namespace Rejects

variable {read : List Token} {following : Token} {fault : Fault} {height : Nat}

/-- A whole input is rejected at the token that does not fit. -/
theorem offends (h : Rejects read following fault height) (hcause : fault.cause.Syntactic) :
    following.Offends fault := by
  cases h with
  | fault hreads => exact hreads.offends rfl hcause
  | unfinished => exact .inr ⟨_, rfl⟩

/-- No end mark is taken before an input is rejected. -/
theorem kind_ne_endOfInput (h : Rejects read following fault height) :
    ∀ token ∈ read, token.kind ≠ .endOfInput := by
  cases h with
  | fault hreads => exact hreads.kind_ne_endOfInput rfl rfl
  | unfinished hreads _ => exact hreads.kind_ne_endOfInput rfl rfl

/-- What comes before the token at which an input is rejected can be continued. -/
theorem viable (h : Rejects read following fault height) (hcause : fault.cause.Syntactic)
    (hheight : height ≤ Grammar.maxDepth) : Viable read := by
  cases h with
  | fault hreads =>
    obtain ⟨others, hcloses | hmisassigns⟩ := hreads.closable rfl hcause
    · obtain ⟨expr, lower, hlower, hlast⟩ := hcloses (endMarkAfter (read ++ others)) rfl
      have hparse := parse_of_reads_ok hlast (stream_ofList _) (Nat.le_trans hlower hheight) rfl
      exact ⟨others, .inl ⟨expr, hparse⟩⟩
    · obtain ⟨position, lower, hlower, hlast⟩ := hmisassigns (endMarkAfter (read ++ others)) rfl
      have hparse := parse_of_rejects (.fault hlast) (stream_ofList _) (Nat.le_trans hlower hheight)
      exact ⟨others, .inr ⟨position, hparse⟩⟩
  | unfinished hreads _ =>
    have hlast := hreads.of_following rfl rfl
      (show Grammar.standard.infixRule (endMarkAfter read).kind = none from rfl)
    have hparse := parse_of_reads_ok hlast (stream_ofList read) hheight rfl
    exact ⟨[], .inl ⟨_, by rwa [List.append_nil]⟩⟩

/-- What comes after the token at which an input is rejected makes no difference. -/
theorem parseTokens_append (h : Rejects read following fault height)
    (hheight : height ≤ Grammar.maxDepth) (others : List Token) :
    parseTokens (read ++ following :: others) = .error fault := by
  have hstream := stream_ofList (read ++ following :: others)
  rw [Stream'.append_append_stream, Stream'.cons_append_stream] at hstream
  exact parse_of_rejects h hstream hheight

end Rejects

/-- The token at a place of an input, which is the end mark after the last token. -/
def tokenAt (tokens : List Token) (place : Nat) : Token :=
  tokens.getD place (endMarkAfter tokens)

/-- Where the tokens that have been read end in a list of tokens. -/
theorem place_of_stream {read tokens : List Token} {following : Token} {rest : Stream' Token}
    (h : (Supply.list (.ofList tokens)).stream = read ++ₛ Stream'.cons following rest)
    (hread : ∀ token ∈ read, token.kind ≠ .endOfInput) :
    read.length ≤ tokens.length ∧ tokens.take read.length = read ∧
      tokenAt tokens read.length = following ∧
      rest = tokens.drop (read.length + 1) ++ₛ Stream'.const (endMarkAfter tokens) := by
  rw [stream_ofList] at h
  obtain ⟨after, rfl, hafter⟩ := exists_append_of_stream h hread rfl
  refine ⟨by simp, by simp, ?_⟩
  cases after with
  | nil =>
    obtain ⟨hfollowing, hrest⟩ := Stream'.cons_injective2 hafter
    constructor
    · simpa [tokenAt] using hfollowing
    · rw [List.drop_eq_nil_of_le (by simp), ← hrest]
      rfl
  | cons token after =>
    obtain ⟨hfollowing, hrest⟩ := Stream'.cons_injective2 hafter
    constructor
    · simpa [tokenAt] using hfollowing
    · rw [← hrest, ← Stream'.const_eq]
      simp

/-- Tokens that go beyond a place at which nothing can help are not viable. -/
theorem not_viable_of_final {tokens : List Token} {fault : Fault} {place later : Nat}
    (hcause : fault.cause.Syntactic) (hlt : place < later)
    (hfinal : ∀ others, parseTokens (tokens.take (place + 1) ++ others) = .error fault) :
    ¬ Viable (tokens.take later) := by
  have hsplit : tokens.take (place + 1) ++ (tokens.take later).drop (place + 1) =
      tokens.take later := by
    have htake := List.take_append_drop (place + 1) (tokens.take later)
    rwa [List.take_take, Nat.min_eq_left hlt] at htake
  have hfails : ∀ others, parseTokens (tokens.take later ++ others) = .error fault := by
    intro others
    rw [← hsplit, List.append_assoc]
    exact hfinal _
  rintro ⟨others, ⟨expr, hok⟩ | ⟨position, hbad⟩⟩
  · rw [hfails] at hok
    cases hok
  · rw [hfails] at hbad
    cases hbad
    exact hcause

/-- What it means that a fault is reported at the earliest place. -/
structure Fault.EarliestAt (fault : Fault) (tokens : List Token) (place : Nat) : Prop where
  /-- The place is that of a token or of the end mark after the last one. -/
  le : place ≤ tokens.length
  /-- The fault names the token at that place. -/
  offends : (tokenAt tokens place).Offends fault
  /-- The parser stops when it has seen that token and none after it. -/
  stops : ∃ after, (Parser.parseAll .standard).run (.ofSupply (.list (.ofList tokens))) =
      .stop (.fault fault) after ∧
    after.pending = fault.cause.remainder (tokenAt tokens place)
      (tokens.drop (place + 1) ++ₛ Stream'.const (endMarkAfter tokens))
  /-- What comes before that token can be continued. -/
  viable : Viable (tokens.take place)
  /-- What comes up to and including that token has the same fault however it goes on. -/
  final : place < tokens.length → ∀ others,
    parseTokens (tokens.take (place + 1) ++ others) = .error fault

/-- A token that does not fit is reported at the earliest place, and at no other. -/
theorem parseTokens_error_earliest {tokens : List Token} {fault : Fault}
    (hparse : parseTokens tokens = .error fault) (hcause : fault.cause.Syntactic) :
    ∃! place, fault.EarliestAt tokens place := by
  rcases rejects_of_parse_error hparse with hdeep |
    ⟨read, following, rest, height, hstream, hheight, hrejects⟩
  · rw [hdeep] at hcause
    exact absurd hcause id
  · obtain ⟨hle, htake, hat, hrest⟩ := place_of_stream hstream hrejects.kind_ne_endOfInput
    have hfinal : read.length < tokens.length → ∀ others,
        parseTokens (tokens.take (read.length + 1) ++ others) = .error fault := by
      intro hlt others
      have hnext : tokens.take (read.length + 1) = read ++ [following] := by
        rw [List.take_add_one, htake, ← hat]
        simp [tokenAt, hlt]
      rw [hnext, List.append_assoc]
      exact hrejects.parseTokens_append hheight others
    have hearliest : fault.EarliestAt tokens read.length := by
      constructor
      · exact hle
      · rw [hat]
        exact hrejects.offends hcause
      · rw [hat, ← hrest]
        exact hrejects.run hstream hheight
      · rw [htake]
        exact hrejects.viable hcause hheight
      · exact hfinal
    refine ⟨read.length, hearliest, fun other hother => ?_⟩
    rcases Nat.lt_trichotomy other read.length with hlt | heq | hgt
    · have hnot := not_viable_of_final hcause hlt (hother.final (by omega))
      exact absurd hearliest.viable hnot
    · exact heq
    · have hlt : read.length < tokens.length := Nat.lt_of_lt_of_le hgt hother.le
      have hnot := not_viable_of_final hcause hgt (hfinal hlt)
      exact absurd hother.viable hnot

/-- In `( a + ) b` the closing parenthesis is at fault. -/
theorem parseTokens_unfinished_sum :
    let tokens := [Token.plain .openParen, .plain .identifier, .plain .plus, .plain .closeParen,
      .plain .identifier]
    let fault := (Token.plain .closeParen).noPrefixRule
    parseTokens tokens = .error fault ∧ ∃! place, fault.EarliestAt tokens place := by
  intro tokens fault
  have hparse : parseTokens tokens = .error fault := rfl
  exact ⟨hparse, parseTokens_error_earliest hparse trivial⟩

end Precedence
