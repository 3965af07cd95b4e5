import Precedence.Proofs.BadTarget

/-!
# The target that is blamed

Tokens with a relaxed derivation are parsed if nothing in it offends, and otherwise the first
offence is reported. And whenever a sign is blamed, the tokens up to it are the beginning of a
derivation in which it offends: a reading that fails there is completed by closing what it has
left open. The main statement is `parseTokens_blames_first`.
-/

namespace Precedence

open Phrase (tier)

/-- Tokens that some others complete to a phrase, whose offence has its sign among them and at a
position. -/
def Phrase.Blames (phrase : Phrase) (read : List Token) (position : Position) : Prop :=
  ∃ derivation others, Relaxed phrase derivation ∧ derivation.tokens = read ++ others ∧
    ∃ assignment, derivation.offence? = some assignment ∧ assignment.place < read.length ∧
      assignment.sign.start = position

namespace Phrase.Blames

variable {phrase inner : Phrase} {read : List Token} {position : Position}

/-- What completes a phrase completes a looser one. -/
theorem lower {n : Nat} (h : (ofTier n).Blames read position) (m : Nat) (hle : m ≤ n) :
    (ofTier m).Blames read position := by
  obtain ⟨derivation, others, hrelaxed, hrest⟩ := h
  exact ⟨derivation, others, hrelaxed.lower m hle, hrest⟩

/-- What completes a part of a phrase completes the phrase with the tokens around the part, if
nothing before the part offends. -/
theorem around (h : inner.Blames read position) (whole : Derivation → Derivation)
    (front back : List Token)
    (hrelaxed : ∀ {part}, Relaxed inner part → Relaxed phrase (whole part))
    (htokens : ∀ part, (whole part).tokens = front ++ (part.tokens ++ back))
    (hoffence : ∀ {part assignment}, part.offence? = some assignment →
      (whole part).offence? = some (assignment.later front.length)) :
    phrase.Blames (front ++ read) position := by
  obtain ⟨part, others, hpart, hread, assignment, hassignment, hplace, hstart⟩ := h
  refine ⟨whole part, others ++ back, hrelaxed hpart, ?_, assignment.later front.length,
    hoffence hassignment, ?_, hstart⟩
  · rw [htokens, hread]
    simp
  · change front.length + assignment.place < _
    rw [List.length_append]
    omega

/-- A token and a phrase that is completed, after one without an offence. -/
theorem joined (h : inner.Blames read position) {before : Derivation} {token : Token}
    (hproper : before.offence? = none)
    (hrelaxed : ∀ {part}, Relaxed inner part → Relaxed phrase (.joined before token part)) :
    phrase.Blames (before.tokens ++ token :: read) position := by
  have hwhole : phrase.Blames (before.tokens ++ [token] ++ read) position :=
    h.around (.joined before token) (before.tokens ++ [token]) [] hrelaxed
      (by simp [Derivation.tokens]) (fun hpart => by simp [hproper, hpart])
  rwa [List.append_assoc] at hwhole

end Phrase.Blames

/-- What it means that a sign is blamed on a task: the tokens read are completed to a phrase in
which that sign offends, whatever was read before. -/
def Task.Blamed (read : List Token) (position : Position) : Task → Prop
  | expression level | beginning level => level ≤ Power.prefixed.level →
      (Phrase.ofTier (tier level)).Blames read position
  | starting rule token => Grammar.standard.prefixRule token.kind = some rule →
      (Phrase.ofTier (tier Power.prefixed.level)).Blames (token :: read) position
  | extending rule left token => Grammar.standard.infixRule token.kind = some rule →
      ∀ {n before}, Relaxed (.ofTier n) before → before.offence? = none →
        (before.isTarget = true ↔ ∃ text, left = .name text) →
        rule.level ≤ (Phrase.ofTier n).follow →
        (Phrase.ofTier (tier (rule.level - 1))).Blames (before.tokens ++ token :: read) position
  | arguments _ => ∀ {before opening}, Relaxed .post before → before.offence? = none →
      opening.kind = .openParen → Phrase.post.Blames (before.tokens ++ opening :: read) position
  | separated _ _ => ∀ call token,
      (∀ {argument}, Relaxed .expression argument → Relaxed .opened (.joined call token argument)) →
      call.offence? = none → Phrase.post.Blames (call.tokens ++ token :: read) position

namespace Task

variable {read : List Token} {position : Position} {token : Token} {left : Expr}

/-- A bad target in a group, which is then closed. -/
theorem blamed_group (h : Blamed read position (.expression Power.lowest.level)) :
    Blamed read position (.starting .group token) := by
  intro hrule
  have hinside : Phrase.expression.Blames read position := h (by decide)
  have hgroup : (Phrase.ofTier 7).Blames ([token] ++ read) position :=
    hinside.around (.group token · (.plain .closeParen)) [token] [.plain .closeParen]
      (fun hpart => .group (Grammar.kind_of_group hrule) hpart rfl) (fun _ => rfl)
      (fun hpart => by simp [hpart])
  exact hgroup.lower _ (by decide)

/-- A bad target after an operator. -/
theorem blamed_operator {power : Power} (h : Blamed read position (.expression power.level)) :
    Blamed read position (.starting (.operator power) token) := by
  intro hrule
  obtain ⟨hsign, rfl⟩ := Grammar.kind_of_operator hrule
  have hoperand : Phrase.pre.Blames read position := h (by decide)
  exact hoperand.around (.signed token) [token] [] (fun hpart => .sign hsign hpart)
    (by simp [Derivation.tokens]) (fun hpart => by simp [hpart])

/-- A bad target in a right operand. -/
theorem blamed_binary {power : Power} {associativity : Associativity}
    (h : Blamed read position (.expression (associativity.threshold power))) :
    Blamed read position (.extending (.binary power associativity) left token) := by
  intro hrule n before hbefore hproper _ hfollow
  rcases Grammar.kind_of_binary hrule with ⟨hsign, rfl, rfl⟩ | ⟨hsign, rfl, rfl⟩ | ⟨hsign, rfl, rfl⟩
  · have hn := Phrase.lt_of_le_follow 1 (by decide) hfollow
    have hright : Phrase.product.Blames read position := h (by decide)
    exact hright.joined hproper (.plus (hbefore.lower 2 hn) hsign)
  · have hn := Phrase.lt_of_le_follow 2 (by decide) hfollow
    have hright : Phrase.exponent.Blames read position := h (by decide)
    exact hright.joined hproper (.times (hbefore.lower 3 hn) hsign)
  · have hn := Phrase.lt_of_le_follow 4 (by decide) hfollow
    have hright : Phrase.exponent.Blames read position := h (by decide)
    exact hright.joined hproper (.caret (hbefore.lower 5 hn) hsign)

/-- A bad target in the first arm of a choice, which is then completed by a name. -/
theorem blamed_yes (h : Blamed read position (.expression Power.lowest.level)) :
    Blamed read position (.extending .conditional left token) := by
  intro hrule n before hbefore hproper _ hfollow
  have hn := Phrase.lt_of_le_follow 1 (by decide) hfollow
  have hyes : Phrase.expression.Blames read position := h (by decide)
  have hname : Relaxed (.ofTier 7) (.identifier (.plain .identifier)) := .identifier rfl
  have hwhole : Phrase.conditional.Blames (before.tokens ++ [token] ++ read) position :=
    hyes.around (.choice before token · (.plain .colon) (.identifier (.plain .identifier)))
      (before.tokens ++ [token]) [.plain .colon, .plain .identifier]
      (fun hpart => .choice (hbefore.lower 2 hn) (Grammar.kind_of_conditional hrule) hpart rfl
        (hname.lower 1 (by decide)))
      (by simp [Derivation.tokens]) (fun hpart => by simp [hproper, hpart])
  rwa [List.append_assoc] at hwhole

/-- A bad target in the second arm of a choice. -/
theorem blamed_no {middle : List Token} {colon : Token} {yes : Expr} {depth : Nat}
    (hyes : Derives .expression middle yes depth) (hcolon : colon.kind = .colon)
    (h : Blamed read position (.expression (Power.conditional.level - 1))) :
    Blamed (middle ++ colon :: read) position (.extending .conditional left token) := by
  intro hrule n before hbefore hproper _ hfollow
  have hn := Phrase.lt_of_le_follow 1 (by decide) hfollow
  have hno : Phrase.conditional.Blames read position := h (by decide)
  obtain ⟨arm, harm, rfl, hfirst, -⟩ := hyes.relaxed
  have hwhole : Phrase.conditional.Blames
      (before.tokens ++ [token] ++ (arm.tokens ++ [colon]) ++ read) position :=
    hno.around (.choice before token arm colon)
      (before.tokens ++ [token] ++ (arm.tokens ++ [colon])) []
      (.choice (hbefore.lower 2 hn) (Grammar.kind_of_conditional hrule) harm hcolon)
      (by simp [Derivation.tokens])
      (fun hpart => by simp [hproper, hfirst, hpart, Nat.add_assoc, Nat.add_comm 1])
  rwa [List.append_assoc, List.append_assoc, List.append_assoc] at hwhole

/-- A bad target in the value of an assignment. -/
theorem blamed_value (h : Blamed read position (.expression (Power.assignment.level - 1))) :
    Blamed read position (.extending .assign left token) := by
  intro hrule n before hbefore hproper _ hfollow
  have hn := Phrase.lt_of_le_follow 0 (by decide) hfollow
  have hvalue : Phrase.expression.Blames read position := h (by decide)
  have hwhole : Phrase.expression.Blames (before.tokens ++ [token] ++ read) position :=
    hvalue.around (.assign before token) (before.tokens ++ [token]) []
      (.assign (hbefore.lower 1 hn) (Grammar.kind_of_assign hrule))
      (by simp [Derivation.tokens]) (fun hpart => by simp [hproper, hpart])
  rwa [List.append_assoc] at hwhole

/-- An assignment to something else than a name. -/
theorem blamed_target {value : Expr} {depth : Nat} (hvalue : Derives .expression read value depth)
    (hassign : left.assignTo value token.start = .error ⟨.invalidAssignmentTarget, position⟩) :
    Blamed read position (.extending .assign left token) := by
  intro hrule n before hbefore hproper hname hfollow
  have hn := Phrase.lt_of_le_follow 0 (by decide) hfollow
  obtain ⟨derivation, hrelaxed, rfl, hlast, -⟩ := hvalue.relaxed
  have htarget : before.isTarget = false ∧ token.start = position := by
    cases left with
    | name text => cases hassign
    | _ =>
      cases hassign
      simpa using hname
  refine ⟨.assign before token derivation, [],
    .assign (hbefore.lower 1 hn) (Grammar.kind_of_assign hrule) hrelaxed, ?_,
    ⟨before, before.tokens.length, token⟩, ?_, ?_, htarget.2⟩
  · simp [Derivation.tokens]
  · simp [hproper, hlast, htarget.1]
  · simp

/-- A bad target in an argument, after which the call is closed. -/
theorem blamed_argument {callee : Expr} {prior : List Expr}
    (h : Blamed read position (.expression Power.lowest.level)) :
    Blamed read position (.separated callee prior) := by
  intro call token hopened hproper
  have hargument : Phrase.expression.Blames read position := h (by decide)
  have hwhole : Phrase.post.Blames (call.tokens ++ [token] ++ read) position :=
    hargument.around (fun part => .ended (.joined call token part) (.plain .closeParen))
      (call.tokens ++ [token]) [.plain .closeParen]
      (fun hpart => .callSome (hopened hpart) rfl) (by simp [Derivation.tokens])
      (fun hpart => by simp [hproper, hpart])
  rwa [List.append_assoc] at hwhole

/-- A bad target after a comma. -/
theorem blamed_more {callee expr : Expr} {prior : List Expr} {first : List Token} {comma : Token}
    {depth : Nat} (hexpr : Derives .expression first expr depth) (hcomma : comma.kind = .comma)
    (h : Blamed read position (.separated callee (prior ++ [expr]))) :
    Blamed (first ++ comma :: read) position (.separated callee prior) := by
  intro call token hopened hproper
  obtain ⟨argument, hargument, rfl, hfirst, -⟩ := hexpr.relaxed
  have hcall : Relaxed .opened (.joined call token argument) := hopened hargument
  have hrest := h _ _ (fun hpart => .callNext hcall hcomma hpart) (by simp [hproper, hfirst])
  simpa [Derivation.tokens] using hrest

end Task

/-- Whenever a target is found to be bad, the sign of its assignment is blamed rightly. -/
theorem Reads.blamed {task : Task} {read : List Token} {following : Token}
    {result : Except Fault Expr} {height : Nat}
    (h : Reads .standard task read following result height) {position : Position}
    (hresult : result = .error ⟨.invalidAssignmentTarget, position⟩) :
    task.Blamed read position := by
  induction h with
  | finish_fault _ ih => exact ih hresult
  | start hrule _ ih =>
    intro hle
    exact (ih hresult hrule).lower _ (Phrase.tier_mono hle)
  | @extend _ _ _ _ _ _ _ _ _ _ hbeginning hrule hlevel _ _ ih =>
    -- The phrase before has a tree, which is that of a derivation in which nothing offends.
    intro hle
    obtain ⟨n, -, hleft, hfollow⟩ := hbeginning.derived rfl hle
    rw [Grammar.level_of_infixRule hrule] at hfollow
    obtain ⟨before, hbefore, rfl, hproper, hname⟩ := hleft.relaxed
    rw [Phrase.relaxed_ofTier] at hbefore
    have hblames := ih hresult hrule hbefore hproper hname hfollow
    exact hblames.lower _ (Phrase.tier_mono (Nat.le_sub_one_of_lt hlevel))
  | group_fault _ ih => exact Task.blamed_group (ih hresult)
  | operator _ ih => exact Task.blamed_operator (ih (eq_error_of_map hresult))
  | binary _ ih => exact Task.blamed_binary (ih (eq_error_of_map hresult))
  | conditional hyes hcolon _ _ ih =>
    obtain ⟨-, inner, -, hmiddle⟩ := hyes.derived rfl (by decide)
    exact Task.blamed_no hmiddle hcolon (ih (eq_error_of_map hresult))
  | conditional_fault _ ih => exact Task.blamed_yes (ih hresult)
  | call _ ih =>
    intro hrule n before hbefore hproper _ hfollow
    have hn := Phrase.lt_of_le_follow 5 (by decide) hfollow
    exact ih hresult (hbefore.lower 6 hn) hproper (Grammar.kind_of_call hrule)
  | @assign _ _ _ _ result _ hvalue ih =>
    -- With a value it is this assignment that is blamed, and otherwise one inside of the value.
    cases result with
    | ok value =>
      obtain ⟨-, inner, -, hderives⟩ := hvalue.derived rfl (by decide)
      exact Task.blamed_target hderives hresult
    | error fault => exact Task.blamed_value (ih hresult)
  | some_arguments _ _ ih =>
    intro before opening hbefore hproper hopening
    exact ih hresult _ _ (fun hpart => .callFirst hbefore hopening hpart) hproper
  | more hexpr hcomma _ _ ih =>
    obtain ⟨-, inner, -, hderives⟩ := hexpr.derived rfl (by decide)
    exact Task.blamed_more hderives hcomma (ih hresult)
  | argument_fault _ ih => exact Task.blamed_argument (ih hresult)
  | no_start | group_open | conditional_open | argument_open | finish | name | group | postfixed
  | no_arguments | last => cases hresult

/-- Tokens with a derivation in which nothing offends are parsed. -/
theorem Relaxed.parseTokens_ok {derivation : Derivation} (h : Relaxed .expression derivation)
    (hproper : derivation.offence? = none) (hdepth : derivation.depth ≤ 255) :
    ∃ expr, parseTokens derivation.tokens = .ok expr := by
  obtain ⟨expr, hderives, -⟩ := h.derives hproper
  have hmark : Grammar.standard.infixRule (endMarkAfter derivation.tokens).kind = none := rfl
  have hreads := (reads_iff_derives hmark).mpr hderives
  exact ⟨expr, parse_of_reads_ok hreads (stream_ofList _) (Nat.succ_le_succ hdepth) rfl⟩

/-- Tokens with a derivation in which something offends are rejected for it. -/
theorem Relaxed.parseTokens_error {derivation : Derivation} (h : Relaxed .expression derivation)
    {assignment : Assignment} (hoffence : derivation.offence? = some assignment)
    (hdepth : derivation.depth ≤ 255) :
    parseTokens derivation.tokens = .error assignment.fault := by
  have hmark : Grammar.standard.infixRule (endMarkAfter derivation.tokens).kind = none := rfl
  obtain ⟨read, next, rest, htokens, height, hheight, hreads⟩ := (h.breaks hoffence).inside hmark
  have hstream : (Supply.list (.ofList derivation.tokens)).stream =
      read ++ₛ Stream'.cons next (rest ++ₛ Stream'.const (endMarkAfter derivation.tokens)) := by
    rw [stream_ofList, ← Stream'.cons_append_stream, ← Stream'.append_append_stream, ← htokens,
      Stream'.append_append_stream]
    rfl
  exact parse_of_rejects (.fault hreads) hstream
    (Nat.le_trans hheight (Nat.succ_le_succ hdepth))

/-- Where a target is found to be bad, the tokens up to there are completed to an expression in
which it offends. -/
theorem blames_of_parseTokens_error {tokens : List Token} {position : Position}
    (h : parseTokens tokens = .error ⟨.invalidAssignmentTarget, position⟩) :
    ∃ last ≤ tokens.length, Phrase.expression.Blames (tokens.take last) position := by
  rcases rejects_of_parse_error h with hdeep | ⟨read, following, rest, height, hstream, -, hrejects⟩
  · cases hdeep
  · obtain ⟨hle, htake, -⟩ := place_of_stream hstream hrejects.kind_ne_endOfInput
    refine ⟨read.length, hle, ?_⟩
    rw [htake]
    cases hrejects with
    | fault hreads => exact hreads.blamed rfl (by decide)

/-- Tokens with a relaxed derivation in which at most 255 positions enclose a token are parsed if
every target is a name, and are otherwise rejected for the first assignment that offends. And
where an equals sign is blamed, some tokens up to a place behind it begin a derivation in which
the target at this sign is no name. -/
theorem parseTokens_blames_first (tokens : List Token) :
    (∀ derivation, Relaxed .expression derivation → derivation.tokens = tokens →
      derivation.depth ≤ 255 →
      match derivation.offence? with
      | none => ∃ expr, parseTokens tokens = .ok expr
      | some assignment => parseTokens tokens = .error assignment.fault) ∧
    ∀ position, parseTokens tokens = .error ⟨.invalidAssignmentTarget, position⟩ →
      ∃ place sign, tokens[place]? = some sign ∧ sign.kind = .assignment ∧ sign.start = position ∧
        ∃ last others derivation, place < last ∧ last ≤ tokens.length ∧
          Relaxed .expression derivation ∧ derivation.tokens = tokens.take last ++ others ∧
          ∃ assignment ∈ derivation.assignments, assignment.place = place ∧
            assignment.sign = sign ∧ assignment.target.isTarget = false := by
  constructor
  · rintro derivation hrelaxed rfl hdepth
    cases hoffence : derivation.offence? with
    | none => exact hrelaxed.parseTokens_ok hoffence hdepth
    | some assignment => exact hrelaxed.parseTokens_error hoffence hdepth
  · intro position hparse
    obtain ⟨last, hlast, derivation, others, hrelaxed, htokens, assignment, hoffence, hplace,
      hstart⟩ := blames_of_parseTokens_error hparse
    have hmem : assignment ∈ derivation.assignments := List.mem_of_find?_eq_some hoffence
    have hbad : assignment.target.isTarget = false := by
      simpa [Assignment.offends] using List.find?_some hoffence
    have hsign : tokens[assignment.place]? = some assignment.sign := by
      have hwhole := derivation.getElem?_place assignment hmem
      rw [htokens, List.getElem?_append_left hplace] at hwhole
      rw [List.length_take] at hplace
      rwa [List.getElem?_take_of_lt (by omega)] at hwhole
    rw [List.length_take] at hplace
    exact ⟨assignment.place, assignment.sign, hsign, hrelaxed.kind_sign assignment hmem, hstart,
      last, others, derivation, by omega, hlast, hrelaxed, htokens, assignment, hmem, rfl, rfl,
      hbad⟩

/-- In `a! = b! = c` neither target is a name, and the second equals sign is blamed. -/
theorem parseTokens_blames_second :
    let token : Kind → Nat → Token := fun kind start => ⟨kind, "", .between shell start (start + 1)⟩
    let name : Nat → Derivation := fun start => .identifier (token .identifier start)
    let value : Derivation :=
      .assign (.ended (name 5) (token .bang 6)) (token .assignment 8) (name 10)
    let whole : Derivation :=
      .assign (.ended (name 0) (token .bang 1)) (token .assignment 3) value
    let position : Position := ⟨8, shell⟩
    Relaxed .expression whole ∧ whole.assignments.map (·.offends) = [true, true] ∧
      parseTokens whole.tokens = .error ⟨.invalidAssignmentTarget, position⟩ ∧
      ∃ place sign, whole.tokens[place]? = some sign ∧ sign.start = position ∧
        ∃ last others derivation, place < last ∧ Relaxed .expression derivation ∧
          derivation.tokens = whole.tokens.take last ++ others := by
  intro token name value whole position
  have hname : ∀ start, Relaxed (.ofTier 7) (name start) := fun _ => .identifier rfl
  have hbang : ∀ start sign, Relaxed (.ofTier 6) (.ended (name start) (token .bang sign)) :=
    fun start _ => .bang ((hname start).lower 6 (by decide)) rfl
  have hvalue : Relaxed .expression value :=
    .assign ((hbang 5 6).lower 1 (by decide)) rfl ((hname 10).lower 0 (by decide))
  have hwhole : Relaxed .expression whole :=
    .assign ((hbang 0 1).lower 1 (by decide)) rfl hvalue
  have hparse : parseTokens whole.tokens = .error ⟨.invalidAssignmentTarget, position⟩ :=
    (parseTokens_blames_first whole.tokens).1 whole hwhole rfl (by decide)
  obtain ⟨place, sign, hsign, -, hstart, last, others, derivation, hlast, -, hrelaxed, htokens,
    -⟩ := (parseTokens_blames_first whole.tokens).2 position hparse
  exact ⟨hwhole, rfl, hparse, place, sign, hsign, hstart, last, others, derivation, hlast, hrelaxed,
    htokens⟩

end Precedence
