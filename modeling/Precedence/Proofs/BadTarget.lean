import Precedence.Proofs.EarliestFault
import Precedence.Proofs.Relaxed
import Precedence.Proofs.StratifiedParse

/-!
# Bad targets

The target of an assignment is looked at after its value has been read, when a group has left no
trace in its tree. On the tokens of a relaxed derivation the parser still fails at the first
assignment whose target is no name: everything before it is read with a tree, and nothing behind
it is looked at. The main statement is `Relaxed.breaks`, by induction on the derivation, with one
lemma for each place where the bad target can be.
-/

namespace Precedence

/-- On this task a target that cannot be assigned to is found before the tokens are at their end,
where the sign of the assignment is at a position and expressions are nested `depth` deep at
most. -/
def Task.BreaksIn (tokens : List Token) (position : Position) (depth : Nat) (task : Task) : Prop :=
  ∃ read next rest, tokens = read ++ next :: rest ∧ ∃ height ≤ depth,
    Reads .standard task read next (.error ⟨.invalidAssignmentTarget, position⟩) height

namespace Task.BreaksIn

variable {task other : Task} {tokens before : List Token} {position : Position}
  {depth more level : Nat} {token : Token} {left : Expr}

/-- More tokens change nothing. -/
theorem append (h : task.BreaksIn tokens position depth) (others : List Token)
    (hle : depth ≤ more) : task.BreaksIn (tokens ++ others) position more := by
  obtain ⟨read, next, rest, rfl, height, hheight, hreads⟩ := h
  exact ⟨read, next, rest ++ others, by simp, height, by omega, hreads⟩

/-- A bad target in a part of a task is found on the whole task. -/
theorem lift (h : task.BreaksIn tokens position depth) (before : List Token)
    (hreads : ∀ {read next height}, height ≤ depth →
      Reads .standard task read next (.error ⟨.invalidAssignmentTarget, position⟩) height →
      ∃ bound ≤ more, Reads .standard other (before ++ read) next
        (.error ⟨.invalidAssignmentTarget, position⟩) bound) :
    other.BreaksIn (before ++ tokens) position more := by
  obtain ⟨read, next, rest, rfl, height, hheight, hpart⟩ := h
  obtain ⟨bound, hbound, hwhole⟩ := hreads hheight hpart
  exact ⟨before ++ read, next, rest, by simp, bound, hbound, hwhole⟩

/-- A bad target is found in what follows the first token of an expression. -/
theorem start {rule : PrefixRule} (hrule : Grammar.standard.prefixRule token.kind = some rule)
    (h : (starting rule token).BreaksIn tokens position depth) :
    (beginning level).BreaksIn (token :: tokens) position depth :=
  h.lift [token] fun hheight hreads => ⟨_, hheight, .start hrule hreads⟩

/-- A bad target is found in what extends a phrase. -/
theorem extend {phrase : Phrase} {rule : InfixRule} (hleft : phrase.Taken before left depth)
    (hrule : Grammar.standard.infixRule token.kind = some rule)
    (hfollow : rule.level ≤ phrase.follow) (hceiling : level < phrase.ceiling)
    (hlevel : level < rule.level) (h : (extending rule left token).BreaksIn tokens position more) :
    (beginning level).BreaksIn (before ++ token :: tokens) position (max depth more) := by
  have hbefore : Reads .standard (.beginning level) before token (.ok left) depth :=
    hleft hceiling (by rwa [Grammar.level_of_infixRule hrule])
  have hwhole : (beginning level).BreaksIn (before ++ [token] ++ tokens) position
      (max depth more) := by
    refine h.lift (before ++ [token]) fun {read next height} hheight hreads =>
      ⟨max depth height, by omega, ?_⟩
    rw [List.append_assoc]
    exact .extend hbefore hrule hlevel hreads
  rwa [List.append_assoc] at hwhole

/-- A bad target in an argument is found in the arguments. -/
theorem argument {callee : Expr} {prior : List Expr}
    (h : (expression Power.lowest.level).BreaksIn tokens position depth) :
    (separated callee prior).BreaksIn tokens position depth :=
  h.lift [] fun hheight hreads => ⟨_, hheight, .argument_fault hreads⟩

/-- A bad target after a comma is found in the arguments. -/
theorem next {callee expr : Expr} {prior : List Expr} {comma : Token}
    (hexpr : Reads .standard (.expression Power.lowest.level) before comma (.ok expr) depth)
    (hcomma : comma.kind = .comma)
    (h : (separated callee (prior ++ [expr])).BreaksIn tokens position more) :
    (separated callee prior).BreaksIn (before ++ comma :: tokens) position (max depth more) := by
  have hwhole : (separated callee prior).BreaksIn (before ++ [comma] ++ tokens) position
      (max depth more) := by
    refine h.lift (before ++ [comma]) fun {read next height} hheight hreads =>
      ⟨max depth height, by omega, ?_⟩
    rw [List.append_assoc]
    exact .more hexpr hcomma hreads
  rwa [List.append_assoc] at hwhole

/-- A bad target in the arguments is found after the phrase that is called. -/
theorem call {callee : Expr} {opening : Token} (hcallee : Phrase.post.Taken before callee depth)
    (hopening : opening.kind = .openParen) (hlevel : level < Power.postfixed.level)
    (h : (separated callee []).BreaksIn tokens position more) :
    (beginning level).BreaksIn (before ++ opening :: tokens) position (max depth more) := by
  have harguments : (extending .call callee opening).BreaksIn tokens position more := by
    refine h.lift [] fun hheight hreads => ⟨_, hheight, .call ?_⟩
    exact Reads.arguments_of_separated rfl hreads (by simp [Token.noPrefixRule])
  exact extend hcallee (by rw [hopening]; rfl) (by decide) hlevel (Nat.lt_trans hlevel (by decide))
    harguments

/-- A bad target in the arms of a choice is found after the test. -/
theorem choice {question : Token} (htest : Phrase.sum.Taken before left depth)
    (hquestion : question.kind = .question) (hlevel : level < Power.conditional.level)
    (h : (extending .conditional left question).BreaksIn tokens position more) :
    (beginning level).BreaksIn (before ++ question :: tokens) position (max depth more) := by
  have hrule : Grammar.standard.infixRule question.kind = some .conditional := by
    rw [hquestion]
    rfl
  exact extend htest hrule (by decide) (Nat.lt_trans hlevel (by decide)) hlevel h

end Task.BreaksIn

namespace Phrase

/-- The tightest level at which a token may follow a phrase that has a bad target in it. An open
call has to be followed by what goes on with it. -/
def margin (phrase : Phrase) : Nat := if phrase = opened then Power.lowest.level else phrase.follow

/-- In a phrase a bad target is found by every expression that is loose enough. -/
def Breaks (phrase : Phrase) (tokens : List Token) (position : Position) (depth : Nat) : Prop :=
  ∀ level following, level < phrase.ceiling →
    Grammar.standard.level following.kind ≤ phrase.margin →
    (Task.beginning level).BreaksIn (tokens ++ [following]) position depth

namespace Breaks

variable {phrase first second : Phrase} {tokens others : List Token} {position : Position}
  {depth more bound level : Nat} {token following : Token} {left : Expr}

/-- A bad target in a phrase is found in an operand. -/
theorem operand (h : phrase.Breaks tokens position depth) (hlevel : level < phrase.ceiling)
    (hfollowing : Grammar.standard.level following.kind ≤ phrase.margin) :
    (Task.expression level).BreaksIn (tokens ++ [following]) position (depth + 1) :=
  (h level following hlevel hfollowing).lift [] fun hheight hreads =>
    ⟨_, Nat.succ_le_succ hheight, .finish_fault hreads⟩

/-- A bad target in an expression is found inside of something. -/
theorem inside (h : expression.Breaks tokens position depth)
    (hfollowing : Grammar.standard.infixRule following.kind = none) :
    (Task.expression Power.lowest.level).BreaksIn (tokens ++ [following]) position (depth + 1) :=
  h.operand (by decide) (Nat.le_of_eq (Grammar.level_of_none hfollowing))

/-- A bad target at the start of a phrase is found in the phrase. -/
theorem start (h : first.Breaks tokens position depth) (hceiling : phrase.ceiling ≤ first.ceiling)
    (htoken : Grammar.standard.level token.kind ≤ first.margin) (others : List Token)
    (hdepth : depth ≤ bound) : phrase.Breaks (tokens ++ token :: others) position bound := by
  intro level following hlevel _
  have hfirst := h level token (Nat.lt_of_lt_of_le hlevel hceiling) htoken
  have hwhole := hfirst.append (others ++ [following]) hdepth
  simpa using hwhole

/-- A bad target in a phrase is found where it is taken for a looser one. -/
theorem looser (h : first.Breaks tokens position depth) (hlooser : first.looser? = some phrase) :
    phrase.Breaks tokens position depth := by
  have hbounds : phrase.ceiling ≤ first.ceiling ∧ phrase.margin ≤ first.margin := by
    cases first <;> cases hlooser <;> decide
  intro level following hlevel hfollowing
  exact h level following (by omega) (by omega)

/-- A bad target in a group. -/
theorem group (h : expression.Breaks tokens position depth) {opening closing : Token}
    (hopening : opening.kind = .openParen) (hclosing : closing.kind = .closeParen) :
    primary.Breaks (opening :: (tokens ++ [closing])) position (depth + 1) := by
  intro level following _ _
  have hinside : (Task.starting .group opening).BreaksIn (tokens ++ [closing]) position
      (depth + 1) :=
    (h.inside (by rw [hclosing]; rfl)).lift [] fun hheight hreads =>
      ⟨_, hheight, .group_fault hreads⟩
  exact (Task.BreaksIn.start (by rw [hopening]; rfl) hinside).append [following] (Nat.le_refl _)

/-- A bad target in the operand of a prefix operator. -/
theorem sign (h : pre.Breaks tokens position depth) {sign : Token}
    (hsign : sign.kind ∈ [Kind.plus, .dash, .tilde, .bang]) :
    pre.Breaks (sign :: tokens) position (depth + 1) := by
  intro level following _ hfollowing
  have hrule : Grammar.standard.prefixRule sign.kind = some (.operator .prefixed) := by
    generalize sign.kind = kind at hsign
    revert kind
    decide
  have hoperand : (Task.starting (.operator .prefixed) sign).BreaksIn (tokens ++ [following])
      position (depth + 1) :=
    (h.operand (by decide) hfollowing).lift [] fun hheight hreads =>
      ⟨_, hheight, .operator hreads⟩
  exact Task.BreaksIn.start hrule hoperand

/-- A bad target in the right operand of an operator. -/
theorem binary {sign : Token} {power : Power} {associativity : Associativity}
    (hleft : first.Taken tokens left depth)
    (hrule : Grammar.standard.infixRule sign.kind = some (.binary power associativity))
    (h : second.Breaks others position more) (hceiling : phrase.ceiling = power.level)
    (hfirst : power.level ≤ first.ceiling ∧ power.level ≤ first.follow)
    (hsecond : associativity.threshold power < second.ceiling ∧ phrase.margin ≤ second.margin) :
    phrase.Breaks (tokens ++ sign :: others) position (max depth (more + 1)) := by
  intro level following hlevel hfollowing
  rw [hceiling] at hlevel
  have hright : (Task.extending (.binary power associativity) left sign).BreaksIn
      (others ++ [following]) position (more + 1) :=
    (h.operand hsecond.1 (Nat.le_trans hfollowing hsecond.2)).lift [] fun hheight hreads =>
      ⟨_, hheight, .binary hreads⟩
  rw [List.append_assoc]
  exact .extend hleft hrule hfirst.2 (Nat.lt_of_lt_of_le hlevel hfirst.1) hlevel hright

/-- A bad target in the first argument of a call. -/
theorem callFirst (hcallee : post.Taken tokens left depth) {opening : Token}
    (hopening : opening.kind = .openParen) (h : expression.Breaks others position more) :
    opened.Breaks (tokens ++ opening :: others) position (max depth (more + 1)) := by
  intro level following hlevel hfollowing
  rw [List.append_assoc]
  exact .call hcallee hopening hlevel (h.operand (by decide) hfollowing).argument

/-- A bad target in the first arm of a choice. -/
theorem yes (htest : sum.Taken tokens left depth) {question colon : Token}
    (hquestion : question.kind = .question) (h : expression.Breaks others position more)
    (hcolon : colon.kind = .colon) (rest : List Token) (hbound : max depth (more + 1) ≤ bound) :
    conditional.Breaks (tokens ++ question :: (others ++ colon :: rest)) position bound := by
  intro level following hlevel _
  have harm : (Task.extending .conditional left question).BreaksIn (others ++ [colon]) position
      (more + 1) :=
    (h.inside (by rw [hcolon]; rfl)).lift [] fun hheight hreads =>
      ⟨_, hheight, .conditional_fault hreads⟩
  have hwhole := Task.BreaksIn.choice htest hquestion hlevel harm
  simpa using hwhole.append (rest ++ [following]) hbound

/-- A bad target in the second arm of a choice. -/
theorem no (htest : sum.Taken tokens left depth) {question colon : Token}
    (hquestion : question.kind = .question) {middle : List Token} {yes : Expr} {inner : Nat}
    (hyes : expression.Taken middle yes inner) (hcolon : colon.kind = .colon)
    (h : conditional.Breaks others position more) :
    conditional.Breaks (tokens ++ question :: (middle ++ colon :: others)) position
      (max depth (max (inner + 1) (more + 1))) := by
  intro level following hlevel hfollowing
  have hfirst : Reads .standard (.expression Power.lowest.level) middle colon (.ok yes)
      (inner + 1) := hyes.inside (by rw [hcolon]; rfl)
  have hsecond : (Task.expression (Power.conditional.level - 1)).BreaksIn (others ++ [following])
      position (more + 1) := h.operand (by decide) hfollowing
  have harms : (Task.extending .conditional left question).BreaksIn
      (middle ++ [colon] ++ (others ++ [following])) position (max (inner + 1) (more + 1)) := by
    refine hsecond.lift (middle ++ [colon]) fun {read next height} hheight hreads =>
      ⟨max (inner + 1) height, by omega, ?_⟩
    rw [List.append_assoc]
    exact .conditional hfirst hcolon hreads
  have hwhole := Task.BreaksIn.choice htest hquestion hlevel harms
  simpa using hwhole

/-- A bad target in the value of an assignment, or the target of the assignment itself. -/
theorem assign (htarget : conditional.Taken tokens left depth) {sign : Token}
    (hsign : sign.kind = .assignment)
    (h : ∀ {following}, Grammar.standard.level following.kind ≤ Power.lowest.level →
      (Task.extending .assign left sign).BreaksIn (others ++ [following]) position (more + 1)) :
    expression.Breaks (tokens ++ sign :: others) position (max depth (more + 1)) := by
  intro level following hlevel hfollowing
  have hrule : Grammar.standard.infixRule sign.kind = some .assign := by
    rw [hsign]
    rfl
  rw [List.append_assoc]
  exact .extend htarget hrule (by decide) (Nat.lt_trans hlevel (by decide)) hlevel (h hfollowing)

end Breaks

/-- A bad target in the value of an assignment is found before that of the assignment. -/
theorem Breaks.value (h : expression.Breaks tokens position depth) {following sign : Token}
    (hfollowing : Grammar.standard.level following.kind ≤ Power.lowest.level) :
    (Task.extending .assign left sign).BreaksIn (tokens ++ [following]) position (depth + 1) :=
  (h.operand (by decide) hfollowing).lift [] fun hheight hreads => ⟨_, hheight, .assign hreads⟩

/-- A target that is no name is found when the value has been read. -/
theorem Taken.misassigned (hvalue : expression.Taken tokens expr depth) {following sign : Token}
    (hname : ¬∃ text, left = .name text)
    (hfollowing : Grammar.standard.level following.kind ≤ Power.lowest.level) :
    (Task.extending .assign left sign).BreaksIn (tokens ++ [following]) sign.start (depth + 1) := by
  have hassign : left.assignTo expr sign.start =
      .error ⟨.invalidAssignmentTarget, sign.start⟩ := by
    cases left with
    | name text => exact absurd ⟨text, rfl⟩ hname
    | _ => rfl
  have hreads : Reads .standard (.extending .assign left sign) tokens following
      (left.assignTo expr sign.start) (depth + 1) :=
    .assign (hvalue.operand hfollowing (by decide) (by decide))
  rw [hassign] at hreads
  exact ⟨tokens, following, [], rfl, depth + 1, Nat.le_refl _, hreads⟩

end Phrase

/-- A bad target in another argument of an open call is found after the call. -/
theorem Derives.breaks_more {phrase : Phrase} {tokens : List Token} {expr : Expr} {depth : Nat}
    (h : Derives phrase tokens expr depth) (hphrase : phrase = .opened) {callee : Expr}
    {exprs : List Expr} (hexpr : expr = .call callee exprs) {comma : Token}
    (hcomma : comma.kind = .comma) {level : Nat} (hlevel : level < Power.postfixed.level)
    {others : List Token} {position : Position} {more : Nat}
    (hothers : (Task.separated callee exprs).BreaksIn others position more) :
    (Task.beginning level).BreaksIn (tokens ++ comma :: others) position (max depth more) := by
  induction h generalizing callee exprs comma others more with
  -- The call is open from its first argument on, so what follows the comma is handed inwards.
  | callFirst hcallee hopening hargument =>
    cases hexpr
    have hinside := Phrase.Taken.inside hargument.taken (by rw [hcomma]; rfl)
    have hcall := Task.BreaksIn.call hcallee.taken hopening hlevel (.next hinside hcomma hothers)
    rwa [List.append_assoc, Nat.max_assoc]
  | callNext hcall hother hargument ih =>
    cases hexpr
    have hinside := Phrase.Taken.inside hargument.taken (by rw [hcomma]; rfl)
    have hwhole := ih rfl rfl hother (.next hinside hcomma hothers)
    rwa [List.append_assoc, Nat.max_assoc]
  | _ => cases hphrase

/-- A bad target in another argument of a call. -/
theorem Phrase.Breaks.callNext {tokens others : List Token} {callee : Expr} {exprs : List Expr}
    {depth more : Nat} {position : Position} {comma : Token}
    (hcall : Derives .opened tokens (.call callee exprs) depth) (hcomma : comma.kind = .comma)
    (h : expression.Breaks others position more) :
    opened.Breaks (tokens ++ comma :: others) position (max depth (more + 1)) := by
  intro level following hlevel hfollowing
  have hargument : (Task.expression Power.lowest.level).BreaksIn (others ++ [following]) position
      (more + 1) := h.operand (by decide) hfollowing
  rw [List.append_assoc]
  exact hcall.breaks_more rfl rfl hcomma hlevel hargument.argument

/-- The parser breaks at the offence of a relaxed derivation. -/
theorem Relaxed.breaks {phrase : Phrase} {derivation : Derivation} (h : Relaxed phrase derivation)
    {assignment : Assignment} (hoffence : derivation.offence? = some assignment) :
    phrase.Breaks derivation.tokens assignment.sign.start derivation.depth := by
  induction h generalizing assignment with
  | identifier => cases hoffence
  | group hopening _ hclosing ih =>
    rw [Derivation.offence?_group] at hoffence
    obtain ⟨inner, hinner, rfl⟩ := Option.map_eq_some_iff.mp hoffence
    exact (ih hinner).group hopening hclosing
  | looser hlooser _ ih => exact (ih hoffence).looser hlooser
  | bang _ _ ih =>
    exact (ih hoffence).start (by decide) (Grammar.level_standard_le _) [] le_rfl
  | callNone _ _ _ ih =>
    exact (ih hoffence).start (by decide) (Grammar.level_standard_le _) _ le_rfl
  | callFirst hcallee hopening _ ih ihargument =>
    -- Here and below, a part before the one with the offence has none and so it has a tree.
    rcases Derivation.exists_offence_joined hoffence with hfirst | ⟨hproper, inner, hinner, rfl⟩
    · exact (ih hfirst).start (by decide) (Grammar.level_standard_le _) _
        (Nat.le_max_left _ _)
    · obtain ⟨callee, hderives, -⟩ := hcallee.derives hproper
      have hargument := ihargument hinner
      exact .callFirst hderives.taken hopening hargument
  | callNext hcall hcomma _ ih ihargument =>
    rcases Derivation.exists_offence_joined hoffence with hfirst | ⟨hproper, inner, hinner, rfl⟩
    · exact (ih hfirst).start (by decide) (by rw [hcomma]; decide) _
        (Nat.le_max_left _ _)
    · obtain ⟨call, hderives, -⟩ := hcall.derives hproper
      obtain ⟨callee, exprs, rfl⟩ := hderives.exists_call
      have hargument := ihargument hinner
      exact .callNext hderives hcomma hargument
  | callSome _ hclosing ih =>
    exact (ih hoffence).start (by decide) (by rw [hclosing]; decide) [] le_rfl
  | sign hsign _ ih =>
    rw [Derivation.offence?_signed] at hoffence
    obtain ⟨inner, hinner, rfl⟩ := Option.map_eq_some_iff.mp hoffence
    exact (ih hinner).sign hsign
  | caret hleft hsign _ ih ihright =>
    rcases Derivation.exists_offence_joined hoffence with hfirst | ⟨hproper, inner, hinner, rfl⟩
    · exact (ih hfirst).start (by decide) (by rw [hsign]; decide) _
        (Nat.le_max_left _ _)
    · obtain ⟨left, hderives, -⟩ := hleft.derives hproper
      have hright := ihright hinner
      exact .binary hderives.taken (by rw [hsign]; rfl) hright rfl (by decide) (by decide)
  | times hleft hsign _ ih ihright =>
    have hrule := Grammar.infixRule_of_product hsign
    rcases Derivation.exists_offence_joined hoffence with hfirst | ⟨hproper, inner, hinner, rfl⟩
    · exact (ih hfirst).start (by decide)
        (by rw [Grammar.level_of_infixRule hrule]; decide) _ (Nat.le_max_left _ _)
    · obtain ⟨left, hderives, -⟩ := hleft.derives hproper
      have hright := ihright hinner
      exact .binary hderives.taken hrule hright rfl (by decide) (by decide)
  | plus hleft hsign _ ih ihright =>
    have hrule := Grammar.infixRule_of_sum hsign
    rcases Derivation.exists_offence_joined hoffence with hfirst | ⟨hproper, inner, hinner, rfl⟩
    · exact (ih hfirst).start (by decide)
        (by rw [Grammar.level_of_infixRule hrule]; decide) _ (Nat.le_max_left _ _)
    · obtain ⟨left, hderives, -⟩ := hleft.derives hproper
      have hright := ihright hinner
      exact .binary hderives.taken hrule hright rfl (by decide) (by decide)
  | choice htest hquestion hyes hcolon _ ihtest ihyes ihno =>
    rw [Derivation.offence?_choice, Option.or_eq_some_iff, Option.or_eq_some_iff,
      Option.map_eq_some_iff, Option.map_eq_some_iff, Option.map_eq_none_iff] at hoffence
    rcases hoffence with hfirst | ⟨hfirst, ⟨inner, hinner, rfl⟩ | ⟨hmiddle, inner, hinner, rfl⟩⟩
    · exact (ihtest hfirst).start (by decide) (by rw [hquestion]; decide) _
        (Nat.le_max_left _ _)
    · obtain ⟨test, hderives, -⟩ := htest.derives hfirst
      have hyes := ihyes hinner
      exact .yes hderives.taken hquestion hyes hcolon _ (by simp only [Derivation.depth]; omega)
    · obtain ⟨test, hderives, -⟩ := htest.derives hfirst
      obtain ⟨yes, harm, -⟩ := hyes.derives hmiddle
      have hno := ihno hinner
      exact .no hderives.taken hquestion harm.taken hcolon hno
  | assign htarget hsign hvalue ihtarget ihvalue =>
    rw [Derivation.offence?_assign, Option.or_eq_some_iff, Option.or_eq_some_iff,
      Option.map_eq_some_iff, Option.map_eq_none_iff] at hoffence
    rcases hoffence with hfirst | ⟨hfirst, ⟨inner, hinner, rfl⟩ | ⟨hlast, hself⟩⟩
    · exact (ihtarget hfirst).start (by decide) (by rw [hsign]; decide) _
        (Nat.le_max_left _ _)
    · obtain ⟨target, hderives, -⟩ := htarget.derives hfirst
      exact .assign hderives.taken hsign (ihvalue hinner).value
    · obtain ⟨target, hderives, hname⟩ := htarget.derives hfirst
      obtain ⟨value, hexpr, -⟩ := hvalue.derives hlast
      split at hself
      next => cases hself
      next hnot =>
        cases hself
        exact .assign hderives.taken hsign
          (Phrase.Taken.misassigned hexpr.taken (mt hname.mpr hnot))

end Precedence
