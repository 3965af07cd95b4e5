import Precedence.Proofs.Stratified
import Precedence.Proofs.WholeInput

/-!
# Parsing is deriving

The standard parser accepts exactly the tokens that the stratified grammar derives, and
builds their trees. One direction follows what is read: whatever has been read so far is
a phrase, and the token that is seen next binds no tighter than that phrase allows. The
other direction follows the derivation: each phrase is read by every expression of a
level that is loose enough.
-/

namespace Precedence

open Phrase (tier)

/-- What the tokens read on a task derive, given the tree that is their result. -/
def Task.Derived (read : List Token) (following : Token) (expr : Expr) (height : Nat) :
    Task → Prop
  | expression level => level ≤ Power.prefixed.level →
      Grammar.standard.level following.kind ≤ level ∧
      ∃ depth, height = depth + 1 ∧ Derives (.ofTier (tier level)) read expr depth
  | beginning level => level ≤ Power.prefixed.level →
      ∃ n, tier level ≤ n ∧ Derives (.ofTier n) read expr height ∧
        Grammar.standard.level following.kind ≤ (Phrase.ofTier n).follow
  | starting rule token => Grammar.standard.prefixRule token.kind = some rule →
      ∃ n, tier Power.prefixed.level ≤ n ∧ Derives (.ofTier n) (token :: read) expr height ∧
        Grammar.standard.level following.kind ≤ (Phrase.ofTier n).follow
  | extending rule left token => Grammar.standard.infixRule token.kind = some rule →
      ∀ {n before depth}, Derives (.ofTier n) before left depth →
        rule.level ≤ (Phrase.ofTier n).follow →
        ∃ m, tier (rule.level - 1) ≤ m ∧
          Derives (.ofTier m) (before ++ token :: read) expr (max depth height) ∧
          Grammar.standard.level following.kind ≤ (Phrase.ofTier m).follow
  | arguments callee => ∀ {before opening depth}, Derives .post before callee depth →
      opening.kind = .openParen →
      Derives .post (before ++ opening :: read) expr (max depth height)
  | separated callee prior => ∀ before depth,
      (∀ {argument next more}, Derives .expression argument next more →
        Derives .opened (before ++ argument) (.call callee (prior ++ [next]))
          (max depth (more + 1))) →
      Derives .post (before ++ read) expr (max depth height)

namespace Task

variable {read : List Token} {following token : Token} {left right : Expr} {height : Nat}

/-- An operator before a prefix phrase makes a prefix phrase. -/
theorem derived_operator {power : Power}
    (hoperand : Derived read following right height (.expression power.level)) :
    Derived read following (.prefixed token.kind right) height
      (.starting (.operator power) token) := by
  intro hrule
  obtain ⟨hsign, rfl⟩ := Grammar.kind_of_operator hrule
  obtain ⟨hlevel, depth, rfl, hderives⟩ := hoperand (by decide)
  exact ⟨5, by decide, .sign hsign hderives, hlevel⟩

/-- An operator between two operands makes a phrase of its power. -/
theorem derived_binary {power : Power} {associativity : Associativity}
    (hright : Derived read following right height
      (.expression (associativity.threshold power))) :
    Derived read following (.binary left token.kind right) height
      (.extending (.binary power associativity) left token) := by
  intro hrule n before depth hleft hfollow
  rcases Grammar.kind_of_binary hrule with ⟨hsign, rfl, rfl⟩ | ⟨hsign, rfl, rfl⟩ | ⟨hsign, rfl, rfl⟩
  · have hn := Phrase.lt_of_le_follow 1 (by decide) hfollow
    obtain ⟨hlevel, more, rfl, hderives⟩ := hright (by decide)
    exact ⟨2, by decide, .plus (hleft.lower _ hn) hsign hderives, hlevel⟩
  · have hn := Phrase.lt_of_le_follow 2 (by decide) hfollow
    obtain ⟨hlevel, more, rfl, hderives⟩ := hright (by decide)
    exact ⟨3, by decide, .times (hleft.lower _ hn) hsign hderives, hlevel⟩
  · have hn := Phrase.lt_of_le_follow 4 (by decide) hfollow
    obtain ⟨hlevel, more, rfl, hderives⟩ := hright (by decide)
    exact ⟨4, by decide, .caret (hleft.lower _ hn) hsign hderives, hlevel⟩

/-- An operator after a postfix phrase makes a postfix phrase. -/
theorem derived_postfixed {power : Power} :
    Derived [] following (.postfixed left token.kind) 0
      (.extending (.postfixed power) left token) := by
  intro hrule n before depth hleft hfollow
  obtain ⟨hsign, rfl⟩ := Grammar.kind_of_postfixed hrule
  have hn := Phrase.lt_of_le_follow 5 (by decide) hfollow
  rw [Nat.max_zero]
  exact ⟨6, by decide, .bang (hleft.lower _ hn) hsign, Grammar.level_standard_le _⟩

/-- Two arms after a sum make a choice. -/
theorem derived_conditional {yes no : Expr} {colon : Token} {others : List Token} {more : Nat}
    (hyes : Derived read colon yes height (.expression Power.lowest.level))
    (hcolon : colon.kind = .colon)
    (hno : Derived others following no more (.expression (Power.conditional.level - 1))) :
    Derived (read ++ colon :: others) following (.conditional left yes no) (max height more)
      (.extending .conditional left token) := by
  intro hrule n before depth hleft hfollow
  have hn := Phrase.lt_of_le_follow 1 (by decide) hfollow
  obtain ⟨-, inner, rfl, hmiddle⟩ := hyes (by decide)
  obtain ⟨hlevel, last, rfl, hlast⟩ := hno (by decide)
  exact ⟨1, by decide, .choice (hleft.lower _ hn) (Grammar.kind_of_conditional hrule) hmiddle hcolon
    hlast, hlevel⟩

/-- A value after a target makes an assignment. -/
theorem derived_assign {value expr : Expr} {position : Position}
    (hvalue : Derived read following value height (.expression (Power.assignment.level - 1)))
    (hassign : left.assignTo value position = .ok expr) :
    Derived read following expr height (.extending .assign left token) := by
  intro hrule n before depth hleft hfollow
  obtain ⟨hlevel, more, rfl, hderives⟩ := hvalue (by decide)
  cases left with
  | name text =>
    cases hassign
    have htarget := hleft.target_of_name rfl
    exact ⟨0, by decide, .assign htarget (Grammar.kind_of_assign hrule) hderives, hlevel⟩
  | _ => cases hassign

/-- The last argument closes a call. -/
theorem derived_last {callee expr : Expr} {prior : List Expr} {closing : Token}
    (hexpr : Derived read closing expr height (.expression Power.lowest.level))
    (hclosing : closing.kind = .closeParen) :
    Derived (read ++ [closing]) following (.call callee (prior ++ [expr])) height
      (.separated callee prior) := by
  intro before depth hopened
  obtain ⟨-, more, rfl, hderives⟩ := hexpr (by decide)
  rw [← List.append_assoc]
  exact .callSome (hopened hderives) hclosing

/-- An argument before a comma leaves a call open. -/
theorem derived_more {callee next expr : Expr} {prior : List Expr} {comma : Token}
    {others : List Token} {more : Nat}
    (hnext : Derived read comma next height (.expression Power.lowest.level))
    (hcomma : comma.kind = .comma)
    (hothers : Derived others following expr more (.separated callee (prior ++ [next]))) :
    Derived (read ++ comma :: others) following expr (max height more)
      (.separated callee prior) := by
  intro before depth hopened
  obtain ⟨-, inner, rfl, hderives⟩ := hnext (by decide)
  have hcall := hopened hderives
  have hclosed := hothers ((before ++ read) ++ [comma]) (max depth (inner + 1))
    fun {argument last extra} hargument => by
      rw [List.append_assoc]
      exact .callNext hcall hcomma hargument
  rw [← Nat.max_assoc, ← List.append_assoc]
  rwa [List.append_assoc (before ++ read)] at hclosed

end Task

/-- Whatever is read with a tree as its result is derived with that tree. -/
theorem Reads.derived {task : Task} {read : List Token} {following : Token}
    {result : Except Fault Expr} {height : Nat}
    (h : Reads .standard task read following result height) {expr : Expr}
    (hresult : result = .ok expr) : task.Derived read following expr height := by
  induction h generalizing expr with
  | finish _ hlevel ih =>
    cases hresult
    intro hle
    obtain ⟨n, hn, hderives, -⟩ := ih rfl hle
    exact ⟨hlevel, _, rfl, hderives.lower _ hn⟩
  | start hrule _ ih =>
    intro hle
    obtain ⟨n, hn, hderives, hfollow⟩ := ih hresult hrule
    have htier := Phrase.tier_mono hle
    exact ⟨n, by omega, hderives, hfollow⟩
  | extend _ hrule hlevel _ ihleft ih =>
    intro hle
    obtain ⟨n, -, hleft, hfollow⟩ := ihleft rfl hle
    rw [Grammar.level_of_infixRule hrule] at hfollow
    obtain ⟨m, hm, hderives, hnext⟩ := ih hresult hrule hleft hfollow
    have htier := Phrase.tier_mono (Nat.le_sub_one_of_lt hlevel)
    exact ⟨m, by omega, hderives, hnext⟩
  | name =>
    cases hresult
    intro hrule
    exact ⟨7, by decide, .identifier (Grammar.kind_of_name hrule), Grammar.level_standard_le _⟩
  | group _ hclosing ih =>
    cases hresult
    intro hrule
    obtain ⟨-, depth, rfl, hderives⟩ := ih rfl (by decide)
    exact ⟨7, by decide, .group (Grammar.kind_of_group hrule) hderives hclosing,
      Grammar.level_standard_le _⟩
  | @operator _ _ _ _ result _ _ ih =>
    cases result with
    | ok operand =>
      cases hresult
      exact Task.derived_operator (ih rfl)
    | error fault => cases hresult
  | postfixed =>
    cases hresult
    exact Task.derived_postfixed
  | @binary _ _ _ _ _ _ result _ _ ih =>
    cases result with
    | ok right =>
      cases hresult
      exact Task.derived_binary (ih rfl)
    | error fault => cases hresult
  | @conditional _ _ _ _ _ _ _ result _ _ _ hcolon _ ihyes ihno =>
    cases result with
    | ok no =>
      cases hresult
      exact Task.derived_conditional (ihyes rfl) hcolon (ihno rfl)
    | error fault => cases hresult
  | call _ ih =>
    intro hrule n before depth hleft hfollow
    have hn := Phrase.lt_of_le_follow 5 (by decide) hfollow
    exact ⟨6, by decide, ih hresult (hleft.lower _ hn) (Grammar.kind_of_call hrule),
      Grammar.level_standard_le _⟩
  | @assign _ _ _ _ result _ _ ih =>
    cases result with
    | ok value => exact Task.derived_assign (ih rfl) hresult
    | error fault => cases hresult
  | no_arguments hclosing =>
    cases hresult
    intro before opening depth hcallee hopening
    rw [Nat.max_zero]
    exact .callNone hcallee hopening hclosing
  | @some_arguments callee read _ _ _ _ _ ih =>
    intro before opening depth hcallee hopening
    have hclosed := ih hresult (before ++ [opening]) depth fun {argument next more} hargument => by
      rw [List.append_assoc]
      exact .callFirst hcallee hopening hargument
    rwa [List.append_assoc] at hclosed
  | last _ hclosing ih =>
    cases hresult
    exact Task.derived_last (ih rfl) hclosing
  | more _ hcomma _ ih ihothers => exact Task.derived_more (ih rfl) hcomma (ihothers hresult)
  | finish_fault | no_start | group_fault | group_open | conditional_fault | conditional_open
  | argument_fault | argument_open => cases hresult

namespace Phrase

/-- The level of the loosest operator of a phrase. -/
def ceiling : Phrase → Nat
  | expression => Power.assignment.level
  | conditional => Power.conditional.level
  | sum => Power.sum.level
  | product => Power.product.level
  | exponent => Power.exponent.level
  | pre | post | opened | target | primary => Power.postfixed.level

/-- A phrase is taken by every expression that is loose enough, up to a token that may
follow it. -/
def Taken (phrase : Phrase) (tokens : List Token) (expr : Expr) (depth : Nat) : Prop :=
  ∀ {level following}, level < phrase.ceiling →
    Grammar.standard.level following.kind ≤ phrase.follow →
    Reads .standard (.beginning level) tokens following (.ok expr) depth

/-- An open call is taken together with what closes it or with its other arguments. -/
def TakenOpen (tokens : List Token) (expr : Expr) (depth : Nat) : Prop :=
  ∀ {level}, level < Power.postfixed.level →
    (∀ {closing following}, closing.kind = .closeParen →
      Reads .standard (.beginning level) (tokens ++ [closing]) following (.ok expr) depth) ∧
    ∀ {callee exprs comma rest following last more}, expr = .call callee exprs →
      comma.kind = .comma →
      Reads .standard (.separated callee exprs) rest following (.ok last) more →
      Reads .standard (.beginning level) (tokens ++ comma :: rest) following (.ok last)
        (max depth more)

variable {tokens others : List Token} {callee expr left right : Expr} {depth more : Nat}
  {opening : Token}

/-- A phrase is an operand up to a token that does not bind tighter than the operator. -/
theorem Taken.operand {phrase : Phrase} (h : phrase.Taken tokens expr depth) {level : Nat}
    {following : Token} (hfollowing : Grammar.standard.level following.kind ≤ level)
    (hlevel : level < phrase.ceiling) (hfollow : level ≤ phrase.follow) :
    Reads .standard (.expression level) tokens following (.ok expr) (depth + 1) :=
  .finish (h hlevel (Nat.le_trans hfollowing hfollow)) hfollowing

/-- A phrase of a tight kind is a phrase of a loose kind. -/
theorem Taken.loosen {phrase other : Phrase} (h : phrase.Taken tokens expr depth)
    (hceiling : other.ceiling ≤ phrase.ceiling) (hfollow : other.follow ≤ phrase.follow) :
    other.Taken tokens expr depth :=
  fun hlevel hfollowing =>
    h (Nat.lt_of_lt_of_le hlevel hceiling) (Nat.le_trans hfollowing hfollow)

/-- An expression is an operand up to a token that extends nothing. -/
theorem Taken.inside (h : expression.Taken tokens expr depth) {following : Token}
    (hfollowing : Grammar.standard.infixRule following.kind = none) :
    Reads .standard (.expression Power.lowest.level) tokens following (.ok expr) (depth + 1) :=
  h.operand (Nat.le_of_eq (Grammar.level_of_none hfollowing)) (by decide) (by decide)

/-- A phrase in parentheses is a primary and a target. -/
theorem Taken.group {phrase : Phrase} (h : expression.Taken tokens expr depth) {closing : Token}
    (hopening : opening.kind = .openParen) (hclosing : closing.kind = .closeParen) :
    phrase.Taken (opening :: (tokens ++ [closing])) expr (depth + 1) := by
  intro level following _ _
  exact .start (by rw [hopening]; rfl)
    (.group (h.inside (by rw [hclosing]; rfl)) hclosing)

/-- Arguments are taken after the phrase that is called. -/
theorem Taken.call (h : post.Taken tokens callee depth) (hopening : opening.kind = .openParen)
    {level : Nat} (hlevel : level < Power.postfixed.level) {read : List Token} {following : Token}
    (harguments : Reads .standard (.arguments callee) read following (.ok expr) more) :
    Reads .standard (.beginning level) (tokens ++ opening :: read) following (.ok expr)
      (max depth more) := by
  have hcallee : Reads .standard (.beginning level) tokens opening (.ok callee) depth :=
    h hlevel (Grammar.level_standard_le _)
  exact .extend hcallee (by rw [hopening]; rfl) (Nat.lt_trans hlevel (by decide))
    (.call harguments)

/-- The first argument leaves a call open. -/
theorem Taken.callFirst (h : post.Taken tokens callee depth) (hopening : opening.kind = .openParen)
    (hargument : expression.Taken others expr more) :
    TakenOpen (tokens ++ opening :: others) (.call callee [expr]) (max depth (more + 1)) := by
  intro level hlevel
  constructor
  · intro closing following hclosing
    have hlast : Reads .standard (.separated callee []) (others ++ [closing]) following
        (.ok (.call callee [expr])) (more + 1) :=
      .last (hargument.inside (by rw [hclosing]; rfl)) hclosing
    rw [List.append_assoc]
    exact h.call hopening hlevel (Reads.arguments_of_separated rfl hlast (by simp))
  · rintro _ _ comma rest following last height ⟨⟩ hcomma hrest
    have hmore : Reads .standard (.separated callee []) (others ++ comma :: rest) following
        (.ok last) (max (more + 1) height) :=
      .more (hargument.inside (by rw [hcomma]; rfl)) hcomma hrest
    rw [List.append_assoc, Nat.max_assoc]
    exact h.call hopening hlevel (Reads.arguments_of_separated rfl hmore (by simp))

/-- Each further argument leaves a call open. -/
theorem TakenOpen.callNext {exprs : List Expr} {comma : Token}
    (h : TakenOpen tokens (.call callee exprs) depth) (hcomma : comma.kind = .comma)
    (hargument : expression.Taken others expr more) :
    TakenOpen (tokens ++ comma :: others) (.call callee (exprs ++ [expr]))
      (max depth (more + 1)) := by
  intro level hlevel
  obtain ⟨-, hgo⟩ := h hlevel
  constructor
  · intro closing following hclosing
    rw [List.append_assoc]
    exact hgo rfl hcomma (.last (hargument.inside (by rw [hclosing]; rfl)) hclosing)
  · rintro _ _ other rest following last height ⟨⟩ hother hrest
    rw [List.append_assoc, Nat.max_assoc]
    exact hgo rfl hcomma (.more (hargument.inside (by rw [hother]; rfl)) hother hrest)

/-- Two operands and the operator between them. -/
theorem Taken.binary {phrase first second : Phrase} {sign : Token} {power : Power}
    {associativity : Associativity} (hleft : first.Taken tokens left depth)
    (hrule : Grammar.standard.infixRule sign.kind = some (.binary power associativity))
    (hright : second.Taken others right more) (hceiling : phrase.ceiling = power.level)
    (hfirst : power.level ≤ first.ceiling ∧ power.level ≤ first.follow)
    (hsecond : associativity.threshold power < second.ceiling ∧
      associativity.threshold power ≤ second.follow)
    (hfollow : phrase.follow ≤ associativity.threshold power) :
    phrase.Taken (tokens ++ sign :: others) (.binary left sign.kind right)
      (max depth (more + 1)) := by
  intro level following hlevel hfollowing
  rw [hceiling] at hlevel
  have hsign : Grammar.standard.level sign.kind = power.level := Grammar.level_of_infixRule hrule
  have hbefore := hleft (Nat.lt_of_lt_of_le hlevel hfirst.1)
    (Nat.le_trans (Nat.le_of_eq hsign) hfirst.2)
  have hafter := hright.operand (Nat.le_trans hfollowing hfollow) hsecond.1 hsecond.2
  exact .extend hbefore hrule hlevel (.binary hafter)

/-- An exclamation mark extends a postfix phrase. -/
theorem Taken.bang {sign : Token} (h : post.Taken tokens expr depth) (hsign : sign.kind = .bang) :
    post.Taken (tokens ++ [sign]) (.postfixed expr sign.kind) depth := by
  intro level following hlevel _
  have hbefore : Reads .standard (.beginning level) tokens sign (.ok expr) depth :=
    h hlevel (Grammar.level_standard_le _)
  have hrule : Grammar.standard.infixRule sign.kind = some (.postfixed .postfixed) := by
    rw [hsign]
    rfl
  have hafter : Reads .standard (.beginning level) (tokens ++ [sign]) following
      (.ok (.postfixed expr sign.kind)) (max depth 0) :=
    .extend hbefore hrule hlevel .postfixed
  rwa [Nat.max_zero] at hafter

/-- An empty list of arguments extends a postfix phrase. -/
theorem Taken.callNone {closing : Token} (h : post.Taken tokens callee depth)
    (hopening : opening.kind = .openParen) (hclosing : closing.kind = .closeParen) :
    post.Taken (tokens ++ [opening, closing]) (.call callee []) depth := by
  intro level following hlevel _
  have hcall : Reads .standard (.beginning level) (tokens ++ [opening, closing]) following
      (.ok (.call callee [])) (max depth 0) :=
    h.call hopening hlevel (.no_arguments hclosing)
  rwa [Nat.max_zero] at hcall

/-- An operator before a prefix phrase. -/
theorem Taken.sign {sign : Token} (h : pre.Taken tokens expr depth)
    (hsign : sign.kind ∈ [Kind.plus, .dash, .tilde, .bang]) :
    pre.Taken (sign :: tokens) (.prefixed sign.kind expr) (depth + 1) := by
  intro level following _ hfollowing
  have hrule : Grammar.standard.prefixRule sign.kind = some (.operator .prefixed) := by
    generalize sign.kind = kind at hsign
    revert kind
    decide
  exact .start hrule (.operator (h.operand hfollowing (by decide) (by decide)))

/-- A choice between two arms. -/
theorem Taken.choice {middle : List Token} {yes : Expr} {inner : Nat} {question colon : Token}
    (h : sum.Taken tokens left depth) (hquestion : question.kind = .question)
    (hyes : expression.Taken middle yes inner) (hcolon : colon.kind = .colon)
    (hno : conditional.Taken others right more) :
    conditional.Taken (tokens ++ question :: (middle ++ colon :: others))
      (.conditional left yes right) (max depth (max (inner + 1) (more + 1))) := by
  intro level following hlevel hfollowing
  have hbefore : Reads .standard (.beginning level) tokens question (.ok left) depth := by
    apply h (Nat.lt_trans hlevel (by decide))
    rw [hquestion]
    decide
  have hrule : Grammar.standard.infixRule question.kind = some .conditional := by
    rw [hquestion]
    rfl
  have hfirst : Reads .standard (.expression Power.lowest.level) middle colon (.ok yes)
      (inner + 1) := hyes.inside (by rw [hcolon]; rfl)
  have hsecond := hno.operand hfollowing (by decide) (by decide)
  exact .extend hbefore hrule hlevel (.conditional hfirst hcolon hsecond)

/-- A value after a target. -/
theorem Taken.assign {sign : Token} {text : String} {value : Expr}
    (h : target.Taken tokens (.name text) depth) (hsign : sign.kind = .assignment)
    (hvalue : expression.Taken others value more) :
    expression.Taken (tokens ++ sign :: others) (.assign text value) (max depth (more + 1)) := by
  intro level following hlevel hfollowing
  have hbefore : Reads .standard (.beginning level) tokens sign (.ok (.name text)) depth :=
    h (Nat.lt_trans hlevel (by decide)) (Grammar.level_standard_le _)
  have hrule : Grammar.standard.infixRule sign.kind = some .assign := by
    rw [hsign]
    rfl
  have hafter := hvalue.operand hfollowing (by decide) (by decide)
  exact .extend hbefore hrule hlevel (.assign hafter)

end Phrase

/-- Whatever is derived is taken with its tree. -/
theorem Derives.taken {phrase : Phrase} {tokens : List Token} {expr : Expr} {depth : Nat}
    (h : Derives phrase tokens expr depth) :
    if phrase = .opened then Phrase.TakenOpen tokens expr depth
    else phrase.Taken tokens expr depth := by
  induction h with
  | identifier htoken | targetIdentifier htoken =>
    intro level following _ _
    exact .start (by rw [htoken]; rfl) .name
  | group hopening _ hclosing ih => exact Phrase.Taken.group ih hopening hclosing
  | targetGroup hopening _ hclosing ih =>
    exact Phrase.Taken.group (Phrase.Taken.loosen ih (by decide) (by decide)) hopening hclosing
  | postOfPrimary _ ih | preOfPost _ ih | exponentOfPre _ ih | productOfExponent _ ih
  | sumOfProduct _ ih | conditionalOfSum _ ih | expressionOfConditional _ ih =>
    exact Phrase.Taken.loosen ih (by decide) (by decide)
  | bang _ hsign ih =>
    exact Phrase.Taken.bang ih hsign
  | callNone _ hopening hclosing ih =>
    exact Phrase.Taken.callNone ih hopening hclosing
  | callFirst _ hopening _ ih ihargument => exact Phrase.Taken.callFirst ih hopening ihargument
  | callNext _ hcomma _ ih ihargument => exact Phrase.TakenOpen.callNext ih hcomma ihargument
  | callSome _ hclosing ih =>
    intro level following hlevel _
    exact (ih hlevel).1 hclosing
  | sign hsign _ ih => exact Phrase.Taken.sign ih hsign
  | caret _ hsign _ ihleft ihright =>
    exact Phrase.Taken.binary ihleft (by rw [hsign]; rfl) ihright rfl (by decide) (by decide)
      (by decide)
  | times _ hsign _ ihleft ihright =>
    exact Phrase.Taken.binary ihleft (Grammar.infixRule_of_product hsign) ihright rfl (by decide)
      (by decide) (by decide)
  | plus _ hsign _ ihleft ihright =>
    exact Phrase.Taken.binary ihleft (Grammar.infixRule_of_sum hsign) ihright rfl (by decide)
      (by decide) (by decide)
  | choice _ hquestion _ hcolon _ ihtest ihyes ihno =>
    exact Phrase.Taken.choice ihtest hquestion ihyes hcolon ihno
  | assign _ hsign _ ihtarget ihvalue => exact Phrase.Taken.assign ihtarget hsign ihvalue

/-- Reading an expression up to an end mark is deriving it. -/
theorem reads_iff_derives {tokens : List Token} {following : Token} {expr : Expr} {depth : Nat}
    (hfollowing : Grammar.standard.infixRule following.kind = none) :
    Reads .standard (.expression Power.lowest.level) tokens following (.ok expr) (depth + 1) ↔
      Derives .expression tokens expr depth := by
  constructor
  · intro hreads
    obtain ⟨-, other, hdepth, hderives⟩ := hreads.derived rfl (by decide)
    obtain rfl : depth = other := Nat.succ.inj hdepth
    exact hderives
  · intro hderives
    exact Phrase.Taken.inside hderives.taken hfollowing

/-- No two trees are derived from the same tokens. -/
theorem Derives.unique {tokens : List Token} {expr other : Expr} {depth more : Nat}
    (h : Derives .expression tokens expr depth) (hother : Derives .expression tokens other more) :
    expr = other := by
  have hrule : Grammar.standard.infixRule (endMarkAfter tokens).kind = none := rfl
  have heq := Reads.unique rfl rfl ((reads_iff_derives hrule).mpr h)
    ((reads_iff_derives hrule).mpr hother)
  exact Except.ok.inj heq

/-- Tokens without end marks are parsed with a tree exactly if the stratified grammar derives
that tree with at most 255 positions around each token. They have one tree at most, and
chains that group from the left, of any length, have one. -/
theorem parseTokens_eq_ok_iff_derives {tokens : List Token}
    (hend : ∀ token ∈ tokens, token.kind ≠ .endOfInput) :
    (∀ expr, parseTokens tokens = .ok expr ↔
      ∃ depth ≤ 255, Derives .expression tokens expr depth) ∧
    (∀ {expr other depth more}, Derives .expression tokens expr depth →
      Derives .expression tokens other more → expr = other) ∧
    ∀ {phrase first expr depth} {links : List (List Token)},
      phrase ∈ [Phrase.post, .product, .sum] →
      Derives phrase first expr depth → depth ≤ 255 →
      (∀ link ∈ links, Link 255 phrase link) → tokens = first ++ links.flatten →
      ∃ longer, parseTokens tokens = .ok longer := by
  have hiff : ∀ expr, parseTokens tokens = .ok expr ↔
      ∃ depth ≤ 255, Derives .expression tokens expr depth := by
    intro expr
    rw [parseTokens_eq_ok_iff_reads hend]
    constructor
    · rintro ⟨height, hheight, hreads⟩
      obtain ⟨-, depth, rfl, hderives⟩ := hreads.derived rfl (by decide)
      exact ⟨depth, Nat.le_of_succ_le_succ hheight, hderives⟩
    · rintro ⟨depth, hdepth, hderives⟩
      exact ⟨depth + 1, Nat.succ_le_succ hdepth, (reads_iff_derives rfl).mpr hderives⟩
  refine ⟨hiff, Derives.unique, ?_⟩
  intro phrase first links expr depth hphrase hfirst hdepth hlinks htokens
  obtain ⟨longer, more, hmore, hlonger⟩ := hfirst.chain hdepth hlinks
  rw [← htokens] at hlonger
  exact ⟨longer, (hiff longer).mpr ⟨more, hmore, hlonger.expression_of_mem hphrase⟩⟩

/-- The tokens of `a - b - c!` are a difference of a difference. -/
theorem parseTokens_differences :
    let token : Kind → String → Token := fun kind value => ⟨kind, value, default⟩
    let tokens := [token .identifier "a", token .dash "-", token .identifier "b", token .dash "-",
      token .identifier "c", token .bang "!"]
    (∀ token ∈ tokens, token.kind ≠ .endOfInput) ∧
      parseTokens tokens = .ok (.binary (.binary (.name "a") .dash (.name "b")) .dash
        (.postfixed (.name "c") .bang)) := by
  intro token tokens
  have hend : ∀ token ∈ tokens, token.kind ≠ .endOfInput := by decide
  have hname : ∀ text, Derives (.ofTier 7) [token .identifier text] (.name text) 0 :=
    fun _ => .identifier rfl
  have hfirst : Derives .sum [token .identifier "a"] (.name "a") 0 :=
    (hname "a").lower 2 (by decide)
  have hsecond : Derives .product [token .identifier "b"] (.name "b") 0 :=
    (hname "b").lower 3 (by decide)
  have hpost : Derives (.ofTier 6) [token .identifier "c", token .bang "!"]
      (.postfixed (.name "c") .bang) 0 := .bang (hname "c").step rfl
  have hthird : Derives .product [token .identifier "c", token .bang "!"]
      (.postfixed (.name "c") .bang) 0 := hpost.lower 3 (by decide)
  have hsum : Derives (.ofTier 2) tokens (.binary (.binary (.name "a") .dash (.name "b")) .dash
      (.postfixed (.name "c") .bang)) 1 :=
    .plus (.plus hfirst (by decide) hsecond) (by decide) hthird
  exact ⟨hend, ((parseTokens_eq_ok_iff_derives hend).1 _).mpr
    ⟨1, by decide, hsum.lower 0 (by decide)⟩⟩

end Precedence
