import Precedence.Parser.Expression

/-!
# What a parser reads

`Reads` says, without a parser and its fuel, which tokens are taken on a task, which
token is seen next and what the result is. It follows the rules of a grammar one by
one. Never more than one token is seen beyond those taken, so a task depends on the
tokens it takes and on the one that follows them.

Expressions may be nested to any depth here. `Reads` counts how deep they are, and a
parser that limits nesting compares the count with its limit.
-/

namespace Precedence

/-- The level at which a kind extends an expression. A kind that extends none is at the
lowest level. -/
def Grammar.level (grammar : Grammar) (kind : Kind) : Nat :=
  match grammar.infixRule kind with
  | some rule => rule.level
  | none => Power.lowest.level

/-- The level of a kind that extends an expression is the level of its rule. -/
theorem Grammar.level_of_infixRule {grammar : Grammar} {kind : Kind} {rule : InfixRule}
    (h : grammar.infixRule kind = some rule) : grammar.level kind = rule.level := by
  simp [level, h]

/-- A kind that extends no expression is at the lowest level. -/
theorem Grammar.level_of_none {grammar : Grammar} {kind : Kind}
    (h : grammar.infixRule kind = none) : grammar.level kind = 0 := by
  simp [level, h, Power.level]

/-- The fault of a token that starts no expression. -/
def Token.noPrefixRule (token : Token) : Fault := ⟨.noPrefixRule token.value, token.start⟩

/-- The fault of a token that stands where another kind is needed. -/
def Token.unexpected (token : Token) (expected : Kind) : Fault :=
  ⟨.unexpectedToken expected token.kind, token.start⟩

/-- What a parser can be in the middle of. -/
inductive Task where
  /-- An expression whose operators bind tighter than a level. -/
  | expression (level : Nat)
  /-- Such an expression, as far as it has been extended. -/
  | beginning (level : Nat)
  /-- What follows the first token of an expression. -/
  | starting (rule : PrefixRule) (token : Token)
  /-- What follows the token that extends an expression. -/
  | extending (rule : InfixRule) (left : Expr) (token : Token)
  /-- What follows the opening parenthesis of a call. -/
  | arguments (callee : Expr)
  /-- The arguments of a call after those that have been read. -/
  | separated (callee : Expr) (before : List Expr)

/-- `Reads grammar task read following result height` says that on this task the tokens
`read` are taken while `following` is seen next, that the result is `result`, and that
expressions are nested `height` deep at most. A token that is at fault is not counted
as taken: it is the one that is seen next. -/
inductive Reads (grammar : Grammar) :
    Task → List Token → Token → Except Fault Expr → Nat → Prop where
  /-- An expression ends before a token that does not bind tighter than its level. -/
  | finish {level read following expr height}
      (hbeginning : Reads grammar (.beginning level) read following (.ok expr) height)
      (hlevel : grammar.level following.kind ≤ level) :
      Reads grammar (.expression level) read following (.ok expr) (height + 1)
  /-- An expression with a fault in it is at fault. -/
  | finish_fault {level read following fault height}
      (hbeginning : Reads grammar (.beginning level) read following (.error fault) height) :
      Reads grammar (.expression level) read following (.error fault) (height + 1)
  /-- No expression starts with a token that has no prefix rule. -/
  | no_start {level following} (hrule : grammar.prefixRule following.kind = none) :
      Reads grammar (.beginning level) [] following (.error following.noPrefixRule) 0
  /-- An expression starts by the prefix rule of its first token. -/
  | start {level token read following result height rule}
      (hrule : grammar.prefixRule token.kind = some rule)
      (hstarting : Reads grammar (.starting rule token) read following result height) :
      Reads grammar (.beginning level) (token :: read) following result height
  /-- An expression is extended by the infix rule of a token that binds tighter. -/
  | extend {level before token read following left result height more rule}
      (hbeginning : Reads grammar (.beginning level) before token (.ok left) height)
      (hrule : grammar.infixRule token.kind = some rule) (hlevel : level < rule.level)
      (hextending : Reads grammar (.extending rule left token) read following result more) :
      Reads grammar (.beginning level) (before ++ token :: read) following result
        (max height more)
  /-- A name is an expression by itself. -/
  | name {token following} :
      Reads grammar (.starting .name token) [] following (.ok (.name token.value)) 0
  /-- A group ends with a closing parenthesis. -/
  | group {token read closing following expr height}
      (hexpr : Reads grammar (.expression Power.lowest.level) read closing (.ok expr) height)
      (hclosing : closing.kind = .closeParen) :
      Reads grammar (.starting .group token) (read ++ [closing]) following (.ok expr) height
  /-- A group is at fault if the expression in it is. -/
  | group_fault {token read following fault height}
      (hexpr : Reads grammar (.expression Power.lowest.level) read following (.error fault)
        height) :
      Reads grammar (.starting .group token) read following (.error fault) height
  /-- A group is at fault if it is not closed. -/
  | group_open {token read following expr height}
      (hexpr : Reads grammar (.expression Power.lowest.level) read following (.ok expr) height)
      (hfollowing : following.kind ≠ .closeParen) :
      Reads grammar (.starting .group token) read following
        (.error (following.unexpected .closeParen)) height
  /-- An operator before its operand. -/
  | operator {token power read following result height}
      (hoperand : Reads grammar (.expression power.level) read following result height) :
      Reads grammar (.starting (.operator power) token) read following
        (result.map (.prefixed token.kind)) height
  /-- An operator after its operand. -/
  | postfixed {power left token following} :
      Reads grammar (.extending (.postfixed power) left token) [] following
        (.ok (.postfixed left token.kind)) 0
  /-- An operator between its operands. -/
  | binary {power associativity left token read following result height}
      (hright : Reads grammar (.expression (associativity.threshold power)) read following
        result height) :
      Reads grammar (.extending (.binary power associativity) left token) read following
        (result.map (.binary left token.kind)) height
  /-- A choice, with its two arms on either side of a colon. -/
  | conditional {left token read colon rest following yes result height more}
      (hyes : Reads grammar (.expression Power.lowest.level) read colon (.ok yes) height)
      (hcolon : colon.kind = .colon)
      (hno : Reads grammar (.expression (Power.conditional.level - 1)) rest following result
        more) :
      Reads grammar (.extending .conditional left token) (read ++ colon :: rest) following
        (result.map (.conditional left yes)) (max height more)
  /-- A choice is at fault if its first arm is. -/
  | conditional_fault {left token read following fault height}
      (hyes : Reads grammar (.expression Power.lowest.level) read following (.error fault)
        height) :
      Reads grammar (.extending .conditional left token) read following (.error fault) height
  /-- A choice is at fault if no colon follows its first arm. -/
  | conditional_open {left token read following yes height}
      (hyes : Reads grammar (.expression Power.lowest.level) read following (.ok yes) height)
      (hfollowing : following.kind ≠ .colon) :
      Reads grammar (.extending .conditional left token) read following
        (.error (following.unexpected .colon)) height
  /-- A call goes on with its arguments. -/
  | call {left token read following result height}
      (harguments : Reads grammar (.arguments left) read following result height) :
      Reads grammar (.extending .call left token) read following result height
  /-- The target of an assignment is looked at after its value has been read. -/
  | assign {left token read following result height}
      (hvalue : Reads grammar (.expression (Power.assignment.level - 1)) read following result
        height) :
      Reads grammar (.extending .assign left token) read following
        (result.bind fun value => left.assignTo value token.start) height
  /-- A call without arguments is closed at once. -/
  | no_arguments {callee closing following} (hclosing : closing.kind = .closeParen) :
      Reads grammar (.arguments callee) [closing] following (.ok (.call callee [])) 0
  /-- A call that is not closed at once has arguments. -/
  | some_arguments {callee read following result height}
      (hfirst : (read.headD following).kind ≠ .closeParen)
      (hseparated : Reads grammar (.separated callee []) read following result height) :
      Reads grammar (.arguments callee) read following result height
  /-- The last argument is followed by a closing parenthesis. -/
  | last {callee before read closing following expr height}
      (hexpr : Reads grammar (.expression Power.lowest.level) read closing (.ok expr) height)
      (hclosing : closing.kind = .closeParen) :
      Reads grammar (.separated callee before) (read ++ [closing]) following
        (.ok (.call callee (before ++ [expr]))) height
  /-- Every other argument is followed by a comma. -/
  | more {callee before read comma rest following expr result height more}
      (hexpr : Reads grammar (.expression Power.lowest.level) read comma (.ok expr) height)
      (hcomma : comma.kind = .comma)
      (hrest : Reads grammar (.separated callee (before ++ [expr])) rest following result
        more) :
      Reads grammar (.separated callee before) (read ++ comma :: rest) following result
        (max height more)
  /-- Arguments are at fault if one of them is. -/
  | argument_fault {callee before read following fault height}
      (hexpr : Reads grammar (.expression Power.lowest.level) read following (.error fault)
        height) :
      Reads grammar (.separated callee before) read following (.error fault) height
  /-- Arguments are at fault if they are not closed. -/
  | argument_open {callee before read following expr height}
      (hexpr : Reads grammar (.expression Power.lowest.level) read following (.ok expr) height)
      (hcomma : following.kind ≠ .comma) (hclosing : following.kind ≠ .closeParen) :
      Reads grammar (.separated callee before) read following
        (.error (following.unexpected .closeParen)) height

namespace Reads

variable {grammar : Grammar} {task : Task} {read : List Token} {following : Token}
  {result : Except Fault Expr} {height : Nat}

/-- No end mark is taken where the grammar has no rule for it. -/
theorem kind_ne_endOfInput (hstart : grammar.prefixRule .endOfInput = none)
    (hextend : grammar.infixRule .endOfInput = none)
    (h : Reads grammar task read following result height) :
    ∀ token ∈ read, token.kind ≠ .endOfInput := by
  induction h with
  | start hrule _ ih =>
    have htoken : ∀ {token : Token} {rule : PrefixRule},
        grammar.prefixRule token.kind = some rule → token.kind ≠ .endOfInput := by
      intro token rule hsome hkind
      simp [hkind, hstart] at hsome
    exact List.forall_mem_cons.mpr ⟨htoken hrule, ih⟩
  | extend _ hrule _ _ ihbefore ihread =>
    have htoken : ∀ {token : Token} {rule : InfixRule},
        grammar.infixRule token.kind = some rule → token.kind ≠ .endOfInput := by
      intro token rule hsome hkind
      simp [hkind, hextend] at hsome
    exact List.forall_mem_append.mpr
      ⟨ihbefore, List.forall_mem_cons.mpr ⟨htoken hrule, ihread⟩⟩
  | group _ hclosing ih | last _ hclosing ih =>
    exact List.forall_mem_append.mpr ⟨ih, by simp [hclosing]⟩
  | conditional _ hcolon _ ihyes ihno =>
    exact List.forall_mem_append.mpr ⟨ihyes, List.forall_mem_cons.mpr ⟨by simp [hcolon], ihno⟩⟩
  | more _ hcomma _ ihexpr ihrest =>
    exact List.forall_mem_append.mpr ⟨ihexpr, List.forall_mem_cons.mpr ⟨by simp [hcomma], ihrest⟩⟩
  | no_arguments hclosing => simp [hclosing]
  | no_start _ | name | postfixed => simp
  | finish _ _ ih | finish_fault _ ih | group_fault _ ih | group_open _ _ ih | operator _ ih
  | binary _ ih | conditional_fault _ ih | conditional_open _ _ ih | call _ ih | assign _ ih
  | some_arguments _ _ ih | argument_fault _ ih | argument_open _ _ _ ih => exact ih

/-- An expression takes a first token that starts it, or is at fault before it takes any. -/
theorem starts (h : Reads grammar task read following result height) :
    match task with
    | .expression _ | .beginning _ | .separated _ _ =>
      (∃ token rest, read = token :: rest ∧ grammar.prefixRule token.kind ≠ none) ∨
        read = [] ∧ result = .error following.noPrefixRule
    | _ => True := by
  induction h with
  | finish _ _ ih | finish_fault _ ih | argument_fault _ ih => exact ih
  | no_start => exact .inr ⟨rfl, rfl⟩
  | start hrule _ _ => exact .inl ⟨_, _, rfl, by simp [hrule]⟩
  | extend _ _ _ _ ih _ | last _ _ ih | more _ _ _ ih _ | argument_open _ _ _ ih =>
    rcases ih with ⟨token, rest, rfl, htoken⟩ | ⟨-, hresult⟩
    · exact .inl ⟨token, _, rfl, htoken⟩
    · cases hresult
  | _ => trivial

/-- Arguments do not begin with a token that closes a call, unless they are at fault there. -/
theorem arguments_of_separated {callee : Expr} (hclose : grammar.prefixRule .closeParen = none)
    (h : Reads grammar (.separated callee []) read following result height)
    (hresult : result ≠ .error following.noPrefixRule) :
    Reads grammar (.arguments callee) read following result height := by
  refine .some_arguments ?_ h
  rcases h.starts with ⟨token, rest, rfl, htoken⟩ | ⟨-, hfault⟩
  · intro hkind
    rw [show token.kind = .closeParen from hkind] at htoken
    exact htoken hclose
  · exact absurd hfault hresult

/-- What is read with a tree as its result is read in the same way before any token that
extends nothing. -/
theorem of_following (hclose : grammar.prefixRule .closeParen = none)
    (h : Reads grammar task read following result height) {expr : Expr}
    (hresult : result = .ok expr) {next : Token} (hnext : grammar.infixRule next.kind = none) :
    Reads grammar task read next (.ok expr) height := by
  induction h generalizing expr with
  | finish _ _ ih =>
    cases hresult
    apply (ih rfl).finish
    rw [Grammar.level_of_none hnext]
    exact Nat.zero_le _
  | start hrule _ ih => exact .start hrule (ih hresult)
  | extend hbeginning hrule hlevel _ _ ih => exact .extend hbeginning hrule hlevel (ih hresult)
  | name =>
    cases hresult
    exact .name
  | group hexpr hclosing _ =>
    cases hresult
    exact .group hexpr hclosing
  | @operator _ _ _ _ result _ _ ih =>
    cases result with
    | ok operand =>
      cases hresult
      exact .operator (ih rfl)
    | error fault => cases hresult
  | postfixed =>
    cases hresult
    exact .postfixed
  | @binary _ _ _ _ _ _ result _ _ ih =>
    cases result with
    | ok right =>
      cases hresult
      exact .binary (ih rfl)
    | error fault => cases hresult
  | @conditional _ _ _ _ _ _ _ result _ _ hyes hcolon _ _ ih =>
    cases result with
    | ok no =>
      cases hresult
      exact .conditional hyes hcolon (ih rfl)
    | error fault => cases hresult
  | call _ ih => exact .call (ih hresult)
  | @assign _ _ _ _ result _ _ ih =>
    cases result with
    | ok value =>
      rw [← hresult]
      exact .assign (ih rfl)
    | error fault => cases hresult
  | no_arguments hclosing =>
    cases hresult
    exact .no_arguments hclosing
  | some_arguments _ _ ih => exact arguments_of_separated hclose (ih hresult) (by simp)
  | last hexpr hclosing _ =>
    cases hresult
    exact .last hexpr hclosing
  | more hexpr hcomma _ _ ih => exact .more hexpr hcomma (ih hresult)
  | finish_fault | no_start | group_fault | group_open | conditional_fault | conditional_open
  | argument_fault | argument_open => cases hresult

/-- Reading does not depend on the limit on nesting. -/
theorem of_limit (limit? : Option Nat) (h : Reads grammar task read following result height) :
    Reads { grammar with depthLimit := limit? } task read following result height := by
  induction h with
  | finish _ hlevel ih => exact .finish ih hlevel
  | finish_fault _ ih => exact .finish_fault ih
  | no_start hrule => exact .no_start hrule
  | start hrule _ ih => exact .start hrule ih
  | extend _ hrule hlevel _ ihleft ih => exact .extend ihleft hrule hlevel ih
  | name => exact .name
  | group _ hclosing ih => exact .group ih hclosing
  | group_fault _ ih => exact .group_fault ih
  | group_open _ hfollowing ih => exact .group_open ih hfollowing
  | operator _ ih => exact .operator ih
  | postfixed => exact .postfixed
  | binary _ ih => exact .binary ih
  | conditional _ hcolon _ ihyes ihno => exact .conditional ihyes hcolon ihno
  | conditional_fault _ ih => exact .conditional_fault ih
  | conditional_open _ hfollowing ih => exact .conditional_open ih hfollowing
  | call _ ih => exact .call ih
  | assign _ ih => exact .assign ih
  | no_arguments hclosing => exact .no_arguments hclosing
  | some_arguments hfirst _ ih => exact .some_arguments hfirst ih
  | last _ hclosing ih => exact .last ih hclosing
  | more _ hcomma _ ih ihrest => exact .more ih hcomma ihrest
  | argument_fault _ ih => exact .argument_fault ih
  | argument_open _ hcomma hclosing ih => exact .argument_open ih hcomma hclosing

end Reads

end Precedence
