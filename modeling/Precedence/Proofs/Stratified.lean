import Precedence.Proofs.Reading

/-!
# The stratified grammar

The powers of the standard grammar stand for a grammar in layers, one kind of phrase for
each strength of binding. `Derives` is that grammar, with the tree of each phrase and
with the number of positions that enclose its tokens: the inside of a group, the operand
of a prefix operator, the right operand of a binary operator, an arm of a choice, an
argument of a call and the value of an assignment. The parser accepts exactly what the
grammar derives with at most 255 positions around each token, which is shown elsewhere;
here are the grammar, the order of its phrases and the standard tables read backwards.
-/

namespace Precedence

/-- The kinds of phrases, from the tightest to the loosest. -/
inductive Phrase where
  /-- A name or a group. -/
  | primary
  /-- A primary with operators and calls after it. -/
  | post
  /-- A call with one or more arguments that is not closed. -/
  | opened
  /-- Operators before a postfix phrase. -/
  | pre
  /-- Powers, grouped from the right. -/
  | exponent
  /-- Products and quotients, grouped from the left. -/
  | product
  /-- Sums and differences, grouped from the left. -/
  | sum
  /-- Choices, grouped from the right. -/
  | conditional
  /-- A name that may be assigned to, possibly in parentheses. -/
  | target
  /-- Any expression. -/
  | expression
deriving DecidableEq, Repr, Inhabited

/-- `Derives phrase tokens expr depth` says that the tokens form a phrase with the tree
`expr`, and that `depth` is the largest number of positions in the phrase that enclose
one of its tokens. -/
inductive Derives : Phrase → List Token → Expr → Nat → Prop where
  /-- An identifier is a primary. -/
  | identifier {token} (htoken : token.kind = .identifier) :
      Derives .primary [token] (.name token.value) 0
  /-- An expression in parentheses is a primary, and leaves no node in the tree. -/
  | group {opening tokens closing expr depth} (hopening : opening.kind = .openParen)
      (hexpr : Derives .expression tokens expr depth) (hclosing : closing.kind = .closeParen) :
      Derives .primary (opening :: (tokens ++ [closing])) expr (depth + 1)
  /-- A primary is a postfix phrase. -/
  | postOfPrimary {tokens expr depth} (hexpr : Derives .primary tokens expr depth) :
      Derives .post tokens expr depth
  /-- An exclamation mark extends a postfix phrase. -/
  | bang {tokens sign expr depth} (hexpr : Derives .post tokens expr depth)
      (hsign : sign.kind = .bang) :
      Derives .post (tokens ++ [sign]) (.postfixed expr sign.kind) depth
  /-- An empty list of arguments extends a postfix phrase. -/
  | callNone {tokens opening closing callee depth} (hcallee : Derives .post tokens callee depth)
      (hopening : opening.kind = .openParen) (hclosing : closing.kind = .closeParen) :
      Derives .post (tokens ++ [opening, closing]) (.call callee []) depth
  /-- A call is opened by its first argument. -/
  | callFirst {tokens opening argument callee expr depth more}
      (hcallee : Derives .post tokens callee depth) (hopening : opening.kind = .openParen)
      (hargument : Derives .expression argument expr more) :
      Derives .opened (tokens ++ opening :: argument) (.call callee [expr])
        (max depth (more + 1))
  /-- Each further argument follows a comma. -/
  | callNext {tokens comma argument callee exprs expr depth more}
      (hcall : Derives .opened tokens (.call callee exprs) depth) (hcomma : comma.kind = .comma)
      (hargument : Derives .expression argument expr more) :
      Derives .opened (tokens ++ comma :: argument) (.call callee (exprs ++ [expr]))
        (max depth (more + 1))
  /-- Arguments in parentheses extend a postfix phrase. -/
  | callSome {tokens closing expr depth} (hcall : Derives .opened tokens expr depth)
      (hclosing : closing.kind = .closeParen) :
      Derives .post (tokens ++ [closing]) expr depth
  /-- A postfix phrase is a prefix phrase. -/
  | preOfPost {tokens expr depth} (hexpr : Derives .post tokens expr depth) :
      Derives .pre tokens expr depth
  /-- An operator before a prefix phrase. -/
  | sign {sign tokens operand depth} (hsign : sign.kind ∈ [Kind.plus, .dash, .tilde, .bang])
      (hoperand : Derives .pre tokens operand depth) :
      Derives .pre (sign :: tokens) (.prefixed sign.kind operand) (depth + 1)
  /-- A prefix phrase is a power. -/
  | exponentOfPre {tokens expr depth} (hexpr : Derives .pre tokens expr depth) :
      Derives .exponent tokens expr depth
  /-- A power of a prefix phrase. -/
  | caret {tokens sign others left right depth more} (hleft : Derives .pre tokens left depth)
      (hsign : sign.kind = .caret) (hright : Derives .exponent others right more) :
      Derives .exponent (tokens ++ sign :: others) (.binary left sign.kind right)
        (max depth (more + 1))
  /-- A power is a product. -/
  | productOfExponent {tokens expr depth} (hexpr : Derives .exponent tokens expr depth) :
      Derives .product tokens expr depth
  /-- A product or quotient of a product and a power. -/
  | times {tokens sign others left right depth more} (hleft : Derives .product tokens left depth)
      (hsign : sign.kind ∈ [Kind.star, .slash]) (hright : Derives .exponent others right more) :
      Derives .product (tokens ++ sign :: others) (.binary left sign.kind right)
        (max depth (more + 1))
  /-- A product is a sum. -/
  | sumOfProduct {tokens expr depth} (hexpr : Derives .product tokens expr depth) :
      Derives .sum tokens expr depth
  /-- A sum or difference of a sum and a product. -/
  | plus {tokens sign others left right depth more} (hleft : Derives .sum tokens left depth)
      (hsign : sign.kind ∈ [Kind.plus, .dash]) (hright : Derives .product others right more) :
      Derives .sum (tokens ++ sign :: others) (.binary left sign.kind right)
        (max depth (more + 1))
  /-- A sum is a choice. -/
  | conditionalOfSum {tokens expr depth} (hexpr : Derives .sum tokens expr depth) :
      Derives .conditional tokens expr depth
  /-- A choice between an expression and another choice. -/
  | choice {tokens question middle colon others test yes no depth more last}
      (htest : Derives .sum tokens test depth) (hquestion : question.kind = .question)
      (hyes : Derives .expression middle yes more) (hcolon : colon.kind = .colon)
      (hno : Derives .conditional others no last) :
      Derives .conditional (tokens ++ question :: (middle ++ colon :: others))
        (.conditional test yes no) (max depth (max (more + 1) (last + 1)))
  /-- An identifier may be assigned to. -/
  | targetIdentifier {token} (htoken : token.kind = .identifier) :
      Derives .target [token] (.name token.value) 0
  /-- A target in parentheses is a target. -/
  | targetGroup {opening tokens closing expr depth} (hopening : opening.kind = .openParen)
      (hexpr : Derives .target tokens expr depth) (hclosing : closing.kind = .closeParen) :
      Derives .target (opening :: (tokens ++ [closing])) expr (depth + 1)
  /-- A choice is an expression. -/
  | expressionOfConditional {tokens expr depth}
      (hexpr : Derives .conditional tokens expr depth) : Derives .expression tokens expr depth
  /-- An assignment of an expression to a target. -/
  | assign {tokens sign others text value depth more}
      (htarget : Derives .target tokens (.name text) depth) (hsign : sign.kind = .assignment)
      (hvalue : Derives .expression others value more) :
      Derives .expression (tokens ++ sign :: others) (.assign text value) (max depth (more + 1))

namespace Grammar

/-- Only an identifier is a name. -/
theorem kind_of_name {kind : Kind} (h : standard.prefixRule kind = some .name) :
    kind = .identifier := by
  cases kind <;> simp [prefixRule_standard] at h ⊢

/-- Only an opening parenthesis opens a group. -/
theorem kind_of_group {kind : Kind} (h : standard.prefixRule kind = some .group) :
    kind = .openParen := by
  cases kind <;> simp [prefixRule_standard] at h ⊢

/-- The operators that stand before their operand, all of one power. -/
theorem kind_of_operator {kind : Kind} {power : Power}
    (h : standard.prefixRule kind = some (.operator power)) :
    kind ∈ [Kind.plus, .dash, .tilde, .bang] ∧ power = .prefixed := by
  cases kind <;> simp [prefixRule_standard, eq_comm] at h ⊢ <;> exact h

/-- Only an exclamation mark stands after its operand. -/
theorem kind_of_postfixed {kind : Kind} {power : Power}
    (h : standard.infixRule kind = some (.postfixed power)) :
    kind = .bang ∧ power = .postfixed := by
  cases kind <;> simp [infixRule_standard, eq_comm] at h ⊢
  exact h

/-- The operators that stand between their operands, with their powers. -/
theorem kind_of_binary {kind : Kind} {power : Power} {associativity : Associativity}
    (h : standard.infixRule kind = some (.binary power associativity)) :
    kind ∈ [Kind.plus, .dash] ∧ power = .sum ∧ associativity = .left ∨
      kind ∈ [Kind.star, .slash] ∧ power = .product ∧ associativity = .left ∨
      kind = .caret ∧ power = .exponent ∧ associativity = .right := by
  cases kind <;> simp [infixRule_standard, eq_comm] at h ⊢ <;> exact h

/-- Only a question mark divides a condition from its arms. -/
theorem kind_of_conditional {kind : Kind} (h : standard.infixRule kind = some .conditional) :
    kind = .question := by
  cases kind <;> simp [infixRule_standard] at h ⊢

/-- Only an opening parenthesis opens the arguments of a call. -/
theorem kind_of_call {kind : Kind} (h : standard.infixRule kind = some .call) :
    kind = .openParen := by
  cases kind <;> simp [infixRule_standard] at h ⊢

/-- Only an equals sign assigns. -/
theorem kind_of_assign {kind : Kind} (h : standard.infixRule kind = some .assign) :
    kind = .assignment := by
  cases kind <;> simp [infixRule_standard] at h ⊢

/-- Plus and minus signs add. -/
theorem infixRule_of_sum {kind : Kind} (h : kind ∈ [Kind.plus, .dash]) :
    standard.infixRule kind = some (.binary .sum .left) := by
  revert kind
  decide

/-- Stars and slashes multiply. -/
theorem infixRule_of_product {kind : Kind} (h : kind ∈ [Kind.star, .slash]) :
    standard.infixRule kind = some (.binary .product .left) := by
  revert kind
  decide

/-- No token binds tighter than a call. -/
theorem level_standard_le (kind : Kind) : standard.level kind ≤ Power.call.level := by
  cases kind <;> decide

end Grammar

namespace Phrase

/-- The phrases that an expression can be taken for, from the loosest on. -/
def ofTier : Nat → Phrase
  | 0 => expression
  | 1 => conditional
  | 2 => sum
  | 3 => product
  | 4 => exponent
  | 5 => pre
  | 6 => post
  | _ => primary

/-- The tier of what is parsed above a level. No phrase stands between powers and prefix
operators, so two levels have the same tier. -/
def tier (level : Nat) : Nat := if level ≤ Power.exponent.level then level else level - 1

/-- The tightest level at which a token may follow a phrase without being part of it. -/
def follow : Phrase → Nat
  | expression => Power.lowest.level
  | conditional => Power.assignment.level
  | sum => Power.sum.level
  | product | exponent => Power.product.level
  | pre => Power.prefixed.level
  | post | opened | target | primary => Power.call.level

/-- A looser level has a looser tier. -/
theorem tier_mono {level other : Nat} (h : level ≤ other) : tier level ≤ tier other := by
  unfold tier
  split <;> split <;> omega

/-- Tighter phrases may be followed by tokens that bind tighter. -/
theorem follow_mono {n m : Nat} (h : n ≤ m) : (ofTier n).follow ≤ (ofTier m).follow := by
  induction h with
  | refl => exact Nat.le_refl _
  | @step m _ ih =>
    apply Nat.le_trans ih
    match m with
    | 0 | 1 | 2 | 3 | 4 | 5 | 6 => decide
    | _ + 7 => exact Nat.le_refl _

/-- A phrase is tighter than those that a token may not follow. -/
theorem lt_of_le_follow (n : Nat) {m level : Nat} (hn : (ofTier n).follow < level)
    (hm : level ≤ (ofTier m).follow) : n < m := by
  rcases Nat.lt_or_ge n m with hlt | hge
  · exact hlt
  · have hfollow := follow_mono hge
    omega

end Phrase

namespace Derives

/-- Each phrase is a phrase of the next looser kind. -/
theorem step {tier : Nat} {tokens : List Token} {expr : Expr} {depth : Nat}
    (h : Derives (.ofTier (tier + 1)) tokens expr depth) :
    Derives (.ofTier tier) tokens expr depth := by
  match tier with
  | 0 => exact .expressionOfConditional h
  | 1 => exact .conditionalOfSum h
  | 2 => exact .sumOfProduct h
  | 3 => exact .productOfExponent h
  | 4 => exact .exponentOfPre h
  | 5 => exact .preOfPost h
  | 6 => exact .postOfPrimary h
  | _ + 7 => exact h

/-- Each phrase is a phrase of every looser kind. -/
theorem lower {tier : Nat} {tokens : List Token} {expr : Expr} {depth : Nat}
    (h : Derives (.ofTier tier) tokens expr depth) (other : Nat) (hle : other ≤ tier) :
    Derives (.ofTier other) tokens expr depth := by
  induction hle with
  | refl => exact h
  | step _ ih => exact ih h.step

/-- A phrase whose tree is a name is a target: it is an identifier in parentheses. -/
theorem target_of_name {phrase : Phrase} {tokens : List Token} {expr : Expr} {depth : Nat}
    (h : Derives phrase tokens expr depth) {text : String} (hname : expr = .name text) :
    Derives .target tokens expr depth := by
  induction h with
  | identifier htoken | targetIdentifier htoken => exact .targetIdentifier htoken
  | group hopening _ hclosing ih | targetGroup hopening _ hclosing ih =>
    exact .targetGroup hopening (ih hname) hclosing
  | postOfPrimary _ ih | preOfPost _ ih | exponentOfPre _ ih | productOfExponent _ ih
  | sumOfProduct _ ih | conditionalOfSum _ ih | expressionOfConditional _ ih => exact ih hname
  | callSome hcall _ _ =>
    subst hname
    cases hcall
  | bang | callNone | callFirst | callNext | sign | caret | times | plus | choice | assign =>
    cases hname

end Derives

/-- Arguments of a call, divided by commas, each of them nested less deep than a limit. -/
inductive Arguments (limit : Nat) : List Token → Prop where
  /-- One argument. -/
  | one {tokens expr depth} (hexpr : Derives .expression tokens expr depth)
      (hdepth : depth < limit) : Arguments limit tokens
  /-- One more argument after a comma. -/
  | next {before comma tokens expr depth} (hbefore : Arguments limit before)
      (hcomma : comma.kind = .comma) (hexpr : Derives .expression tokens expr depth)
      (hdepth : depth < limit) : Arguments limit (before ++ comma :: tokens)

/-- What makes a phrase longer without enclosing it: an operator or a call after it, or an
operator that groups from the left with its right operand. -/
inductive Link (limit : Nat) : Phrase → List Token → Prop where
  /-- An exclamation mark. -/
  | bang {sign} (hsign : sign.kind = .bang) : Link limit .post [sign]
  /-- A call without arguments. -/
  | callNone {opening closing} (hopening : opening.kind = .openParen)
      (hclosing : closing.kind = .closeParen) : Link limit .post [opening, closing]
  /-- A call with arguments. -/
  | callSome {opening tokens closing} (hopening : opening.kind = .openParen)
      (harguments : Arguments limit tokens) (hclosing : closing.kind = .closeParen) :
      Link limit .post (opening :: (tokens ++ [closing]))
  /-- A factor or divisor. -/
  | times {sign tokens right depth} (hsign : sign.kind ∈ [Kind.star, .slash])
      (hright : Derives .exponent tokens right depth) (hdepth : depth < limit) :
      Link limit .product (sign :: tokens)
  /-- A term. -/
  | plus {sign tokens right depth} (hsign : sign.kind ∈ [Kind.plus, .dash])
      (hright : Derives .product tokens right depth) (hdepth : depth < limit) :
      Link limit .sum (sign :: tokens)

/-- Arguments open a call of any postfix phrase. -/
theorem Arguments.derives_opened {limit : Nat} {arguments : List Token}
    (h : Arguments limit arguments) {tokens : List Token} {opening : Token} {callee : Expr}
    {depth : Nat} (hcallee : Derives .post tokens callee depth) (hdepth : depth ≤ limit)
    (hopening : opening.kind = .openParen) :
    ∃ exprs, ∃ more ≤ limit,
      Derives .opened (tokens ++ opening :: arguments) (.call callee exprs) more := by
  induction h with
  | @one _ _ inner hexpr hinner =>
    exact ⟨_, max depth (inner + 1), by omega, .callFirst hcallee hopening hexpr⟩
  | @next _ _ _ _ inner _ hcomma hexpr hinner ih =>
    obtain ⟨exprs, more, hmore, hopened⟩ := ih
    have hnext := Derives.callNext hopened hcomma hexpr
    rw [List.append_assoc, List.cons_append] at hnext
    exact ⟨_, max more (inner + 1), by omega, hnext⟩

/-- A link makes a phrase longer within the limit. -/
theorem Derives.link {limit : Nat} {phrase : Phrase} {tokens others : List Token} {expr : Expr}
    {depth : Nat} (h : Derives phrase tokens expr depth) (hdepth : depth ≤ limit)
    (hlink : Link limit phrase others) :
    ∃ longer, ∃ more ≤ limit, Derives phrase (tokens ++ others) longer more := by
  cases hlink with
  | bang hsign => exact ⟨_, depth, hdepth, h.bang hsign⟩
  | callNone hopening hclosing => exact ⟨_, depth, hdepth, h.callNone hopening hclosing⟩
  | callSome hopening harguments hclosing =>
    obtain ⟨exprs, more, hmore, hopened⟩ := harguments.derives_opened h hdepth hopening
    have hcall := hopened.callSome hclosing
    rw [List.append_assoc, List.cons_append] at hcall
    exact ⟨_, more, hmore, hcall⟩
  | @times _ _ _ inner hsign hright hinner =>
    exact ⟨_, max depth (inner + 1), by omega, h.times hsign hright⟩
  | @plus _ _ _ inner hsign hright hinner =>
    exact ⟨_, max depth (inner + 1), by omega, h.plus hsign hright⟩

/-- A chain of links of any length makes a phrase longer within the limit. -/
theorem Derives.chain {limit : Nat} {phrase : Phrase} {tokens : List Token} {expr : Expr}
    {depth : Nat} (h : Derives phrase tokens expr depth) (hdepth : depth ≤ limit)
    {links : List (List Token)} (hlinks : ∀ link ∈ links, Link limit phrase link) :
    ∃ longer, ∃ more ≤ limit, Derives phrase (tokens ++ links.flatten) longer more := by
  induction links generalizing tokens expr depth with
  | nil => exact ⟨expr, depth, hdepth, by simpa using h⟩
  | cons link links ih =>
    obtain ⟨hlink, hothers⟩ := List.forall_mem_cons.mp hlinks
    obtain ⟨longer, more, hmore, hlonger⟩ := h.link hdepth hlink
    obtain ⟨longest, most, hmost, hlongest⟩ := ih hlonger hmore hothers
    rw [List.append_assoc] at hlongest
    exact ⟨longest, most, hmost, hlongest⟩

/-- The phrases that links extend are expressions. -/
theorem Derives.expression_of_mem {phrase : Phrase} {tokens : List Token} {expr : Expr}
    {depth : Nat} (hphrase : phrase ∈ [Phrase.post, .product, .sum])
    (h : Derives phrase tokens expr depth) : Derives .expression tokens expr depth := by
  simp only [List.mem_cons, List.not_mem_nil, or_false] at hphrase
  rcases hphrase with rfl | rfl | rfl
  · exact Derives.lower (show Derives (.ofTier 6) _ _ _ from h) 0 (by decide)
  · exact Derives.lower (show Derives (.ofTier 3) _ _ _ from h) 0 (by decide)
  · exact Derives.lower (show Derives (.ofTier 2) _ _ _ from h) 0 (by decide)

end Precedence
