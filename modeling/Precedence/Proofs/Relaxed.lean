import Precedence.Proofs.Stratified

/-!
# Assignments to anything

The relaxed grammar is the stratified one, except that whatever may stand on the left of an
equals sign may be assigned to. Its derivations keep every token, so the assignments in them
can be listed, each with the place of its sign: first those in its target, then those in its
value and then the assignment itself. The first of them whose target is no name is the
offence of the derivation. The main statements are that a derivation without an offence derives
the same tokens in the stratified grammar (`Relaxed.derives`), and that each derivation there is
one without an offence (`Derives.relaxed`).
-/

namespace Precedence

/-- The tokens of a phrase, as they are divided by the rules of a grammar. -/
inductive Derivation where
  /-- An identifier. -/
  | identifier (token : Token)
  /-- A phrase in parentheses. -/
  | group (opening : Token) (inside : Derivation) (closing : Token)
  /-- A phrase and a token that ends it: an exclamation mark, or the parenthesis that closes a
  call with arguments. -/
  | ended (phrase : Derivation) (last : Token)
  /-- A call without arguments. -/
  | called (callee : Derivation) (opening closing : Token)
  /-- An operator before its operand. -/
  | signed (sign : Token) (operand : Derivation)
  /-- Two phrases and the token between them: an operator, the parenthesis before the first
  argument of a call or the comma before another one. -/
  | joined (left : Derivation) (sign : Token) (right : Derivation)
  /-- A choice between two arms. -/
  | choice (test : Derivation) (question : Token) (yes : Derivation) (colon : Token)
      (no : Derivation)
  /-- An assignment. -/
  | assign (target : Derivation) (sign : Token) (value : Derivation)

/-- An assignment in a derivation, with the place of its sign among the tokens. -/
structure Assignment where
  target : Derivation
  place : Nat
  sign : Token

namespace Assignment

/-- An assignment as it stands behind some tokens. -/
def later (tokens : Nat) (assignment : Assignment) : Assignment :=
  { assignment with place := tokens + assignment.place }

/-- What is wrong with an assignment whose target is no name. -/
def fault (assignment : Assignment) : Fault := ⟨.invalidAssignmentTarget, assignment.sign.start⟩

end Assignment

namespace Derivation

/-- The tokens of a derivation. -/
def tokens : Derivation → List Token
  | identifier token => [token]
  | group opening inside closing => opening :: (inside.tokens ++ [closing])
  | ended phrase last => phrase.tokens ++ [last]
  | called callee opening closing => callee.tokens ++ [opening, closing]
  | signed sign operand => sign :: operand.tokens
  | joined left sign right => left.tokens ++ sign :: right.tokens
  | choice test question yes colon no =>
    test.tokens ++ question :: (yes.tokens ++ colon :: no.tokens)
  | assign target sign value => target.tokens ++ sign :: value.tokens

/-- The largest number of positions that enclose a token. -/
def depth : Derivation → Nat
  | identifier _ => 0
  | group _ inside _ => inside.depth + 1
  | ended phrase _ => phrase.depth
  | called callee _ _ => callee.depth
  | signed _ operand => operand.depth + 1
  | joined left _ right => max left.depth (right.depth + 1)
  | choice test _ yes _ no => max test.depth (max (yes.depth + 1) (no.depth + 1))
  | assign target _ value => max target.depth (value.depth + 1)

/-- Whether a derivation is that of an identifier, possibly in parentheses. -/
def isTarget : Derivation → Bool
  | identifier _ => true
  | group _ inside _ => inside.isTarget
  | _ => false

/-- The assignments in a derivation. Those in the parts of a phrase come in the order of the
parts, and an assignment comes after those in its target and in its value. -/
def assignments : Derivation → List Assignment
  | identifier _ => []
  | group _ inside _ => inside.assignments.map (.later 1)
  | ended phrase _ => phrase.assignments
  | called callee _ _ => callee.assignments
  | signed _ operand => operand.assignments.map (.later 1)
  | joined left _ right =>
    left.assignments ++ right.assignments.map (.later (left.tokens.length + 1))
  | choice test _ yes _ no =>
    test.assignments ++ (yes.assignments.map (.later (test.tokens.length + 1)) ++
      no.assignments.map (.later (test.tokens.length + 1 + (yes.tokens.length + 1))))
  | assign target sign value =>
    target.assignments ++ (value.assignments.map (.later (target.tokens.length + 1)) ++
      [⟨target, target.tokens.length, sign⟩])

end Derivation

/-- Whether the target of an assignment is something else than an identifier, possibly in
parentheses. -/
def Assignment.offends (assignment : Assignment) : Bool := !assignment.target.isTarget

/-- The first assignment in a derivation that offends. -/
def Derivation.offence? (derivation : Derivation) : Option Assignment :=
  derivation.assignments.find? Assignment.offends

/-- The next looser kind of phrase. -/
def Phrase.looser? : Phrase → Option Phrase
  | primary => some post
  | post => some pre
  | pre => some exponent
  | exponent => some product
  | product => some sum
  | sum => some conditional
  | conditional => some expression
  | opened | target | expression => none

/-- `Relaxed phrase derivation` says that the derivation follows the rules of the stratified
grammar for such a phrase, except that any choice may be assigned to. -/
inductive Relaxed : Phrase → Derivation → Prop where
  /-- An identifier is a primary. -/
  | identifier {token} (htoken : token.kind = .identifier) : Relaxed .primary (.identifier token)
  /-- An expression in parentheses is a primary. -/
  | group {opening inside closing} (hopening : opening.kind = .openParen)
      (hinside : Relaxed .expression inside) (hclosing : closing.kind = .closeParen) :
      Relaxed .primary (.group opening inside closing)
  /-- A phrase is one of the next looser kind. -/
  | looser {phrase other derivation} (hlooser : phrase.looser? = some other)
      (h : Relaxed phrase derivation) : Relaxed other derivation
  /-- An exclamation mark extends a postfix phrase. -/
  | bang {operand sign} (hoperand : Relaxed .post operand) (hsign : sign.kind = .bang) :
      Relaxed .post (.ended operand sign)
  /-- An empty list of arguments extends a postfix phrase. -/
  | callNone {callee opening closing} (hcallee : Relaxed .post callee)
      (hopening : opening.kind = .openParen) (hclosing : closing.kind = .closeParen) :
      Relaxed .post (.called callee opening closing)
  /-- A call is opened by its first argument. -/
  | callFirst {callee opening argument} (hcallee : Relaxed .post callee)
      (hopening : opening.kind = .openParen) (hargument : Relaxed .expression argument) :
      Relaxed .opened (.joined callee opening argument)
  /-- Each further argument follows a comma. -/
  | callNext {call comma argument} (hcall : Relaxed .opened call) (hcomma : comma.kind = .comma)
      (hargument : Relaxed .expression argument) : Relaxed .opened (.joined call comma argument)
  /-- Arguments in parentheses extend a postfix phrase. -/
  | callSome {call closing} (hcall : Relaxed .opened call) (hclosing : closing.kind = .closeParen) :
      Relaxed .post (.ended call closing)
  /-- An operator before a prefix phrase. -/
  | sign {sign operand} (hsign : sign.kind ∈ [Kind.plus, .dash, .tilde, .bang])
      (hoperand : Relaxed .pre operand) : Relaxed .pre (.signed sign operand)
  /-- A power of a prefix phrase. -/
  | caret {left sign right} (hleft : Relaxed .pre left) (hsign : sign.kind = .caret)
      (hright : Relaxed .exponent right) : Relaxed .exponent (.joined left sign right)
  /-- A product or quotient of a product and a power. -/
  | times {left sign right} (hleft : Relaxed .product left)
      (hsign : sign.kind ∈ [Kind.star, .slash]) (hright : Relaxed .exponent right) :
      Relaxed .product (.joined left sign right)
  /-- A sum or difference of a sum and a product. -/
  | plus {left sign right} (hleft : Relaxed .sum left) (hsign : sign.kind ∈ [Kind.plus, .dash])
      (hright : Relaxed .product right) : Relaxed .sum (.joined left sign right)
  /-- A choice between an expression and another choice. -/
  | choice {test question yes colon no} (htest : Relaxed .sum test)
      (hquestion : question.kind = .question) (hyes : Relaxed .expression yes)
      (hcolon : colon.kind = .colon) (hno : Relaxed .conditional no) :
      Relaxed .conditional (.choice test question yes colon no)
  /-- An assignment of an expression to any choice. -/
  | assign {target sign value} (htarget : Relaxed .conditional target)
      (hsign : sign.kind = .assignment) (hvalue : Relaxed .expression value) :
      Relaxed .expression (.assign target sign value)

namespace Derivation

variable {derivation inside callee left right test yes no target value : Derivation}
  {opening closing sign question colon last : Token} {assignment : Assignment}

/-- The first assignment that offends is the same behind some tokens. -/
theorem find?_later (assignments : List Assignment) (tokens : Nat) :
    (assignments.map (Assignment.later tokens)).find? Assignment.offends =
      (assignments.find? Assignment.offends).map (.later tokens) := by
  rw [List.find?_map]
  rfl

/-- The offence in a group is that in its inside. -/
@[simp] theorem offence?_group :
    (group opening inside closing).offence? = inside.offence?.map (.later 1) :=
  find?_later _ _

/-- The last token of a phrase is no offence. -/
@[simp] theorem offence?_ended : (ended derivation last).offence? = derivation.offence? := rfl

/-- The parentheses of a call are no offence. -/
@[simp] theorem offence?_called : (called callee opening closing).offence? = callee.offence? := rfl

/-- The offence after a sign is that in its operand. -/
@[simp] theorem offence?_signed :
    (signed sign derivation).offence? = derivation.offence?.map (.later 1) :=
  find?_later _ _

/-- Of two phrases the first is looked at first. -/
@[simp] theorem offence?_joined :
    (joined left sign right).offence? =
      left.offence?.or (right.offence?.map (.later (left.tokens.length + 1))) := by
  rw [offence?, assignments, List.find?_append, find?_later]
  rfl

/-- A choice is looked at from the left to the right. -/
@[simp] theorem offence?_choice :
    (choice test question yes colon no).offence? =
      test.offence?.or ((yes.offence?.map (.later (test.tokens.length + 1))).or
        (no.offence?.map (.later (test.tokens.length + 1 + (yes.tokens.length + 1))))) := by
  rw [offence?, assignments, List.find?_append, List.find?_append, find?_later, find?_later]
  rfl

/-- The target and the value of an assignment are looked at before the assignment. -/
@[simp] theorem offence?_assign :
    (assign target sign value).offence? =
      target.offence?.or ((value.offence?.map (.later (target.tokens.length + 1))).or
        (if target.isTarget then none else some ⟨target, target.tokens.length, sign⟩)) := by
  rw [offence?, assignments, List.find?_append, List.find?_append, find?_later]
  cases htarget : target.isTarget <;> simp [offence?, Assignment.offends, htarget]

/-- Two phrases offend if one of them does. -/
theorem offence?_joined_eq_none :
    (joined left sign right).offence? = none ↔ left.offence? = none ∧ right.offence? = none := by
  rw [offence?_joined, Option.or_eq_none_iff, Option.map_eq_none_iff]

/-- The offence in two phrases is that in the first, or that in the second if there is none in
the first. -/
theorem exists_offence_joined (h : (joined left sign right).offence? = some assignment) :
    left.offence? = some assignment ∨ left.offence? = none ∧ ∃ inner, right.offence? = some inner ∧
      inner.later (left.tokens.length + 1) = assignment := by
  rwa [offence?_joined, Option.or_eq_some_iff, Option.map_eq_some_iff] at h

/-- A choice offends if one of its parts does. -/
theorem offence?_choice_eq_none :
    (choice test question yes colon no).offence? = none ↔
      test.offence? = none ∧ yes.offence? = none ∧ no.offence? = none := by
  rw [offence?_choice, Option.or_eq_none_iff, Option.or_eq_none_iff, Option.map_eq_none_iff,
    Option.map_eq_none_iff]

/-- An assignment offends if its target or its value does, or if its target is none. -/
theorem offence?_assign_eq_none :
    (assign target sign value).offence? = none ↔
      target.offence? = none ∧ value.offence? = none ∧ target.isTarget = true := by
  simp

/-- Before some other tokens an assignment has its sign at the same place. -/
theorem getElem?_front {tokens : List Token} (back : List Token)
    (h : tokens[assignment.place]? = some assignment.sign) :
    (tokens ++ back)[assignment.place]? = some assignment.sign := by
  have hlt : assignment.place < tokens.length := (List.getElem?_eq_some_iff.mp h).1
  rw [List.getElem?_append_left hlt, h]

/-- Behind some other tokens an assignment has its sign at the later place. -/
theorem getElem?_later {tokens : List Token} (front : List Token)
    (h : tokens[assignment.place]? = some assignment.sign) :
    (front ++ tokens)[(assignment.later front.length).place]? =
      some (assignment.later front.length).sign := by
  change (front ++ tokens)[front.length + assignment.place]? = some assignment.sign
  rw [List.getElem?_append_right (by omega), Nat.add_sub_cancel_left, h]

/-- The sign of each assignment stands at its place. -/
theorem getElem?_place (derivation : Derivation) :
    ∀ assignment ∈ derivation.assignments,
      derivation.tokens[assignment.place]? = some assignment.sign := by
  induction derivation with
  | identifier token => exact List.forall_mem_nil _
  | group opening inside closing ih =>
    refine List.forall_mem_map.mpr fun assignment hmem => ?_
    exact getElem?_later [opening] (getElem?_front [closing] (ih assignment hmem))
  | ended phrase last ih => exact fun assignment hmem => getElem?_front _ (ih assignment hmem)
  | called callee opening closing ih =>
    exact fun assignment hmem => getElem?_front _ (ih assignment hmem)
  | signed sign operand ih =>
    refine List.forall_mem_map.mpr fun assignment hmem => ?_
    exact getElem?_later [sign] (ih assignment hmem)
  | joined left sign right ihleft ihright =>
    refine List.forall_mem_append.mpr ⟨fun assignment hmem => ?_,
      List.forall_mem_map.mpr fun assignment hmem => ?_⟩
    · exact getElem?_front _ (ihleft assignment hmem)
    · have hlater := getElem?_later (left.tokens ++ [sign]) (ihright assignment hmem)
      rwa [List.length_append, List.append_assoc] at hlater
  | choice test question yes colon no ihtest ihyes ihno =>
    refine List.forall_mem_append.mpr ⟨fun assignment hmem => ?_, List.forall_mem_append.mpr
      ⟨List.forall_mem_map.mpr fun assignment hmem => ?_,
        List.forall_mem_map.mpr fun assignment hmem => ?_⟩⟩
    · exact getElem?_front _ (ihtest assignment hmem)
    · have hlater := getElem?_later (test.tokens ++ [question])
        (getElem?_front (colon :: no.tokens) (ihyes assignment hmem))
      rwa [List.length_append, List.append_assoc] at hlater
    · have hlater := getElem?_later (test.tokens ++ [question] ++ (yes.tokens ++ [colon]))
        (ihno assignment hmem)
      rwa [List.length_append, List.length_append, List.length_append, List.append_assoc,
        List.append_assoc, List.append_assoc] at hlater
  | assign target sign value ihtarget ihvalue =>
    refine List.forall_mem_append.mpr ⟨fun assignment hmem => ?_, List.forall_mem_append.mpr
      ⟨List.forall_mem_map.mpr fun assignment hmem => ?_, List.forall_mem_singleton.mpr ?_⟩⟩
    · exact getElem?_front _ (ihtarget assignment hmem)
    · have hlater := getElem?_later (target.tokens ++ [sign]) (ihvalue assignment hmem)
      rwa [List.length_append, List.append_assoc] at hlater
    · change (target.tokens ++ sign :: value.tokens)[target.tokens.length]? = some sign
      simp

end Derivation

namespace Relaxed

variable {phrase : Phrase} {derivation : Derivation}

/-- Every sign of an assignment is an equals sign. -/
theorem kind_sign (h : Relaxed phrase derivation) :
    ∀ assignment ∈ derivation.assignments, assignment.sign.kind = .assignment := by
  induction h with
  | identifier => exact List.forall_mem_nil _
  | group _ _ _ ih | sign _ _ ih => exact List.forall_mem_map.mpr ih
  | looser _ _ ih | bang _ _ ih | callNone _ _ _ ih | callSome _ _ ih => exact ih
  | callFirst _ _ _ ihleft ihright | callNext _ _ _ ihleft ihright | caret _ _ _ ihleft ihright
  | times _ _ _ ihleft ihright | plus _ _ _ ihleft ihright =>
    exact List.forall_mem_append.mpr ⟨ihleft, List.forall_mem_map.mpr ihright⟩
  | choice _ _ _ _ _ ihtest ihyes ihno =>
    exact List.forall_mem_append.mpr ⟨ihtest, List.forall_mem_append.mpr
      ⟨List.forall_mem_map.mpr ihyes, List.forall_mem_map.mpr ihno⟩⟩
  | assign _ hsign _ ihtarget ihvalue =>
    exact List.forall_mem_append.mpr ⟨ihtarget, List.forall_mem_append.mpr
      ⟨List.forall_mem_map.mpr ihvalue, List.forall_mem_singleton.mpr hsign⟩⟩

/-- Each phrase is a phrase of every looser kind. -/
theorem lower {tier : Nat} (h : Relaxed (.ofTier tier) derivation) (other : Nat)
    (hle : other ≤ tier) : Relaxed (.ofTier other) derivation := by
  induction hle with
  | refl => exact h
  | @step tier _ ih =>
    apply ih
    match tier with
    | 0 | 1 | 2 | 3 | 4 | 5 | 6 => exact .looser rfl h
    | _ + 7 => exact h

end Relaxed

namespace Derives

variable {phrase other : Phrase} {tokens : List Token} {expr : Expr} {depth : Nat}

/-- A phrase is one of the next looser kind. -/
theorem looser (h : Derives phrase tokens expr depth) (hlooser : phrase.looser? = some other) :
    Derives other tokens expr depth := by
  cases phrase <;> cases hlooser
  · exact .postOfPrimary h
  · exact .preOfPost h
  · exact .exponentOfPre h
  · exact .productOfExponent h
  · exact .sumOfProduct h
  · exact .conditionalOfSum h
  · exact .expressionOfConditional h

/-- An open call has the tree of a call. -/
theorem exists_call (h : Derives .opened tokens expr depth) :
    ∃ callee exprs, expr = .call callee exprs := by
  cases h <;> exact ⟨_, _, rfl⟩

end Derives

/-- A derivation without an offence derives its tokens in the stratified grammar as well, and
the tree is a name exactly if the derivation is that of a target. -/
theorem Relaxed.derives {phrase : Phrase} {derivation : Derivation} (h : Relaxed phrase derivation)
    (hproper : derivation.offence? = none) :
    ∃ expr, Derives phrase derivation.tokens expr derivation.depth ∧
      (derivation.isTarget = true ↔ ∃ text, expr = .name text) := by
  induction h with
  | identifier htoken => exact ⟨_, .identifier htoken, by simp [Derivation.isTarget]⟩
  | group hopening _ hclosing ih =>
    obtain ⟨expr, hexpr, htarget⟩ := ih (by simpa using hproper)
    exact ⟨expr, .group hopening hexpr hclosing, htarget⟩
  | looser hlooser _ ih =>
    obtain ⟨expr, hexpr, htarget⟩ := ih hproper
    exact ⟨expr, hexpr.looser hlooser, htarget⟩
  | bang _ hsign ih =>
    obtain ⟨expr, hexpr, -⟩ := ih hproper
    exact ⟨_, hexpr.bang hsign, by simp [Derivation.isTarget]⟩
  | callNone _ hopening hclosing ih =>
    obtain ⟨expr, hexpr, -⟩ := ih hproper
    exact ⟨_, hexpr.callNone hopening hclosing, by simp [Derivation.isTarget]⟩
  | callFirst _ hopening _ ih ihargument =>
    obtain ⟨hfirst, hlast⟩ := Derivation.offence?_joined_eq_none.mp hproper
    obtain ⟨callee, hcallee, -⟩ := ih hfirst
    obtain ⟨expr, hexpr, -⟩ := ihargument hlast
    exact ⟨_, .callFirst hcallee hopening hexpr, by simp [Derivation.isTarget]⟩
  | callNext _ hcomma _ ih ihargument =>
    obtain ⟨hfirst, hlast⟩ := Derivation.offence?_joined_eq_none.mp hproper
    obtain ⟨call, hcall, -⟩ := ih hfirst
    obtain ⟨expr, hexpr, -⟩ := ihargument hlast
    obtain ⟨callee, exprs, rfl⟩ := hcall.exists_call
    exact ⟨_, .callNext hcall hcomma hexpr, by simp [Derivation.isTarget]⟩
  | callSome _ hclosing ih =>
    obtain ⟨expr, hexpr, -⟩ := ih hproper
    obtain ⟨callee, exprs, rfl⟩ := hexpr.exists_call
    exact ⟨_, hexpr.callSome hclosing, by simp [Derivation.isTarget]⟩
  | sign hsign _ ih =>
    obtain ⟨expr, hexpr, -⟩ := ih (by simpa using hproper)
    exact ⟨_, .sign hsign hexpr, by simp [Derivation.isTarget]⟩
  | caret _ hsign _ ihleft ihright =>
    obtain ⟨hfirst, hlast⟩ := Derivation.offence?_joined_eq_none.mp hproper
    obtain ⟨left, hleft, -⟩ := ihleft hfirst
    obtain ⟨right, hright, -⟩ := ihright hlast
    exact ⟨_, .caret hleft hsign hright, by simp [Derivation.isTarget]⟩
  | times _ hsign _ ihleft ihright =>
    obtain ⟨hfirst, hlast⟩ := Derivation.offence?_joined_eq_none.mp hproper
    obtain ⟨left, hleft, -⟩ := ihleft hfirst
    obtain ⟨right, hright, -⟩ := ihright hlast
    exact ⟨_, .times hleft hsign hright, by simp [Derivation.isTarget]⟩
  | plus _ hsign _ ihleft ihright =>
    obtain ⟨hfirst, hlast⟩ := Derivation.offence?_joined_eq_none.mp hproper
    obtain ⟨left, hleft, -⟩ := ihleft hfirst
    obtain ⟨right, hright, -⟩ := ihright hlast
    exact ⟨_, .plus hleft hsign hright, by simp [Derivation.isTarget]⟩
  | choice _ hquestion _ hcolon _ ihtest ihyes ihno =>
    obtain ⟨hfirst, hmiddle, hlast⟩ := Derivation.offence?_choice_eq_none.mp hproper
    obtain ⟨test, htest, -⟩ := ihtest hfirst
    obtain ⟨yes, hyes, -⟩ := ihyes hmiddle
    obtain ⟨no, hno, -⟩ := ihno hlast
    exact ⟨_, .choice htest hquestion hyes hcolon hno, by simp [Derivation.isTarget]⟩
  | assign _ hsign _ ihtarget ihvalue =>
    obtain ⟨hfirst, hlast, hname⟩ := Derivation.offence?_assign_eq_none.mp hproper
    obtain ⟨target, hexpr, htarget⟩ := ihtarget hfirst
    obtain ⟨value, hvalue, -⟩ := ihvalue hlast
    -- The tree of a target is the name it consists of, so the group around it is no hindrance.
    obtain ⟨text, rfl⟩ := htarget.mp hname
    exact ⟨_, .assign (hexpr.target_of_name rfl) hsign hvalue, by simp [Derivation.isTarget]⟩

/-- The phrase that takes the place of one in the relaxed grammar, where a target is a primary like
any other. -/
def Phrase.relaxed : Phrase → Phrase
  | target => primary
  | phrase => phrase

/-- The phrases of the tiers are the same in both grammars. -/
theorem Phrase.relaxed_ofTier (tier : Nat) : (ofTier tier).relaxed = ofTier tier := by
  match tier with
  | 0 | 1 | 2 | 3 | 4 | 5 | 6 | _ + 7 => rfl

/-- What the stratified grammar derives has a derivation in the relaxed one, without an offence. -/
theorem Derives.relaxed {phrase : Phrase} {tokens : List Token} {expr : Expr} {depth : Nat}
    (h : Derives phrase tokens expr depth) :
    ∃ derivation, Relaxed phrase.relaxed derivation ∧ derivation.tokens = tokens ∧
      derivation.offence? = none ∧ (derivation.isTarget = true ↔ ∃ text, expr = .name text) := by
  induction h with
  | identifier htoken | targetIdentifier htoken =>
    exact ⟨_, .identifier htoken, rfl, rfl, by simp [Derivation.isTarget]⟩
  | group hopening _ hclosing ih =>
    obtain ⟨inside, hinside, rfl, hproper, htarget⟩ := ih
    exact ⟨_, .group hopening hinside hclosing, rfl, by simp [hproper], htarget⟩
  | targetGroup hopening _ hclosing ih =>
    obtain ⟨inside, hinside, rfl, hproper, htarget⟩ := ih
    have hexpression : Relaxed .expression inside :=
      Relaxed.lower (show Relaxed (.ofTier 7) inside from hinside) 0 (by decide)
    exact ⟨_, .group hopening hexpression hclosing, rfl, by simp [hproper], htarget⟩
  | postOfPrimary _ ih | preOfPost _ ih | exponentOfPre _ ih | productOfExponent _ ih
  | sumOfProduct _ ih | conditionalOfSum _ ih | expressionOfConditional _ ih =>
    obtain ⟨derivation, hrelaxed, htokens, hproper, htarget⟩ := ih
    exact ⟨derivation, .looser rfl hrelaxed, htokens, hproper, htarget⟩
  | bang _ hsign ih =>
    obtain ⟨operand, hoperand, rfl, hproper, -⟩ := ih
    exact ⟨_, .bang hoperand hsign, rfl, hproper, by simp [Derivation.isTarget]⟩
  | callNone _ hopening hclosing ih =>
    obtain ⟨callee, hcallee, rfl, hproper, -⟩ := ih
    exact ⟨_, .callNone hcallee hopening hclosing, rfl, hproper, by simp [Derivation.isTarget]⟩
  | callFirst _ hopening _ ih ihargument =>
    obtain ⟨callee, hcallee, rfl, hproper, -⟩ := ih
    obtain ⟨argument, hargument, rfl, hlast, -⟩ := ihargument
    exact ⟨_, .callFirst hcallee hopening hargument, rfl, by simp [hproper, hlast],
      by simp [Derivation.isTarget]⟩
  | callNext _ hcomma _ ih ihargument =>
    obtain ⟨call, hcall, rfl, hproper, -⟩ := ih
    obtain ⟨argument, hargument, rfl, hlast, -⟩ := ihargument
    exact ⟨_, .callNext hcall hcomma hargument, rfl, by simp [hproper, hlast],
      by simp [Derivation.isTarget]⟩
  | callSome hcall hclosing ih =>
    obtain ⟨call, hrelaxed, rfl, hproper, -⟩ := ih
    obtain ⟨callee, exprs, rfl⟩ := hcall.exists_call
    exact ⟨_, .callSome hrelaxed hclosing, rfl, hproper, by simp [Derivation.isTarget]⟩
  | sign hsign _ ih =>
    obtain ⟨operand, hoperand, rfl, hproper, -⟩ := ih
    exact ⟨_, .sign hsign hoperand, rfl, by simp [hproper], by simp [Derivation.isTarget]⟩
  | caret _ hsign _ ihleft ihright =>
    obtain ⟨left, hleft, rfl, hfirst, -⟩ := ihleft
    obtain ⟨right, hright, rfl, hlast, -⟩ := ihright
    exact ⟨_, .caret hleft hsign hright, rfl, by simp [hfirst, hlast],
      by simp [Derivation.isTarget]⟩
  | times _ hsign _ ihleft ihright =>
    obtain ⟨left, hleft, rfl, hfirst, -⟩ := ihleft
    obtain ⟨right, hright, rfl, hlast, -⟩ := ihright
    exact ⟨_, .times hleft hsign hright, rfl, by simp [hfirst, hlast],
      by simp [Derivation.isTarget]⟩
  | plus _ hsign _ ihleft ihright =>
    obtain ⟨left, hleft, rfl, hfirst, -⟩ := ihleft
    obtain ⟨right, hright, rfl, hlast, -⟩ := ihright
    exact ⟨_, .plus hleft hsign hright, rfl, by simp [hfirst, hlast],
      by simp [Derivation.isTarget]⟩
  | choice _ hquestion _ hcolon _ ihtest ihyes ihno =>
    obtain ⟨test, htest, rfl, hfirst, -⟩ := ihtest
    obtain ⟨yes, hyes, rfl, hmiddle, -⟩ := ihyes
    obtain ⟨no, hno, rfl, hlast, -⟩ := ihno
    exact ⟨_, .choice htest hquestion hyes hcolon hno, rfl, by simp [hfirst, hmiddle, hlast],
      by simp [Derivation.isTarget]⟩
  | assign _ hsign _ ihtarget ihvalue =>
    obtain ⟨target, htarget, rfl, hfirst, hname⟩ := ihtarget
    obtain ⟨value, hvalue, rfl, hlast, -⟩ := ihvalue
    have hconditional : Relaxed .conditional target :=
      Relaxed.lower (show Relaxed (.ofTier 7) target from htarget) 1 (by decide)
    have hproper : target.isTarget = true := hname.mpr ⟨_, rfl⟩
    exact ⟨_, .assign hconditional hsign hvalue, rfl, by simp [hfirst, hlast, hproper],
      by simp [Derivation.isTarget]⟩

end Precedence
