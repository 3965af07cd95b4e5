import Mathlib.Logic.Function.Iterate
import Precedence.Proofs.Scanned
import Precedence.Proofs.StratifiedParse

/-!
# Printing and parsing

The printed text of a tree is scanned as the tokens of a postfix phrase with that tree, so
it is parsed as the same tree unless it is nested too deep. `Expr.nesting` is how deep the
printed text is nested: the parentheses that printing adds count, and a call adds none.
Only trees that a text can have are printed in this way, and parsing a text gives no
other trees.
-/

namespace Precedence

namespace Expr

/-- The trees that a text can have: each name is a word and each operator stands where the
standard grammar has it. -/
inductive WellFormed : Expr → Prop where
  /-- A name is a word. -/
  | name {text} (htext : IsWord text) : WellFormed (.name text)
  /-- What is assigned to is a word. -/
  | assign {target value} (htarget : IsWord target) (hvalue : WellFormed value) :
      WellFormed (.assign target value)
  /-- A choice has three well-formed parts. -/
  | conditional {test yes no} (htest : WellFormed test) (hyes : WellFormed yes)
      (hno : WellFormed no) : WellFormed (.conditional test yes no)
  /-- One of five operators stands between two operands. -/
  | binary {left operator right} (hleft : WellFormed left)
      (hoperator : operator ∈ [Kind.plus, .dash, .star, .slash, .caret])
      (hright : WellFormed right) : WellFormed (.binary left operator right)
  /-- One of four operators stands before its operand. -/
  | prefixed {operator operand} (hoperator : operator ∈ [Kind.plus, .dash, .tilde, .bang])
      (hoperand : WellFormed operand) : WellFormed (.prefixed operator operand)
  /-- An exclamation mark stands after its operand. -/
  | postfixed {operand operator} (hoperand : WellFormed operand) (hoperator : operator = .bang) :
      WellFormed (.postfixed operand operator)
  /-- What is called and its arguments are well-formed. -/
  | call {callee arguments} (hcallee : WellFormed callee)
      (harguments : ∀ argument ∈ arguments, WellFormed argument) :
      WellFormed (.call callee arguments)

mutual

/-- How deep expressions are nested in the printed text of a tree. -/
def nesting : Expr → Nat
  | name _ => 1
  | assign _ value => 2 + value.nesting
  | conditional test yes no => max (1 + test.nesting) (max (2 + yes.nesting) (2 + no.nesting))
  | binary left _ right => max (1 + left.nesting) (2 + right.nesting)
  | prefixed _ operand => 2 + operand.nesting
  | postfixed operand _ => 1 + operand.nesting
  | call callee arguments => max callee.nesting (nestingEach arguments)

/-- How deep expressions are nested in the printed text of the arguments of a call. -/
def nestingEach : List Expr → Nat
  | [] => 0
  | argument :: rest => max (1 + argument.nesting) (nestingEach rest)

end

end Expr

/-- What is derived from words is well-formed. -/
theorem Derives.wellFormed {phrase : Phrase} {tokens : List Token} {expr : Expr} {depth : Nat}
    (h : Derives phrase tokens expr depth)
    (hwords : ∀ token ∈ tokens, token.kind = .identifier → IsWord token.value) :
    expr.WellFormed := by
  induction h with
  | identifier htoken | targetIdentifier htoken =>
    exact .name (hwords _ List.mem_cons_self htoken)
  | postOfPrimary _ ih | preOfPost _ ih | exponentOfPre _ ih | productOfExponent _ ih
  | sumOfProduct _ ih | conditionalOfSum _ ih | expressionOfConditional _ ih => exact ih hwords
  | group _ _ _ ih | targetGroup _ _ _ ih =>
    exact ih (List.forall_mem_append.mp (List.forall_mem_cons.mp hwords).2).1
  | callSome _ _ ih => exact ih (List.forall_mem_append.mp hwords).1
  | bang _ hsign ih => exact .postfixed (ih (List.forall_mem_append.mp hwords).1) hsign
  | callNone _ _ _ ih => exact .call (ih (List.forall_mem_append.mp hwords).1) (by simp)
  | callFirst _ _ _ ih ihargument =>
    obtain ⟨hbefore, hafter⟩ := List.forall_mem_append.mp hwords
    have hargument := ihargument (List.forall_mem_cons.mp hafter).2
    exact .call (ih hbefore) (by simpa using hargument)
  | callNext _ _ _ ih ihargument =>
    obtain ⟨hbefore, hafter⟩ := List.forall_mem_append.mp hwords
    have hargument := ihargument (List.forall_mem_cons.mp hafter).2
    cases ih hbefore with
    | call hcallee harguments =>
      exact .call hcallee (List.forall_mem_append.mpr ⟨harguments, by simpa using hargument⟩)
  | sign hsign _ ih => exact .prefixed hsign (ih (List.forall_mem_cons.mp hwords).2)
  | caret _ hsign _ ihleft ihright =>
    obtain ⟨hbefore, hafter⟩ := List.forall_mem_append.mp hwords
    exact .binary (ihleft hbefore) (by simp [hsign]) (ihright (List.forall_mem_cons.mp hafter).2)
  | times _ hsign _ ihleft ihright =>
    obtain ⟨hbefore, hafter⟩ := List.forall_mem_append.mp hwords
    have hoperator := List.mem_cons_of_mem Kind.plus (List.mem_cons_of_mem Kind.dash
      (List.mem_append_left [Kind.caret] hsign))
    exact .binary (ihleft hbefore) hoperator (ihright (List.forall_mem_cons.mp hafter).2)
  | plus _ hsign _ ihleft ihright =>
    obtain ⟨hbefore, hafter⟩ := List.forall_mem_append.mp hwords
    have hoperator := List.mem_append_left [Kind.star, .slash, .caret] hsign
    exact .binary (ihleft hbefore) hoperator (ihright (List.forall_mem_cons.mp hafter).2)
  | choice _ _ _ _ _ ihtest ihyes ihno =>
    obtain ⟨hbefore, hafter⟩ := List.forall_mem_append.mp hwords
    obtain ⟨hmiddle, hlast⟩ := List.forall_mem_append.mp (List.forall_mem_cons.mp hafter).2
    exact .conditional (ihtest hbefore) (ihyes hmiddle) (ihno (List.forall_mem_cons.mp hlast).2)
  | assign _ _ _ ihtarget ihvalue =>
    obtain ⟨hbefore, hafter⟩ := List.forall_mem_append.mp hwords
    have hvalue := ihvalue (List.forall_mem_cons.mp hafter).2
    cases ihtarget hbefore with
    | name htext => exact .assign htext hvalue

/-- An operator of the standard grammar and two postfix phrases make an expression. -/
theorem Derives.binary_of_mem {operator : Kind}
    (h : operator ∈ [Kind.plus, .dash, .star, .slash, .caret]) {tokens others : List Token}
    {sign : Token} {left right : Expr} {depth more : Nat}
    (hleft : Derives (.ofTier 6) tokens left depth) (hsign : sign.kind = operator)
    (hright : Derives (.ofTier 6) others right more) :
    Derives .expression (tokens ++ sign :: others) (.binary left operator right)
      (max depth (more + 1)) := by
  subst hsign
  have hsplit : sign.kind ∈ [Kind.plus, .dash] ∨ sign.kind ∈ [Kind.star, .slash] ∨
      sign.kind = .caret := by
    simpa [or_assoc] using h
  rcases hsplit with hsign | hsign | hsign
  · have hsum : Derives (.ofTier 2) (tokens ++ sign :: others) (.binary left sign.kind right)
        (max depth (more + 1)) :=
      .plus (hleft.lower 2 (by decide)) hsign (hright.lower 3 (by decide))
    exact hsum.lower 0 (by decide)
  · have hproduct : Derives (.ofTier 3) (tokens ++ sign :: others) (.binary left sign.kind right)
        (max depth (more + 1)) :=
      .times (hleft.lower 3 (by decide)) hsign (hright.lower 4 (by decide))
    exact hproduct.lower 0 (by decide)
  · have hpower : Derives (.ofTier 4) (tokens ++ sign :: others) (.binary left sign.kind right)
        (max depth (more + 1)) :=
      .caret (hleft.lower 5 (by decide)) hsign (hright.lower 4 (by decide))
    exact hpower.lower 0 (by decide)

/-- Parentheses around the text of an expression make it a postfix phrase. -/
theorem ScansAs.group {text : List Char} {expr : Expr} {depth : Nat}
    (h : ScansAs text (Derives .expression · expr depth)) :
    ScansAs ('(' :: (text ++ [')'])) (Derives (.ofTier 6) · expr (depth + 1)) := by
  have hclosed : ScansAs (text ++ [')']) fun read => ∃ tokens closing,
      read = tokens ++ [closing] ∧ Derives .expression tokens expr depth ∧
        closing.kind = .closeParen :=
    h.followed rfl fun hderives hclosing => ⟨_, _, rfl, hderives, hclosing⟩
  apply hclosed.sign (show Kind.openParen.punctuator? = _ from rfl)
  rintro opening _ hopening ⟨tokens, closing, rfl, hderives, hclosing⟩
  exact .postOfPrimary (.group hopening hderives hclosing)

namespace Expr

/-- What is scanned from the printed text of a tree is a postfix phrase with that tree,
nested as deep as `nesting` says. -/
def Scanned (expr : Expr) : Prop :=
  ∃ depth, expr.nesting = depth + 1 ∧
    ScansAs expr.print.toList (Derives (.ofTier 6) · expr depth)

/-- A tree that is printed in parentheses is scanned as its inside is. -/
theorem Scanned.of_group {expr : Expr} {inside : List Char} {depth : Nat}
    (h : ScansAs inside (Derives .expression · expr depth))
    (htext : expr.print.toList = '(' :: (inside ++ [')']))
    (hnesting : expr.nesting = depth + 2) : expr.Scanned := by
  refine ⟨depth + 1, hnesting, ?_⟩
  rw [htext]
  exact h.group

/-- The text of a name is scanned as an identifier. -/
theorem scanned_name {text : String} (htext : IsWord text) : (name text).Scanned := by
  refine ⟨0, rfl, ?_⟩
  rw [print_name]
  apply ScansAs.word htext
  rintro token hkind rfl
  exact .postOfPrimary (.identifier hkind)

/-- The text of an assignment is scanned as a target and a value. -/
theorem Scanned.assign {target : String} {value : Expr} (htarget : IsWord target)
    (hvalue : value.Scanned) : (assign target value).Scanned := by
  obtain ⟨depth, hnesting, hscans⟩ := hvalue
  have hname : ScansAs target.toList (Derives .target · (.name target) 0) := by
    apply ScansAs.word htarget
    rintro token hkind rfl
    exact .targetIdentifier hkind
  have hinside : ScansAs (target.toList ++ ' ' :: '=' :: ' ' :: value.print.toList)
      (Derives .expression · (.assign target value) (max 0 (depth + 1))) :=
    hname.spaced hscans (show Kind.assignment.punctuator? = _ from rfl)
      fun hleft hsign hright => .assign hleft hsign (hright.lower 0 (by decide))
  apply Scanned.of_group hinside
  · simp [String.toList_append]
  · rw [nesting]
    omega

/-- The text of a choice is scanned as a condition and two arms. -/
theorem Scanned.conditional {test yes no : Expr} (htest : test.Scanned) (hyes : yes.Scanned)
    (hno : no.Scanned) : (conditional test yes no).Scanned := by
  obtain ⟨depth, hdepth, htest⟩ := htest
  obtain ⟨inner, hinner, hyes⟩ := hyes
  obtain ⟨last, hlast, hno⟩ := hno
  have harms : ScansAs (yes.print.toList ++ ' ' :: ':' :: ' ' :: no.print.toList) fun read =>
      ∃ middle colon others, read = middle ++ colon :: others ∧
        Derives .expression middle yes inner ∧ colon.kind = .colon ∧
        Derives .conditional others no last :=
    hyes.spaced hno (show Kind.colon.punctuator? = _ from rfl) fun hmiddle hcolon hothers =>
      ⟨_, _, _, rfl, hmiddle.lower 0 (by decide), hcolon, hothers.lower 1 (by decide)⟩
  have hinside : ScansAs (test.print.toList ++ ' ' :: '?' :: ' ' ::
        (yes.print.toList ++ ' ' :: ':' :: ' ' :: no.print.toList))
      (Derives .expression · (.conditional test yes no)
        (max depth (max (inner + 1) (last + 1)))) := by
    apply htest.spaced harms (show Kind.question.punctuator? = _ from rfl)
    rintro question tokens _ hbefore hquestion
      ⟨middle, colon, others, rfl, hmiddle, hcolon, hothers⟩
    exact .expressionOfConditional
      (.choice (hbefore.lower 2 (by decide)) hquestion hmiddle hcolon hothers)
  apply Scanned.of_group hinside
  · simp [String.toList_append]
  · rw [nesting]
    omega

/-- The text of an operator between operands is scanned as such. -/
theorem Scanned.binary {left right : Expr} {operator : Kind} (hleft : left.Scanned)
    (hoperator : operator ∈ [Kind.plus, .dash, .star, .slash, .caret]) (hright : right.Scanned) :
    (binary left operator right).Scanned := by
  obtain ⟨depth, hdepth, hleft⟩ := hleft
  obtain ⟨more, hmore, hright⟩ := hright
  obtain ⟨c, hc⟩ := Option.isSome_iff_exists.mp (show operator.punctuator?.isSome by
    revert operator
    decide)
  have hinside : ScansAs (left.print.toList ++ ' ' :: c :: ' ' :: right.print.toList)
      (Derives .expression · (.binary left operator right) (max depth (more + 1))) :=
    hleft.spaced hright hc (Derives.binary_of_mem hoperator)
  apply Scanned.of_group hinside
  · simp [String.toList_append, Kind.display, hc]
  · rw [nesting]
    omega

/-- The text of an operator before its operand is scanned as such. -/
theorem Scanned.prefixed {operand : Expr} {operator : Kind}
    (hoperator : operator ∈ [Kind.plus, .dash, .tilde, .bang]) (hoperand : operand.Scanned) :
    (prefixed operator operand).Scanned := by
  obtain ⟨depth, hdepth, hoperand⟩ := hoperand
  obtain ⟨c, hc⟩ := Option.isSome_iff_exists.mp (show operator.punctuator?.isSome by
    revert operator
    decide)
  have hinside : ScansAs (c :: operand.print.toList)
      (Derives .expression · (.prefixed operator operand) (depth + 1)) := by
    apply hoperand.sign hc
    rintro sign tokens rfl hderives
    have hpre : Derives (.ofTier 5) (sign :: tokens) (.prefixed sign.kind operand) (depth + 1) :=
      .sign hoperator (hderives.lower 5 (by decide))
    exact hpre.lower 0 (by decide)
  apply Scanned.of_group hinside
  · simp [String.toList_append, Kind.display, hc]
  · rw [nesting]
    omega

/-- The text of an operator after its operand is scanned as such. -/
theorem Scanned.postfixed {operand : Expr} (hoperand : operand.Scanned) :
    (postfixed operand .bang).Scanned := by
  obtain ⟨depth, hdepth, hoperand⟩ := hoperand
  have hinside : ScansAs (operand.print.toList ++ ['!'])
      (Derives .expression · (.postfixed operand .bang) depth) := by
    apply hoperand.followed (show Kind.bang.punctuator? = _ from rfl)
    intro sign tokens hderives hsign
    have hpost : Derives (.ofTier 6) (tokens ++ [sign]) (.postfixed operand sign.kind) depth :=
      .bang hderives hsign
    rw [hsign] at hpost
    exact hpost.lower 0 (by decide)
  apply Scanned.of_group hinside
  · simp [String.toList_append, Kind.display, Kind.punctuator?]
  · rw [nesting]
    omega

/-- Further arguments, each after a comma, leave a call open. -/
theorem scansAs_opened {arguments : List Expr} (h : ∀ argument ∈ arguments, argument.Scanned)
    {text : List Char} {callee : Expr} {exprs : List Expr} {depth : Nat}
    (hopened : ScansAs text (Derives .opened · (.call callee exprs) depth)) :
    ∃ more, more + 1 = max (depth + 1) (nestingEach arguments) ∧
      ScansAs (text ++ (appendEach ", " "" arguments).toList)
        (Derives .opened · (.call callee (exprs ++ arguments)) more) := by
  induction arguments generalizing text exprs depth with
  | nil =>
    refine ⟨depth, by rw [nestingEach]; omega, ?_⟩
    simpa [appendEach] using hopened
  | cons argument arguments ih =>
    obtain ⟨hargument, hothers⟩ := List.forall_mem_cons.mp h
    obtain ⟨inner, hinner, hscans⟩ := hargument
    have hcomma : ScansAs (',' :: ' ' :: argument.print.toList) fun read =>
        ∃ comma tokens, read = comma :: tokens ∧ comma.kind = .comma ∧
          Derives .expression tokens argument inner :=
      hscans.space.sign (show Kind.comma.punctuator? = _ from rfl) fun hkind hderives =>
        ⟨_, _, rfl, hkind, hderives.lower 0 (by decide)⟩
    have hnext : ScansAs (text ++ ',' :: ' ' :: argument.print.toList)
        (Derives .opened · (.call callee (exprs ++ [argument])) (max depth (inner + 1))) := by
      apply hopened.append hcomma rfl
      rintro read _ hcall ⟨comma, tokens, rfl, hkind, hderives⟩
      exact .callNext hcall hkind hderives
    obtain ⟨more, hmore, hlast⟩ := ih hothers hnext
    refine ⟨more, by rw [nestingEach]; omega, ?_⟩
    simpa [String.toList_append] using hlast

/-- The text of a call is scanned as what is called and its arguments. -/
theorem Scanned.call {callee : Expr} {arguments : List Expr} (hcallee : callee.Scanned)
    (harguments : ∀ argument ∈ arguments, argument.Scanned) :
    (call callee arguments).Scanned := by
  obtain ⟨depth, hdepth, hcallee⟩ := hcallee
  cases arguments with
  | nil =>
    have hparens : ScansAs ['(', ')'] fun read => ∃ opening closing : Token,
        read = [opening, closing] ∧ opening.kind = .openParen ∧ closing.kind = .closeParen := by
      have hclose : Kind.closeParen.punctuator? = some ')' := rfl
      apply (ScansAs.mark hclose).sign (show Kind.openParen.punctuator? = _ from rfl)
      rintro opening _ hopening ⟨closing, rfl, hclosing⟩
      exact ⟨opening, closing, rfl, hopening, hclosing⟩
    have hcall : ScansAs (callee.print.toList ++ ['(', ')'])
        (Derives (.ofTier 6) · (.call callee []) depth) := by
      apply hcallee.append hparens rfl
      rintro tokens _ hderives ⟨opening, closing, rfl, hopening, hclosing⟩
      exact .callNone hderives hopening hclosing
    refine ⟨depth, by rw [nesting, nestingEach]; omega, ?_⟩
    simpa [String.toList_append, appendEach] using hcall
  | cons argument arguments =>
    obtain ⟨hargument, hothers⟩ := List.forall_mem_cons.mp harguments
    obtain ⟨inner, hinner, hscans⟩ := hargument
    have hfirst : ScansAs ('(' :: argument.print.toList) fun read =>
        ∃ opening tokens, read = opening :: tokens ∧ opening.kind = .openParen ∧
          Derives .expression tokens argument inner :=
      hscans.sign (show Kind.openParen.punctuator? = _ from rfl) fun hkind hderives =>
        ⟨_, _, rfl, hkind, hderives.lower 0 (by decide)⟩
    have hopened : ScansAs (callee.print.toList ++ '(' :: argument.print.toList)
        (Derives .opened · (.call callee [argument]) (max depth (inner + 1))) := by
      apply hcallee.append hfirst rfl
      rintro tokens _ hderives ⟨opening, others, rfl, hopening, hargument⟩
      exact .callFirst hderives hopening hargument
    obtain ⟨more, hmore, hall⟩ := scansAs_opened hothers hopened
    have hcall : ScansAs (callee.print.toList ++ '(' :: argument.print.toList ++
          (appendEach ", " "" arguments).toList ++ [')'])
        (Derives (.ofTier 6) · (.call callee (argument :: arguments)) more) :=
      hall.followed (show Kind.closeParen.punctuator? = _ from rfl) fun hderives hclosing =>
        .callSome hderives hclosing
    refine ⟨more, by rw [nesting, nestingEach]; omega, ?_⟩
    simpa [String.toList_append] using hcall

/-- The text of every well-formed tree is scanned as that tree. -/
theorem WellFormed.scanned {expr : Expr} (h : expr.WellFormed) : expr.Scanned := by
  induction h with
  | name htext => exact scanned_name htext
  | assign htarget _ ih => exact .assign htarget ih
  | conditional _ _ _ ihtest ihyes ihno => exact .conditional ihtest ihyes ihno
  | binary _ hoperator _ ihleft ihright => exact .binary ihleft hoperator ihright
  | prefixed hoperator _ ih => exact .prefixed hoperator ih
  | postfixed _ hoperator ih =>
    subst hoperator
    exact .postfixed ih
  | call _ _ ih iharguments => exact .call ih iharguments

/-- The printed text of a well-formed tree is read as that tree. -/
theorem WellFormed.reads_print {expr : Expr} (h : expr.WellFormed) (file : String) :
    ∃ read following rest,
      (Supply.text (.ofText expr.print file)).stream = read ++ₛ Stream'.cons following rest ∧
      following.kind = .endOfInput ∧
      Reads .standard (.expression Power.lowest.level) read following (.ok expr) expr.nesting := by
  obtain ⟨depth, hnesting, hscans⟩ := h.scanned
  obtain ⟨read, after, hderives, hafter, hstream⟩ :=
    hscans (.ofText expr.print file) [] (by simp [Scanner.ofText]) (by simp)
  obtain ⟨following, rest, hkind, hlast⟩ := Scanner.stream_nil hafter
  refine ⟨read, following, rest, by rw [hstream, hlast], hkind, ?_⟩
  rw [hnesting]
  exact (reads_iff_derives (by rw [hkind]; rfl)).mpr (hderives.lower 0 (by decide))

end Expr

/-- Parsing a text gives well-formed trees only. -/
theorem wellFormed_of_parseText {text file : String} {expr : Expr}
    (h : parseText text file = .ok expr) : expr.WellFormed := by
  obtain ⟨read, following, rest, height, hstream, hreads, -, -⟩ := reads_of_parse_ok h
  obtain ⟨-, depth, -, hderives⟩ := hreads.derived rfl (by decide)
  refine hderives.wellFormed fun token htoken => ?_
  apply Scanner.isWord_of_mem_stream (.ofText text file) token
  rw [hstream]
  exact Stream'.mem_append_stream_left _ htoken

/-- Parsing a text gives well-formed trees only. A well-formed tree is parsed back from its
printed text if that text is nested at most 256 deep, and the text is nested too deep
otherwise. -/
theorem parseText_print_iff_nesting (file : String) :
    (∀ text expr, parseText text file = .ok expr → expr.WellFormed) ∧
    ∀ expr : Expr, expr.WellFormed →
      (expr.nesting ≤ 256 → parseText expr.print file = .ok expr) ∧
      (256 < expr.nesting → ∃ position,
        parseText expr.print file = .error ⟨.nestingTooDeep 256, position⟩) := by
  refine ⟨fun text expr hparse => wellFormed_of_parseText hparse, fun expr hexpr => ?_⟩
  obtain ⟨read, following, rest, hstream, hend, hreads⟩ := hexpr.reads_print file
  constructor
  · intro hnesting
    exact parse_of_reads_ok hreads hstream hnesting hend
  · intro hnesting
    exact parse_of_reads_deep hreads hstream hnesting

/-- A name under 127 minus signs is parsed back, and under one more it is not. -/
theorem parseText_print_negations :
    parseText ((Expr.prefixed .dash)^[127] (.name "a")).print =
        .ok ((Expr.prefixed .dash)^[127] (.name "a")) ∧
      ∃ position, parseText ((Expr.prefixed .dash)^[128] (.name "a")).print =
        .error ⟨.nestingTooDeep 256, position⟩ := by
  have hformed : ∀ count, ((Expr.prefixed .dash)^[count] (.name "a")).WellFormed := by
    intro count
    induction count with
    | zero => exact .name (by simp [IsWord])
    | succ count ih =>
      rw [Function.iterate_succ_apply']
      exact .prefixed (by decide) ih
  have hnesting : ∀ count, ((Expr.prefixed .dash)^[count] (.name "a")).nesting = 2 * count + 1 := by
    intro count
    induction count with
    | zero => rfl
    | succ count ih =>
      rw [Function.iterate_succ_apply', Expr.nesting, ih]
      omega
  constructor
  · exact ((parseText_print_iff_nesting shell).2 _ (hformed 127)).1 (by rw [hnesting]; decide)
  · exact ((parseText_print_iff_nesting shell).2 _ (hformed 128)).2 (by rw [hnesting]; decide)

end Precedence
