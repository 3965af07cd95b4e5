import Precedence.Proofs.FaultInText
import Precedence.Proofs.FileName
import Precedence.Proofs.PrintedTree

/-!
# What a tree keeps of a text

Parsing drops places and parentheses and nothing else. `Expr.spelling` lists the names and the
signs of a tree from left to right, and these are the tokens of every text with that tree if
parentheses are left out. The printed text of the tree is one of these texts, so it has the
same tokens as the text that was parsed, up to parentheses. The main statement is
`bare_tokenize_print`.
-/

namespace Precedence

/-- Whether a kind is that of a parenthesis. -/
def Kind.isParen (kind : Kind) : Bool := kind = .openParen || kind = .closeParen

/-- Whether a kind is that of a punctuator other than a parenthesis. -/
def Kind.isSign (kind : Kind) : Bool := kind.punctuator?.isSome && !kind.isParen

/-- The kind and the text of a token. -/
def Token.said (token : Token) : Kind × String := (token.kind, token.value)

/-- The kinds and the texts of tokens, in their order and without parentheses. -/
def bare (tokens : List Token) : List (Kind × String) :=
  (tokens.map Token.said).filter fun said => !said.1.isParen

/-- A sign as it is written. -/
def Kind.written (kind : Kind) : Kind × String := (kind, kind.display)

/-- One of several kinds that are all signs is a sign. -/
theorem Kind.isSign_of_mem {kind : Kind} {kinds : List Kind} (h : kind ∈ kinds)
    (hall : kinds.all Kind.isSign = true) : kind.isSign = true :=
  List.all_eq_true.mp hall kind h

namespace Expr

mutual

/-- The names and the signs of a tree from left to right. -/
def spelling : Expr → List (Kind × String)
  | name text => [(.identifier, text)]
  | assign target value => (.identifier, target) :: Kind.assignment.written :: value.spelling
  | conditional test yes no =>
    test.spelling ++ Kind.question.written :: (yes.spelling ++ Kind.colon.written :: no.spelling)
  | binary left operator right => left.spelling ++ operator.written :: right.spelling
  | prefixed operator operand => operator.written :: operand.spelling
  | postfixed operand operator => operand.spelling ++ [operator.written]
  | call callee arguments => callee.spelling ++ spellingEach [] arguments

/-- The names and the signs of several trees: `separator` before the first and a comma before
each of the others. -/
def spellingEach (separator : List (Kind × String)) : List Expr → List (Kind × String)
  | [] => []
  | expr :: rest => separator ++ expr.spelling ++ spellingEach [Kind.comma.written] rest

end

/-- One more tree after others follows a comma. -/
theorem spellingEach_snoc {exprs : List Expr} (hne : exprs ≠ []) (expr : Expr)
    (separator : List (Kind × String)) :
    spellingEach separator (exprs ++ [expr]) =
      spellingEach separator exprs ++ Kind.comma.written :: expr.spelling := by
  induction exprs generalizing separator with
  | nil => exact absurd rfl hne
  | cons first rest ih =>
    cases rest with
    | nil => simp [spellingEach]
    | cons second rest =>
      have hrest := ih (List.cons_ne_nil second rest) [Kind.comma.written]
      rw [List.cons_append, spellingEach, hrest, ← List.append_assoc]
      rfl

end Expr

/-- A token that is the punctuator of its kind, if its kind has one. -/
def Token.IsWritten (token : Token) : Prop :=
  ∀ c, token.kind.punctuator? = some c → token.value = String.singleton c

section Bare

variable {token : Token} {tokens others : List Token}

@[simp] theorem bare_nil : bare [] = [] := rfl

@[simp] theorem bare_append : bare (tokens ++ others) = bare tokens ++ bare others := by
  simp [bare]

/-- A parenthesis leaves nothing. -/
theorem bare_paren (h : token.kind = .openParen ∨ token.kind = .closeParen) :
    bare (token :: tokens) = bare tokens := by
  have hparen : token.kind.isParen = true := by
    rcases h with h | h <;> rw [h] <;> rfl
  simp [bare, Token.said, hparen]

/-- What stands in parentheses leaves what it leaves without them. -/
theorem bare_enclosed {opening closing : Token} (hopening : opening.kind = .openParen)
    (hclosing : closing.kind = .closeParen) :
    bare (opening :: (tokens ++ [closing])) = bare tokens := by
  rw [bare_paren (.inl hopening), bare_append, bare_paren (.inr hclosing),
    bare_nil, List.append_nil]

/-- An identifier leaves its text. -/
theorem bare_identifier (h : token.kind = .identifier) :
    bare (token :: tokens) = (.identifier, token.value) :: bare tokens := by
  simp [bare, Token.said, h, Kind.isParen]

/-- A sign leaves itself. -/
theorem bare_sign (hwritten : token.IsWritten) (hsign : token.kind.isSign = true) :
    bare (token :: tokens) = token.kind.written :: bare tokens := by
  obtain ⟨hsome, hparen⟩ := (Bool.and_eq_true _ _).mp hsign
  obtain ⟨c, hc⟩ := Option.isSome_iff_exists.mp hsome
  simp [bare, Token.said, hparen, Kind.written, Kind.display, hwritten c hc, hc]

/-- A sign is left between what is left on its two sides. -/
theorem bare_between {kind : Kind} {left right : List (Kind × String)} (hkind : token.kind = kind)
    (hsign : kind.isSign = true)
    (hwritten : ∀ other ∈ tokens ++ token :: others, other.IsWritten)
    (hleft : (∀ other ∈ tokens, other.IsWritten) → bare tokens = left)
    (hright : (∀ other ∈ others, other.IsWritten) → bare others = right) :
    bare (tokens ++ token :: others) = left ++ kind.written :: right := by
  simp only [List.forall_mem_append, List.forall_mem_cons] at hwritten
  obtain ⟨hbefore, htoken, hafter⟩ := hwritten
  subst hkind
  rw [bare_append, bare_sign htoken hsign, hleft hbefore, hright hafter]

end Bare

namespace Derives

/-- A call that is opened has an argument. -/
theorem arguments_ne_nil {tokens : List Token} {callee : Expr} {exprs : List Expr} {depth : Nat}
    (h : Derives .opened tokens (.call callee exprs) depth) : exprs ≠ [] := by
  cases h <;> simp

/-- A phrase has the names and the signs of its tree, and parentheses besides. -/
theorem bare_eq {phrase : Phrase} {tokens : List Token} {expr : Expr} {depth : Nat}
    (h : Derives phrase tokens expr depth) (hwritten : ∀ token ∈ tokens, token.IsWritten) :
    bare tokens = expr.spelling := by
  induction h with
  | identifier htoken | targetIdentifier htoken => exact bare_identifier htoken
  | group hopening _ hclosing ih | targetGroup hopening _ hclosing ih =>
    simp only [List.forall_mem_cons, List.forall_mem_append] at hwritten
    rw [bare_enclosed hopening hclosing, ih hwritten.2.1]
  | postOfPrimary _ ih | preOfPost _ ih | exponentOfPre _ ih | productOfExponent _ ih
  | sumOfProduct _ ih | conditionalOfSum _ ih | expressionOfConditional _ ih => exact ih hwritten
  | bang _ hsign ih =>
    exact bare_between rfl (by rw [hsign]; rfl) hwritten ih fun _ => bare_nil
  | callNone _ hopening hclosing ih =>
    simp only [List.forall_mem_append] at hwritten
    rw [bare_append, bare_paren (.inl hopening), bare_paren (.inr hclosing), ih hwritten.1]
    rfl
  | callFirst _ hopening _ ih iharg =>
    simp only [List.forall_mem_cons, List.forall_mem_append] at hwritten
    rw [bare_append, bare_paren (.inl hopening), ih hwritten.1, iharg hwritten.2.2]
    simp [Expr.spelling, Expr.spellingEach]
  | callNext hcall hcomma _ ih iharg =>
    rw [bare_between hcomma rfl hwritten ih iharg, Expr.spelling, Expr.spelling,
      Expr.spellingEach_snoc hcall.arguments_ne_nil, List.append_assoc]
  | callSome _ hclosing ih =>
    simp only [List.forall_mem_append] at hwritten
    rw [bare_append, bare_paren (.inr hclosing), bare_nil, List.append_nil, ih hwritten.1]
  | sign hsign _ ih =>
    exact bare_between rfl (Kind.isSign_of_mem hsign (by decide)) hwritten (fun _ => bare_nil) ih
  | caret _ hsign _ ihleft ihright =>
    exact bare_between rfl (by rw [hsign]; rfl) hwritten ihleft ihright
  | times _ hsign _ ihleft ihright | plus _ hsign _ ihleft ihright =>
    exact bare_between rfl (Kind.isSign_of_mem hsign (by decide)) hwritten ihleft ihright
  | choice _ hquestion _ hcolon _ ihtest ihyes ihno =>
    refine bare_between hquestion rfl hwritten ihtest fun harms => ?_
    exact bare_between hcolon rfl harms ihyes ihno
  | assign _ hsign _ ihtarget ihvalue => exact bare_between hsign rfl hwritten ihtarget ihvalue

end Derives

/-- Every punctuator of a text is written as such. -/
theorem isWritten_of_mem_tokenize {text file : String} {token : Token}
    (h : token ∈ tokenize text file) : token.IsWritten := by
  obtain ⟨before, after, -, hstands⟩ := exists_standsAt h
  intro c hc
  rw [← String.toList_inj, hstands.sign c hc, String.toList_singleton]

/-- Only the last token of a text is an end mark, so a text that is read up to an end mark is
read as a whole. -/
theorem tokenize_of_stream {text file : String} {read : List Token} {following : Token}
    {rest : Stream' Token}
    (hstream : (Supply.text (.ofText text file)).stream = read ++ₛ Stream'.cons following rest)
    (hread : ∀ token ∈ read, token.kind ≠ .endOfInput) (hend : following.kind = .endOfInput) :
    tokenize text file = read ++ [following] ∧ following.IsLast := by
  obtain ⟨lexemes, -, hmem, htokens⟩ := exists_lexemes text file
  obtain ⟨others, mark, hmark, hothers, hconst⟩ := (Scanner.ofText text file).stream_tokens
  rw [tokenize, hothers] at htokens
  obtain ⟨hlexemes, -⟩ := List.append_inj' htokens rfl
  have hkinds : ∀ token ∈ others, token.kind ≠ .endOfInput := by
    intro token htoken
    rw [hlexemes] at htoken
    obtain ⟨lexeme, hlexeme, rfl⟩ := List.mem_map.mp htoken
    exact ((hmem lexeme).mp hlexeme).kind_ne_endOfInput
  rw [hstream, Stream'.const_eq] at hconst
  obtain ⟨rfl, rfl⟩ := eq_of_stream_append hconst hread hkinds hend hmark.kind
  exact ⟨hothers, hmark⟩

/-- A text that is read as a tree has the names and the signs of the tree, parentheses besides,
and one end mark. -/
theorem bare_of_reads {text file : String} {read : List Token} {following : Token}
    {rest : Stream' Token} {expr : Expr} {height : Nat}
    (hstream : (Supply.text (.ofText text file)).stream = read ++ₛ Stream'.cons following rest)
    (hreads : Reads .standard (.expression Power.lowest.level) read following (.ok expr) height)
    (hend : following.kind = .endOfInput) :
    bare (tokenize text file) = expr.spelling ++ [(.endOfInput, "")] := by
  obtain ⟨htokens, stop, rfl⟩ :=
    tokenize_of_stream hstream (hreads.kind_ne_endOfInput rfl rfl) hend
  obtain ⟨-, depth, -, hderives⟩ := hreads.derived rfl (by decide)
  have hread : bare read = expr.spelling := by
    apply hderives.bare_eq
    intro token htoken
    have hmem : token ∈ tokenize text file := by
      rw [htokens]
      exact List.mem_append_left _ htoken
    exact isWritten_of_mem_tokenize hmem
  rw [htokens, bare_append, hread]
  rfl

/-- The tokens of a text are the same up to places in every file. -/
theorem bare_tokenize_file (text file other : String) :
    bare (tokenize text file) = bare (tokenize text other) := by
  rw [tokenize_inFile text other file, bare, bare, List.map_map]
  rfl

/-- A text and the printed text of its tree have the same tokens up to parentheses and places,
in whatever files they are: no name and no sign is lost, added, repeated or moved. -/
theorem bare_tokenize_print {text file : String} {expr : Expr}
    (hparse : parseText text file = .ok expr) (place other : String) :
    bare (tokenize text place) = bare (tokenize expr.print other) := by
  obtain ⟨read, following, rest, height, hstream, hreads, -, hend⟩ := reads_of_parse_ok hparse
  obtain ⟨others, next, more, hstream', hend', hreads'⟩ :=
    (wellFormed_of_parseText hparse).reads_print other
  rw [bare_tokenize_file text place file, bare_of_reads hstream hreads hend,
    bare_of_reads hstream' hreads' hend']

/-- Groups around a target, a test and an argument are lost, and those of a choice and of its
arms are new. A call without arguments stays one. -/
theorem bare_tokenize_print_call :
    let text := "(a) = f()((b) ? -c : d!, (e))"
    let expr : Expr := .assign "a" (.call (.call (.name "f") [])
      [.conditional (.name "b") (.prefixed .dash (.name "c")) (.postfixed (.name "d") .bang),
        .name "e"])
    parseText text = .ok expr ∧ expr.print = "(a = f()((b ? (-c) : (d!)), e))" ∧
      bare (tokenize text) = bare (tokenize expr.print) := by
  intro text expr
  have hparse : parseText text = .ok expr := by decide +kernel
  exact ⟨hparse, by decide +kernel, bare_tokenize_print hparse shell shell⟩

end Precedence
