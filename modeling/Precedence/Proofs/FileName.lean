import Precedence.Proofs.LexedAhead
import Precedence.Proofs.Recast

/-!
# The name of a text

The name under which a text is read is in the places of its tokens and nowhere else. Under another
name the text has the same tokens, the same expression or the same fault, in the other file. The
main statements are `tokenize_inFile` and `parseText_inFile`.
-/

namespace Precedence

/-- A position in another file. -/
def Position.inFile (file : String) (position : Position) : Position := { position with file }

/-- A token in another file. -/
def Token.inFile (file : String) (token : Token) : Token :=
  { token with span := ⟨token.span.start.inFile file, token.span.stop.inFile file⟩ }

/-- A fault in another file. -/
def Fault.inFile (file : String) (fault : Fault) : Fault :=
  { fault with position := fault.position.inFile file }

/-- To move all positions to another file is to put each token into it. -/
theorem Recast.token_inFile (file : String) (token : Token) :
    (Recast.mk id (Position.inFile file)).token token = token.inFile file := by
  simp [Recast.token, Token.inFile]

/-- A token is listed without its place. -/
@[simp] theorem Token.listing_inFile (file : String) (token : Token) :
    (token.inFile file).listing = token.listing := rfl

namespace Scanner

/-- In another file the next token is the same one there. -/
theorem scan_inFile (file other : String) (offset : Nat) (text : List Char) :
    scan other offset text =
      ((scan file offset text).1.inFile other,
        { (scan file offset text).2 with file := other }) := by
  fun_induction scan file offset text with
  | case1 => rfl
  | case2 offset c rest hc word stop =>
    rw [scan, if_pos hc]
    rfl
  | case3 offset c rest hc stop kind hkind =>
    rw [scan, if_neg hc]
    simp only [hkind]
    rfl
  | case4 offset c rest hc stop hkind ih =>
    rw [scan, if_neg hc]
    simp only [hkind]
    exact ih

/-- In another file a scanner gives the same token there. -/
theorem next_inFile (scanner : Scanner) (other : String) :
    { scanner with file := other }.next =
      (scanner.next.1.inFile other, { scanner.next.2 with file := other }) :=
  scan_inFile scanner.file other scanner.offset scanner.rest

/-- In another file the tokens are the same ones there. -/
theorem tokens_inFile (scanner : Scanner) (other : String) :
    { scanner with file := other }.tokens = scanner.tokens.map (Token.inFile other) := by
  fun_induction tokens scanner with
  | case1 scanner hend =>
    rw [tokens, next_inFile, if_pos (show (scanner.next.1.inFile other).kind = _ from hend)]
    rfl
  | case2 scanner hend ih =>
    rw [tokens, next_inFile, if_neg (show (scanner.next.1.inFile other).kind ≠ _ from hend), ih]
    rfl

end Scanner

/-- Under another name a text has the same tokens in the other file. -/
theorem tokenize_inFile (text file other : String) :
    tokenize text other = (tokenize text file).map (Token.inFile other) :=
  (Scanner.ofText text file).tokens_inFile other

/-- Under another name a text has the same expression, or the same fault in the other file. -/
theorem parseText_inFile (text file other : String) :
    parseText text other = (parseText text file).mapError (Fault.inFile other) := by
  have hparse : ∀ place, parseText text place = parseTokens (tokenize text place) := fun place =>
    parse_eq_of_stream (Supply.stream_tokenize text place).symm
  let recast : Recast := ⟨id, Position.inFile other⟩
  have htokens : tokenize text other = (tokenize text file).map recast.token := by
    rw [funext (Recast.token_inFile other)]
    exact tokenize_inFile text file other
  obtain ⟨read, mark, -, hlist, -⟩ := (Scanner.ofText text file).stream_tokens
  have hne : tokenize text file ≠ [] := by
    rw [tokenize, hlist]
    exact List.append_ne_nil_of_right_ne_nil read (List.cons_ne_nil mark [])
  have hrecast : parseTokens ((tokenize text file).map recast.token) =
      ((parseTokens (tokenize text file)).map recast.expr).mapError recast.fault := by
    refine parse_recast (fun n => ?_) (List.length_map _)
    rw [recast.stream_map_token hne]
    exact recast.tokens_token _
  rw [hparse, hparse, htokens, hrecast]
  cases parseTokens (tokenize text file) with
  | ok expr => exact congrArg Except.ok (Recast.expr_id _ expr)
  | error fault => rfl

end Precedence
