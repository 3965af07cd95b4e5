import Precedence.Proofs.FaultInText
import Precedence.Proofs.Recast

/-!
# Ignored text

Characters that are part of no token may be put into a text anywhere but inside of a word. All
they do is to move the tokens after them, and with these the fault if it is there. Scanning is
cut in two at the place where they are put in: the tokens before it do not depend on what comes
after it, and those after it depend on what comes before it by their offset only. The main
statement is `parseText_ignored`.
-/

namespace Precedence

/-- The position some bytes later. -/
def Position.later (bytes : Nat) (position : Position) : Position :=
  { position with offset := position.offset + bytes.toUInt32 }

/-- A position moved by some bytes, unless it is before the place where these are put in. -/
def Position.moved (place bytes : Nat) (position : Position) : Position :=
  if place ≤ position.offset.toNat then position.later bytes else position

/-- A fault moved by some bytes, unless it is before the place where these are put in. -/
def Fault.moved (place bytes : Nat) (fault : Fault) : Fault :=
  { fault with position := fault.position.moved place bytes }

namespace Token

/-- A token whose whole span is some bytes later. -/
def later (bytes : Nat) (token : Token) : Token :=
  { token with span := ⟨token.span.start.later bytes, token.span.stop.later bytes⟩ }

/-- A token moved by some bytes, unless it starts before the place where these are put in. -/
def moved (place bytes : Nat) (token : Token) : Token :=
  if place ≤ token.start.offset.toNat then token.later bytes else token

/-- A token that is moved stands in for itself, at the position that is moved. -/
theorem recast_moved (grammar : Grammar) (place bytes : Nat) (token : Token) :
    (Recast.mk id (Position.moved place bytes)).Tokens grammar token
      (token.moved place bytes) := by
  unfold moved
  split
  next hle => exact ⟨rfl, (if_pos hle).symm, fun _ => rfl, fun _ => rfl⟩
  next hlt => exact ⟨rfl, (if_neg hlt).symm, fun _ => rfl, fun _ => rfl⟩

/-- The last mark is still one when it is moved. -/
theorem IsLast.moved {mark : Token} (h : mark.IsLast) (place bytes : Nat) :
    (mark.moved place bytes).IsLast := by
  obtain ⟨stop, rfl⟩ := h
  unfold Token.moved
  split
  · exact ⟨stop.later bytes, rfl⟩
  · exact ⟨stop, rfl⟩

end Token

/-- The span between two bytes that are both later. -/
theorem Span.between_add (file : String) (start stop bytes : Nat) :
    between file (start + bytes) (stop + bytes) =
      ⟨(between file start stop).start.later bytes,
        (between file start stop).stop.later bytes⟩ := by
  simp only [between, Position.later, Nat.toUInt32, UInt32.ofNat_add]

namespace Text.Apart

variable {before after last text rest : List Char} {c : Char}

/-- No word goes across from the end of a text if none does from the text. -/
theorem of_suffix (h : Apart before after) (hsuffix : last <:+ before) : Apart last after := by
  obtain ⟨first, rfl⟩ := hsuffix
  intro c hc
  refine h c ?_
  rw [List.getLast?_append, show last.getLast? = some c from hc]
  rfl

/-- A word ends where it would end without what comes after its text. -/
theorem word_append (h : Apart (c :: text) rest) (hc : c.isAlpha = true) :
    (text ++ rest).takeWhile Char.isAlpha = text.takeWhile Char.isAlpha ∧
      (text ++ rest).dropWhile Char.isAlpha = text.dropWhile Char.isAlpha ++ rest := by
  induction text generalizing c with
  | nil =>
    cases rest with
    | nil => simp
    | cons d rest =>
      have hd : d.isAlpha = false := by simpa [hc] using h c rfl d rfl
      simp [hd]
  | cons d text ih =>
    cases hd : d.isAlpha with
    | true => simpa [hd] using ih (h.of_suffix (List.suffix_cons c _)) hd
    | false => simp [hd]

/-- Ignored characters keep texts apart. -/
theorem ignored (h : Apart before after) {ignored : List Char}
    (hignored : ∀ c ∈ ignored, IsIgnored c) : Apart before (ignored ++ after) := by
  cases ignored with
  | nil => exact h
  | cons d ignored =>
    intro c _ e he
    obtain rfl : d = e := by simpa using he
    exact .inr (hignored d List.mem_cons_self).1

end Text.Apart

namespace Scanner

/-- Ignored characters are skipped. -/
theorem scan_ignored (file : String) (offset : Nat) {ignored : List Char} (rest : List Char)
    (h : ∀ c ∈ ignored, IsIgnored c) :
    scan file offset (ignored ++ rest) = scan file (offset + Text.byteLength ignored) rest := by
  induction ignored generalizing offset with
  | nil => rfl
  | cons c ignored ih =>
    obtain ⟨⟨halpha, hnone⟩, hignored⟩ := List.forall_mem_cons.mp h
    rw [List.cons_append, scan, Text.byteLength, ← Nat.add_assoc, ← ih _ hignored]
    simp [halpha, hnone]

/-- At a later offset the next token is the same at a later place. -/
theorem scan_later (file : String) (offset bytes : Nat) (text : List Char) :
    scan file (offset + bytes) text =
      ((scan file offset text).1.later bytes,
        { (scan file offset text).2 with offset := (scan file offset text).2.offset + bytes }) := by
  fun_induction scan file offset text with
  | case1 offset =>
    rw [scan, Span.between_add]
    rfl
  | case2 offset c rest hc word stop =>
    simp only [scan, hc, if_true, Nat.add_right_comm offset bytes, Span.between_add]
    rfl
  | case3 offset c rest hc stop kind hkind =>
    simp only [scan, hc, hkind, Nat.add_right_comm offset bytes, Span.between_add]
    rfl
  | case4 offset c rest hc stop hkind ih =>
    simp only [scan, hc, hkind, Nat.add_right_comm offset bytes]
    exact ih

/-- At a later offset the tokens are the same at later places. -/
theorem tokens_later (scanner : Scanner) (bytes : Nat) :
    { scanner with offset := scanner.offset + bytes }.tokens =
      scanner.tokens.map (Token.later bytes) := by
  have hnext : ∀ scanner : Scanner, { scanner with offset := scanner.offset + bytes }.next =
      (scanner.next.1.later bytes,
        { scanner.next.2 with offset := scanner.next.2.offset + bytes }) :=
    fun scanner => scan_later scanner.file scanner.offset bytes scanner.rest
  fun_induction tokens scanner with
  | case1 scanner hend =>
    rw [tokens, hnext]
    exact if_pos hend
  | case2 scanner hend ih =>
    rw [tokens, hnext, List.map_cons, ← ih]
    exact if_neg hend

/-- Scanning takes some characters of a text and leaves the others. -/
theorem exists_scan_snd (file : String) (offset : Nat) (text : List Char) :
    ∃ taken rest, text = taken ++ rest ∧
      (scan file offset text).2 = ⟨file, offset + Text.byteLength taken, rest⟩ := by
  fun_induction scan file offset text with
  | case1 offset => exact ⟨[], [], rfl, rfl⟩
  | case2 offset c rest hc word stop =>
    refine ⟨word, rest.dropWhile Char.isAlpha, ?_, rfl⟩
    rw [List.cons_append, List.takeWhile_append_dropWhile]
  | case3 offset c rest hc stop kind hkind => exact ⟨[c], rest, rfl, rfl⟩
  | case4 offset c rest hc stop hkind ih =>
    obtain ⟨taken, others, rfl, hafter⟩ := ih
    refine ⟨c :: taken, others, rfl, ?_⟩
    rw [hafter, Text.byteLength, Nat.add_assoc]

/-- A text without a token has ignored characters only. -/
theorem isIgnored_of_scan {file : String} {offset : Nat} {text : List Char}
    (h : (scan file offset text).1.kind = .endOfInput) : ∀ c ∈ text, IsIgnored c := by
  fun_induction scan file offset text with
  | case1 => exact List.forall_mem_nil _
  | case2 => cases h
  | case3 offset c rest hc stop kind hkind =>
    exact absurd h (Kind.ne_endOfInput_of_ofPunctuator? hkind)
  | case4 offset c rest hc stop hkind ih =>
    exact List.forall_mem_cons.mpr ⟨⟨Bool.eq_false_iff.mpr hc, hkind⟩, ih h⟩

/-- The next token of a text does not depend on what comes after the text, unless that goes on
with a word. -/
theorem scan_append {file : String} {offset : Nat} {text rest : List Char}
    (hapart : Text.Apart text rest) (hkind : (scan file offset text).1.kind ≠ .endOfInput) :
    scan file offset (text ++ rest) =
      ((scan file offset text).1,
        { (scan file offset text).2 with rest := (scan file offset text).2.rest ++ rest }) := by
  fun_induction scan file offset text with
  | case1 => exact absurd rfl hkind
  | case2 offset c text hc word stop =>
    obtain ⟨htake, hdrop⟩ := hapart.word_append hc
    simp only [List.cons_append, scan, hc, if_true, htake, hdrop]
    rfl
  | case3 offset c text hc stop kind hsome =>
    simp only [List.cons_append, scan, hc, hsome]
    rfl
  | case4 offset c text hc stop hnone ih =>
    simp only [List.cons_append, scan, hc, hnone]
    exact ih (hapart.of_suffix (List.suffix_cons c text)) hkind

/-- Scanners with the same next token and the same rest have the same tokens. -/
theorem tokens_congr {scanner other : Scanner} (h : scanner.next = other.next) :
    scanner.tokens = other.tokens := by
  rw [tokens, tokens.eq_def other, h]

/-- The tokens of a text do not depend on what comes after it, and the tokens of what comes
after it stand behind them, unless that goes on with a word. -/
theorem tokens_append (scanner : Scanner) {rest : List Char}
    (hapart : Text.Apart scanner.rest rest) :
    { scanner with rest := scanner.rest ++ rest }.tokens =
      scanner.tokens.dropLast ++
        (⟨scanner.file, scanner.offset + Text.byteLength scanner.rest, rest⟩ : Scanner).tokens := by
  fun_induction tokens scanner with
  | case1 scanner hend =>
    refine tokens_congr ?_
    exact scan_ignored scanner.file scanner.offset rest (isIgnored_of_scan hend)
  | case2 scanner hend ih =>
    have hnext : ({ scanner with rest := scanner.rest ++ rest } : Scanner).next =
        (scanner.next.1, { scanner.next.2 with rest := scanner.next.2.rest ++ rest }) :=
      scan_append hapart hend
    obtain ⟨taken, others, htext, hafter⟩ :=
      exists_scan_snd scanner.file scanner.offset scanner.rest
    have hne : scanner.next.2.tokens ≠ [] := by
      obtain ⟨read, mark, -, htokens, -⟩ := scanner.next.2.stream_tokens
      simp [htokens]
    rw [tokens, hnext, if_neg hend, List.dropLast_cons_of_ne_nil hne, List.cons_append]
    change scanner.next.2 = _ at hafter
    rw [hafter] at ih ⊢
    rw [ih (hapart.of_suffix ⟨taken, htext.symm⟩), htext, Text.byteLength_append, Nat.add_assoc]

end Scanner

section Inserted

variable {before ignored after : List Char} {file : String}

/-- No token before the place where characters are put in is moved. -/
theorem moved_of_mem_dropLast {bytes : Nat} (hsize : Text.byteLength before < UInt32.size)
    {token : Token} (h : token ∈ (⟨file, 0, before⟩ : Scanner).tokens.dropLast) :
    token.moved (Text.byteLength before) bytes = token := by
  obtain ⟨lexemes, -, hmem, htokens⟩ :=
    (⟨file, 0, before⟩ : Scanner).tokens_eq (show 0 = Text.byteLength [] from rfl) (by nofun)
  rw [htokens, List.dropLast_concat] at h
  obtain ⟨lexeme, hlexeme, rfl⟩ := List.mem_map.mp h
  have hoccurs := ((hmem lexeme).mp hlexeme).1
  have hlt := hoccurs.start_lt_stop
  have hle : lexeme.stop ≤ Text.byteLength before := hoccurs.stop_le
  refine if_neg ?_
  change ¬_ ≤ lexeme.start.toUInt32.toNat
  rw [toNat_toUInt32 (by omega)]
  omega

/-- Every token after the place where characters are put in is moved. -/
theorem moved_of_mem_tokens {bytes : Nat} (hapart : Text.Apart before after)
    (hsize : Text.byteLength (before ++ after) < UInt32.size) {token : Token}
    (h : token ∈ (⟨file, Text.byteLength before, after⟩ : Scanner).tokens) :
    token.moved (Text.byteLength before) bytes = token.later bytes := by
  obtain ⟨lexemes, -, hmem, htokens⟩ :=
    (⟨file, Text.byteLength before, after⟩ : Scanner).tokens_eq rfl hapart
  rw [htokens] at h
  refine if_pos ?_
  rcases List.mem_append.mp h with htoken | hmark
  · obtain ⟨lexeme, hlexeme, rfl⟩ := List.mem_map.mp htoken
    obtain ⟨hoccurs, hle⟩ := (hmem lexeme).mp hlexeme
    have hlt := hoccurs.start_lt_stop
    have hstop : lexeme.stop ≤ Text.byteLength (before ++ after) := hoccurs.stop_le
    change _ ≤ lexeme.start.toUInt32.toNat
    rw [toNat_toUInt32 (by omega)]
    exact hle
  · obtain rfl := List.mem_singleton.mp hmark
    change _ ≤ (Text.byteLength (before ++ after)).toUInt32.toNat
    rw [toNat_toUInt32 hsize, Text.byteLength_append]
    omega

/-- Ignored characters that are put into a text move the tokens after them and change nothing
else. -/
theorem tokens_ignored (file : String) (hapart : Text.Apart before after)
    (hignored : ∀ c ∈ ignored, IsIgnored c)
    (hsize : Text.byteLength (before ++ after) < UInt32.size) :
    (⟨file, 0, before ++ (ignored ++ after)⟩ : Scanner).tokens =
      (⟨file, 0, before ++ after⟩ : Scanner).tokens.map
        (Token.moved (Text.byteLength before) (Text.byteLength ignored)) := by
  have hshort := (⟨file, 0, before⟩ : Scanner).tokens_append hapart
  have hlong := (⟨file, 0, before⟩ : Scanner).tokens_append (hapart.ignored hignored)
  have hskip : (⟨file, 0 + Text.byteLength before, ignored ++ after⟩ : Scanner).tokens =
      (⟨file, 0 + Text.byteLength before, after⟩ : Scanner).tokens.map
        (Token.later (Text.byteLength ignored)) := by
    rw [← Scanner.tokens_later]
    exact Scanner.tokens_congr (Scanner.scan_ignored _ _ after hignored)
  have hbefore : Text.byteLength before < UInt32.size := by
    rw [Text.byteLength_append] at hsize
    omega
  rw [hlong, hshort, hskip, List.map_append, Nat.zero_add]
  refine congrArg₂ HAppend.hAppend ?_ ?_
  · rw [List.map_congr_left fun token htoken => moved_of_mem_dropLast hbefore htoken, List.map_id']
  · exact List.map_congr_left fun token htoken => (moved_of_mem_tokens hapart hsize htoken).symm

end Inserted

/-- No offset of a text is beyond its end. -/
theorem stop_le_of_mem_tokenize {text file : String} (hsize : text.utf8ByteSize < UInt32.size)
    {token : Token} (h : token ∈ tokenize text file) :
    token.span.stop.offset.toNat ≤ text.utf8ByteSize := by
  obtain ⟨lexemes, -, hmem, htokens⟩ := exists_lexemes text file
  rw [htokens] at h
  rcases List.mem_append.mp h with htoken | hmark
  · obtain ⟨lexeme, hlexeme, rfl⟩ := List.mem_map.mp htoken
    have hstop := ((hmem lexeme).mp hlexeme).stop_le
    rw [Text.byteLength_toList] at hstop
    change lexeme.stop.toUInt32.toNat ≤ _
    rw [toNat_toUInt32 (by omega)]
    exact hstop
  · obtain rfl := List.mem_singleton.mp hmark
    exact (toNat_toUInt32 hsize).le

/-- A parse of the tokens of a text, some of them moved, gives the same expression or the same
fault, which is moved as well. -/
theorem parseTokens_moved {text file : String} (place bytes : Nat) :
    parseTokens ((tokenize text file).map (Token.moved place bytes)) =
      (parseTokens (tokenize text file)).mapError (Fault.moved place bytes) := by
  obtain ⟨read, mark, hmark, htokens, -⟩ := (Scanner.ofText text file).stream_tokens
  change tokenize text file = _ at htokens
  generalize tokenize text file = tokens at htokens ⊢
  have hstream : (Supply.list (.ofList (tokens.map (Token.moved place bytes)))).stream =
      (Supply.list (.ofList tokens)).stream.map (Token.moved place bytes) := by
    rw [htokens, List.map_append, List.map_singleton, Supply.stream_ofList_last _ hmark,
      Supply.stream_ofList_last _ (hmark.moved place bytes), Stream'.map_append_stream,
      Stream'.map_const]
  have hparse : parseTokens (tokens.map (Token.moved place bytes)) =
      ((parseTokens tokens).map (Recast.mk id (Position.moved place bytes)).expr).mapError
        (Fault.moved place bytes) := by
    refine parse_recast (fun n => ?_) (List.length_map _)
    rw [hstream]
    exact Token.recast_moved _ _ _ _
  rw [hparse]
  cases parseTokens tokens with
  | ok expr => exact congrArg Except.ok (Recast.expr_id _ expr)
  | error fault => rfl

/-- Ignored characters never matter. If some are put into a text at a place that is not between
two letters, the tokens stay the same up to their places, and the expression or the fault stays
the same up to the place of the fault. What starts at that place or after it, the end mark
included, is moved by as many bytes as were put in, and nothing else is. No offset is moved
beyond the limit. -/
theorem parseText_ignored (name? : Option String) {text longer : String} {place : Nat}
    {before ignored after : List Char}
    (hplace : Text.splitAt? place text.toList = some (before, after))
    (hapart : Text.Apart before after) (hignored : ∀ c ∈ ignored, IsIgnored c)
    (hlonger : longer.toList = before ++ (ignored ++ after))
    (hsize : longer.utf8ByteSize < UInt32.size) :
    let file := name?.getD shell
    let bytes := Text.byteLength ignored
    tokenize longer file = (tokenize text file).map (Token.moved place bytes) ∧
    (∀ token ∈ tokenize text file, token.span.stop.offset.toNat + bytes < UInt32.size) ∧
    parseText longer file = (parseText text file).mapError (Fault.moved place bytes) := by
  intro file bytes
  obtain ⟨htext, rfl⟩ := Text.splitAt?_eq_some_iff.mp hplace
  have hbytes : text.utf8ByteSize + bytes = longer.utf8ByteSize := by
    rw [← Text.byteLength_toList, ← Text.byteLength_toList, htext, hlonger,
      Text.byteLength_append, Text.byteLength_append, Text.byteLength_append]
    omega
  have htokens : tokenize longer file =
      (tokenize text file).map (Token.moved (Text.byteLength before) bytes) := by
    rw [tokenize, tokenize, Scanner.ofText, Scanner.ofText, hlonger, htext]
    refine tokens_ignored file hapart hignored ?_
    rw [← htext, Text.byteLength_toList]
    omega
  refine ⟨htokens, fun token htoken => ?_, ?_⟩
  · have hstop := stop_le_of_mem_tokenize (by omega) htoken
    omega
  · have hlong : parseText longer file = parseTokens (tokenize longer file) :=
      parse_eq_of_stream (Supply.stream_tokenize longer file).symm
    have hshort : parseText text file = parseTokens (tokenize text file) :=
      parse_eq_of_stream (Supply.stream_tokenize text file).symm
    rw [hlong, hshort, htokens]
    exact parseTokens_moved _ _

/-- A tab and an umlaut are put in between an operator and a misplaced parenthesis. They are
three bytes, and so much later is the fault. -/
theorem parseText_ignored_umlaut :
    let text := "é(a+)"
    let longer := "é(a+\tü)"
    let fault : Fault := ⟨.noPrefixRule ")", ⟨5, shell⟩⟩
    Text.splitAt? 5 text.toList = some (['é', '(', 'a', '+'], [')']) ∧
      longer.utf8ByteSize < UInt32.size ∧ parseText text = .error fault ∧
      (fault.moved 5 3).position = ⟨8, shell⟩ ∧ parseText longer = .error (fault.moved 5 3) := by
  intro text longer fault
  have hplace : Text.splitAt? 5 text.toList = some (['é', '(', 'a', '+'], [')']) := by
    decide +kernel
  have hsize : longer.utf8ByteSize < UInt32.size := by decide +kernel
  have hparse : parseText text = .error fault := by decide +kernel
  have htab : IsIgnored '\t' := ⟨by decide, by decide⟩
  have humlaut : IsIgnored 'ü' := ⟨by decide, by decide⟩
  have hignored : ∀ c ∈ ['\t', 'ü'], IsIgnored c :=
    List.forall_mem_cons.mpr ⟨htab, List.forall_mem_singleton.mpr humlaut⟩
  have hapart : Text.Apart (['é', '(', 'a'] ++ ['+']) [')'] := Text.apart_snoc rfl
  have htext : longer.toList = ['é', '(', 'a', '+'] ++ (['\t', 'ü'] ++ [')']) := by decide +kernel
  obtain ⟨-, -, hlonger⟩ := parseText_ignored none hplace hapart hignored htext hsize
  refine ⟨hplace, hsize, hparse, by decide +kernel, ?_⟩
  exact hlonger.trans (congrArg (Except.mapError _) hparse)

end Precedence
