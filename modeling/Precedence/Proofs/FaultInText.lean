import Mathlib.Data.List.Nodup
import Precedence.Proofs.Blame
import Precedence.Proofs.LexedAhead
import Precedence.Proofs.Lexemes
import Precedence.Proofs.Stratified

/-!
# Faults in a text

The fault of a text is at the start of one of its tokens, and this is a place between two
characters or the end of the text. What the fault says is what stands there: the text of the
token, its kind or an equals sign. The end mark is the only token without a text, so a fault
without a text is at the end of the input. The main statement is `parseText_error_points`.
-/

namespace Precedence

/-- A number below the limit of offsets is kept as an offset. -/
theorem toNat_toUInt32 {n : Nat} (h : n < UInt32.size) : n.toUInt32.toNat = n := by
  rw [Nat.toUInt32, UInt32.toNat_ofNat', Nat.mod_eq_of_lt h]

/-- How a token stands in a text, with `before` in front of its start and `after` from its
start on. -/
structure Token.StandsAt (file : String) (before after : List Char) (token : Token) : Prop where
  /-- It starts at the byte after those in front of it. -/
  start : token.start = ⟨(Text.byteLength before).toUInt32, file⟩
  /-- Its text is what stands there. -/
  value : token.value.toList <+: after
  /-- It has a text unless it is at the end. -/
  empty : token.value = "" ↔ after = []
  /-- It is the end mark exactly if it is at the end. -/
  final : token.kind = .endOfInput ↔ after = []
  /-- A token of the kind of a punctuator is that punctuator. -/
  sign : ∀ c, token.kind.punctuator? = some c → token.value.toList = [c]

/-- Where a token of the kind of a punctuator stands, the text goes on with that punctuator. -/
theorem Token.StandsAt.head?_of_punctuator {file : String} {before after : List Char}
    {token : Token} (h : token.StandsAt file before after) {c : Char}
    (hc : token.kind.punctuator? = some c) : after.head? = some c := by
  obtain ⟨rest, rfl⟩ := h.value
  rw [h.sign c hc]
  rfl

/-- The token of a lexeme stands where the lexeme does. -/
theorem Lexeme.OccursIn.standsAt {lexeme : Lexeme} {text after : List Char} (file : String)
    (h : lexeme.OccursIn text) :
    (lexeme.token file).StandsAt file lexeme.before (lexeme.value ++ after) := by
  have hne := h.value_ne_nil
  constructor
  · rfl
  · rw [token, String.toList_ofList]
    exact List.prefix_append _ _
  · simp [token, hne]
  · simp [token, hne, h.kind_ne_endOfInput]
  · intro c hc
    rw [token, String.toList_ofList]
    cases h with
    | word => cases hc
    | sign _ hkind => rw [Option.some.inj (hkind.symm.trans hc)]

/-- Every token of a text stands somewhere in it. -/
theorem exists_standsAt {text file : String} {token : Token} (h : token ∈ tokenize text file) :
    ∃ before after, text.toList = before ++ after ∧ token.StandsAt file before after := by
  obtain ⟨lexemes, -, hmem, htokens⟩ := exists_lexemes text file
  rw [htokens] at h
  rcases List.mem_append.mp h with htoken | hmark
  · obtain ⟨lexeme, hlexeme, rfl⟩ := List.mem_map.mp htoken
    have hoccurs := (hmem lexeme).mp hlexeme
    obtain ⟨after, hafter⟩ := hoccurs.exists_after
    exact ⟨lexeme.before, lexeme.value ++ after, hafter, hoccurs.standsAt file⟩
  · obtain rfl := List.mem_singleton.mp hmark
    refine ⟨text.toList, [], (List.append_nil _).symm, ?_⟩
    constructor
    · rw [Text.byteLength_toList]
      rfl
    · exact List.prefix_rfl
    · simp [Token.endMark]
    · simp [Token.endMark]
    · intro c hc
      cases hc

/-- Different numbers below the limit of offsets are different positions. -/
theorem position_ne {n m : Nat} {file : String} (hlt : n < m) (hm : m < UInt32.size) :
    (⟨n.toUInt32, file⟩ : Position) ≠ ⟨m.toUInt32, file⟩ := by
  intro heq
  have hnat := congrArg (fun position => position.offset.toNat) heq
  simp only [toNat_toUInt32 hm, toNat_toUInt32 (Nat.lt_trans hlt hm)] at hnat
  omega

/-- Where offsets fit, no two tokens of a text start at the same place. -/
theorem nodup_start {text : String} (file : String) (hsize : text.utf8ByteSize < UInt32.size) :
    ((tokenize text file).map Token.start).Nodup := by
  obtain ⟨lexemes, hsorted, hmem, htokens⟩ := exists_lexemes text file
  have hstop : ∀ lexeme ∈ lexemes, lexeme.start < lexeme.stop ∧
      lexeme.stop ≤ text.utf8ByteSize := by
    intro lexeme hlexeme
    have hoccurs := (hmem lexeme).mp hlexeme
    rw [← Text.byteLength_toList]
    exact ⟨hoccurs.start_lt_stop, hoccurs.stop_le⟩
  rw [htokens, List.Nodup, List.pairwise_map]
  refine List.pairwise_append.mpr ⟨?_, List.pairwise_singleton _ _, ?_⟩
  · rw [List.pairwise_map]
    refine hsorted.imp_of_mem fun {first second} hfirst hsecond hle => ?_
    have hfirst := hstop first hfirst
    have hsecond := hstop second hsecond
    exact position_ne (show first.start < second.start by omega) (by omega)
  · intro token htoken mark hmark
    obtain ⟨lexeme, hlexeme, rfl⟩ := List.mem_map.mp htoken
    obtain rfl := List.mem_singleton.mp hmark
    have hlexeme := hstop lexeme hlexeme
    exact position_ne (show lexeme.start < text.utf8ByteSize by omega) hsize

/-- Every token that a scanner gives for a text is in its list of tokens. -/
theorem mem_tokenize_of_mem_stream {text file : String} {token : Token}
    (h : token ∈ (Supply.text (.ofText text file)).stream) : token ∈ tokenize text file := by
  obtain ⟨read, mark, -, htokens, hstream⟩ := (Scanner.ofText text file).stream_tokens
  rw [hstream] at h
  rw [tokenize, htokens]
  obtain ⟨n, rfl⟩ := h
  by_cases hn : n < read.length
  · rw [Stream'.get_append_left n read _ hn]
    exact List.mem_append_left _ (List.getElem_mem hn)
  · obtain ⟨extra, rfl⟩ := Nat.exists_eq_add_of_le (Nat.not_lt.mp hn)
    rw [Stream'.get_append_right]
    exact List.mem_append_right _ List.mem_cons_self

/-- The input is said to have ended exactly if the token at fault has no text. -/
theorem tip?_noPrefixRule_eq_iff {value : String} :
    (Cause.noPrefixRule value).tip? = some "Input ended where an expression was expected" ↔
      value = "" := by
  by_cases hvalue : value = ""
  · simp [Cause.tip?, hvalue]
  · have hne : value.isEmpty = false := by simpa using hvalue
    refine iff_of_false (fun htip => ?_) hvalue
    simp only [Cause.tip?, hne, Bool.false_eq_true, if_false] at htip
    -- The two tips begin with different characters.
    have hchars := congrArg String.toList (Option.some.inj htip)
    simp at hchars

/-- The fault of a text points at what it is about. It is at the start of one token of the
text and of no other, so between two characters or at the end. What it says of the token is
so: a token that starts no expression has its text there, which is empty only at the end; a
token that is found where another is needed has the kind that was found, which is that of the
end mark only at the end; the sign of a bad assignment is an equals sign; and the limit on
nesting is 256. -/
theorem parseText_error_points {text : String} {name? : Option String} {fault : Fault}
    (hsize : text.utf8ByteSize < UInt32.size)
    (hparse : parseText text (name?.getD shell) = .error fault) :
    let file := name?.getD shell
    let offset := fault.position.offset.toNat
    fault.position.file = file ∧
    ∃ token before after, token ∈ tokenize text file ∧ token.start = fault.position ∧
      (∀ other ∈ tokenize text file, other.start = fault.position → other = token) ∧
      text.toList = before ++ after ∧ Text.byteLength before = offset ∧
      offset ≤ text.utf8ByteSize ∧
      match fault.cause with
      | .noPrefixRule value => value.toList <+: after ∧
          (value = "" ↔ offset = text.utf8ByteSize) ∧
          (fault.cause.tip? = some "Input ended where an expression was expected" ↔
            offset = text.utf8ByteSize)
      | .unexpectedToken expected found => found ≠ expected ∧ found = token.kind ∧
          (found = .endOfInput ↔ offset = text.utf8ByteSize)
      | .invalidAssignmentTarget => after.head? = some '='
      | .nestingTooDeep limit => limit = 256 := by
  intro file offset
  obtain ⟨token, hstream, hstart, hnames⟩ := exists_token_of_parse_error hparse
  have htoken := mem_tokenize_of_mem_stream hstream
  obtain ⟨before, after, htext, hstands⟩ := exists_standsAt htoken
  have hbytes : text.utf8ByteSize = Text.byteLength before + Text.byteLength after := by
    rw [← Text.byteLength_toList, htext, Text.byteLength_append]
  have hposition := hstart.symm.trans hstands.start
  have hoffset : offset = Text.byteLength before := by
    change fault.position.offset.toNat = _
    rw [hposition]
    exact toNat_toUInt32 (by omega)
  have hend : after = [] ↔ offset = text.utf8ByteSize := by
    rw [hoffset, hbytes, ← Text.byteLength_eq_zero_iff]
    omega
  refine ⟨by rw [hposition], token, before, after, htoken, hstart, fun other hother hsame => ?_,
    htext, hoffset.symm, by omega, ?_⟩
  · exact List.inj_on_of_nodup_map (nodup_start file hsize) hother htoken
      (hsame.trans hstart.symm)
  · obtain ⟨cause, position⟩ := fault
    cases cause with
    | noPrefixRule value =>
      obtain rfl : value = token.value := hnames
      have hempty := hstands.empty.trans hend
      exact ⟨hstands.value, hempty, tip?_noPrefixRule_eq_iff.trans hempty⟩
    | unexpectedToken expected found =>
      obtain ⟨hne, rfl⟩ : found ≠ expected ∧ found = token.kind := hnames
      exact ⟨hne, rfl, hstands.final.trans hend⟩
    | invalidAssignmentTarget =>
      have hkind : token.kind = .assignment := Grammar.kind_of_assign hnames
      exact hstands.head?_of_punctuator (by rw [hkind]; rfl)
    | nestingTooDeep limit => exact (Option.some.inj hnames).symm

/-- In `a = (b + é` an operand is missing. The accented letter is no token, so the fault is at
the end of the text, which is byte 11. -/
theorem parseText_error_points_unfinished :
    let text := "a = (b + é"
    let fault : Fault := ⟨.noPrefixRule "", ⟨11, shell⟩⟩
    text.utf8ByteSize < UInt32.size ∧ parseText text = .error fault ∧
      fault.cause.tip? = some "Input ended where an expression was expected" := by
  intro text fault
  have hsize : text.utf8ByteSize < UInt32.size := by decide +kernel
  have hparse : parseText text (Option.getD none shell) = .error fault := by decide +kernel
  obtain ⟨-, token, before, after, -, -, -, -, -, -, -, -, htip⟩ :=
    parseText_error_points hsize hparse
  exact ⟨hsize, hparse, htip.mpr (by decide +kernel)⟩

end Precedence
