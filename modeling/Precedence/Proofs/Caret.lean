import Mathlib.Data.List.DropRight
import Precedence.Proofs.FaultInText
import Precedence.Proofs.ReportWidth

/-!
# The caret of a report

A report ends with the line of a fault and, under it, a line with a caret. The caret is said to
stand in a column of characters, though the place of the fault is given in bytes and the line is
shown without the spaces it starts with. For a fault of parsing that column is the one in which the
token at fault starts. The main statement is `Fault.report_caret`.
-/

namespace Precedence

namespace Text

/-- The part of a line that is before a place in it, from the text before that place. -/
def lineBefore (before : List Char) : List Char := before.rtakeWhile fun c => !isNewline c

/-- The part of a line that is after a place in it, from the text after that place. The newline
that ends the line belongs to it. -/
def lineAfter (after : List Char) : List Char :=
  after.takeWhile (fun c => !isNewline c) ++ (after.dropWhile fun c => !isNewline c).take 1

/-- The last two lines of a text. -/
def LastLines (text upper lower : String) : Prop :=
  (∃ front, text = front ++ "\n" ++ upper ++ "\n" ++ lower) ∧
    '\n' ∉ upper.toList ∧ '\n' ∉ lower.toList

/-- What is before a place in its line has no newline. -/
theorem newline_notMem_lineBefore (before : List Char) : '\n' ∉ lineBefore before := by
  intro h
  have hnot := List.mem_rtakeWhile_imp h
  simp [isNewline] at hnot

/-- The line goes back to the start of the text or to a newline. -/
theorem lineBefore_append {front mid : List Char}
    (hstarts : front = [] ∨ front.getLast? = some '\n') (hmid : '\n' ∉ mid) :
    lineBefore (front ++ mid) = mid := by
  have hfront : lineBefore front = [] := by
    rcases hstarts with rfl | hnewline
    · rfl
    · obtain ⟨others, rfl⟩ := List.getLast?_eq_some_iff.mp hnewline
      exact List.rtakeWhile_concat_neg _ _ _ (by simp [isNewline])
  induction mid using List.reverseRecOn with
  | nil => rw [List.append_nil, hfront]
  | append_singleton mid c ih =>
    rw [List.mem_append, not_or] at hmid
    have hc : isNewline c = false :=
      beq_false_of_ne fun heq => hmid.2 (heq ▸ List.mem_singleton_self _)
    rw [← List.append_assoc, lineBefore, List.rtakeWhile_concat_pos _ _ _ (by rw [hc]; rfl)]
    exact congrArg (· ++ [c]) (ih hmid.1)

/-- Characters that are no newline belong to the line. -/
theorem lineAfter_append {body : List Char} (hbody : '\n' ∉ body) (rest : List Char) :
    lineAfter (body ++ rest) = body ++ lineAfter rest := by
  have hall : ∀ c ∈ body, (!isNewline c) = true := by
    intro c hc
    have hne : c ≠ '\n' := fun heq => hbody (heq ▸ hc)
    simpa [isNewline] using hne
  rw [lineAfter, List.takeWhile_append_of_pos hall, List.dropWhile_append_of_pos hall,
    List.append_assoc]
  rfl

/-- A line goes on up to the next newline or up to the end of the text. -/
theorem lineAfter_cases (after : List Char) :
    ∃ body, '\n' ∉ body ∧ (lineAfter after = body ∨ lineAfter after = body ++ ['\n']) := by
  induction after with
  | nil => exact ⟨[], List.not_mem_nil, .inl rfl⟩
  | cons c after ih =>
    by_cases hc : c = '\n'
    · subst hc
      exact ⟨[], List.not_mem_nil, .inr rfl⟩
    · have hne : '\n' ∉ [c] := by simpa [eq_comm] using hc
      have hcons : lineAfter (c :: after) = c :: lineAfter after := lineAfter_append hne after
      obtain ⟨body, hbody, hend⟩ := ih
      refine ⟨c :: body, List.not_mem_cons_of_ne_of_not_mem (Ne.symm hc) hbody, ?_⟩
      rw [hcons]
      exact hend.imp (congrArg _) (congrArg _)

/-- The line of a byte that is between two characters is put together from its two parts. -/
theorem LineAt.eq_of_splitAt? {text front line rest before after : List Char} {p : Nat}
    (h : LineAt text p front line rest) (hsplit : splitAt? p text = some (before, after)) :
    before = front ++ lineBefore before ∧ line = lineBefore before ++ lineAfter after := by
  obtain ⟨htext, rfl⟩ := splitAt?_eq_some_iff.mp hsplit
  obtain ⟨mid, rfl, hrest⟩ := exists_append_of_byteLength_le (h.text_eq.symm.trans htext) h.le
  rcases h.stops with ⟨body, rfl, hbody, hlt⟩ | ⟨hline, rfl, -⟩
  · have hend : byteLength (body ++ ['\n']) = byteLength body + 1 := byteLength_append body _
    -- The byte is no later than the newline, so the line is cut before its newline.
    have hle : byteLength mid ≤ byteLength body := by
      rw [byteLength_append] at hlt
      omega
    rw [List.append_assoc] at hrest
    obtain ⟨tail, rfl, rfl⟩ := exists_append_of_byteLength_le hrest.symm hle
    rw [List.mem_append, not_or] at hbody
    rw [lineBefore_append h.starts hbody.1, lineAfter_append hbody.2, List.append_assoc]
    exact ⟨rfl, rfl⟩
  · obtain rfl : line = mid ++ after := by rwa [List.append_nil] at hrest
    rw [List.mem_append, not_or] at hline
    have hafter := lineAfter_append hline.2 []
    rw [List.append_nil] at hafter
    rw [lineBefore_append h.starts hline.1, hafter]
    exact ⟨rfl, by simp [lineAfter]⟩

/-- White space at the end is left out. -/
theorem trimEnd_snoc_blank {text : List Char} {c : Char} (hc : isBlank c = true) :
    trimEnd (text ++ [c]) = trimEnd text :=
  List.rdropWhile_concat_pos _ _ _ hc

/-- A text that ends with something else than white space is shown whole. -/
theorem trimEnd_snoc {text : List Char} {c : Char} (hc : isBlank c = false) :
    trimEnd (text ++ [c]) = text ++ [c] :=
  List.rdropWhile_concat_neg _ _ _ (by rw [hc]; exact Bool.false_ne_true)

/-- Nothing is left out before a character that is not white space. -/
theorem trimEnd_append_cons {c : Char} (hc : isBlank c = false) (front rest : List Char) :
    trimEnd (front ++ c :: rest) = front ++ c :: trimEnd rest := by
  induction rest using List.reverseRecOn with
  | nil => exact trimEnd_snoc hc
  | append_singleton rest d ih =>
    have hassoc : front ++ c :: (rest ++ [d]) = (front ++ c :: rest) ++ [d] := by simp
    rw [hassoc]
    cases hd : isBlank d with
    | true => rw [trimEnd_snoc_blank hd, trimEnd_snoc_blank hd, ih]
    | false => rw [trimEnd_snoc hd, trimEnd_snoc hd, hassoc]

/-- Nothing is left out before the end of a piece without white space. -/
theorem trimEnd_append_word {word : List Char} (hne : word ≠ [])
    (hword : ∀ c ∈ word, isBlank c = false) (front rest : List Char) :
    trimEnd (front ++ (word ++ rest)) = front ++ (word ++ trimEnd rest) := by
  induction word using List.reverseRecOn with
  | nil => exact absurd rfl hne
  | append_singleton word c =>
    have hc := hword c (List.mem_append_right _ List.mem_cons_self)
    have hsplit := trimEnd_append_cons hc (front ++ word) rest
    simpa only [List.append_assoc, List.singleton_append] using hsplit

/-- As many characters are shown before a place in a line as there are without the spaces the line
starts with. -/
theorem length_sub_indent (front rest : List Char) :
    front.length - ((front ++ rest).takeWhile (· == ' ')).length =
      (front.dropWhile (· == ' ')).length := by
  induction front with
  | nil => exact Nat.zero_sub _
  | cons c front ih =>
    cases hc : c == ' ' with
    | true => simpa [hc] using ih
    | false => simp [hc]

/-- No space after a place in a line is left out if the first character there is none. -/
theorem dropWhile_space_append {front rest : List Char} (hrest : ∀ c ∈ rest.head?, c ≠ ' ') :
    (front ++ rest).dropWhile (· == ' ') = front.dropWhile (· == ' ') ++ rest := by
  induction front with
  | nil =>
    cases rest with
    | nil => rfl
    | cons c rest =>
      have hc : (c == ' ') = false := beq_false_of_ne (hrest c rfl)
      simp [hc]
  | cons c front ih =>
    cases hc : c == ' ' with
    | true => simpa [hc] using ih
    | false => simp [hc]

/-- The line as it is shown has no newline. -/
theorem newline_notMem_trimEnd {before : List Char} (hbefore : '\n' ∉ before)
    (after : List Char) :
    '\n' ∉ trimEnd ((before ++ lineAfter after).dropWhile (· == ' ')) := by
  obtain ⟨body, hbody, hend⟩ := lineAfter_cases after
  have hline : '\n' ∉ before ++ body := List.not_mem_append hbefore hbody
  have hshown : '\n' ∉ trimEnd ((before ++ body).dropWhile (· == ' ')) := fun hmem =>
    hline (List.dropWhile_subset _ (trimEnd_subset _ hmem))
  rcases hend with hend | hend
  · rwa [hend]
  · rwa [hend, ← List.append_assoc, dropWhile_space_append (by simp), trimEnd_snoc_blank rfl]

/-- A piece without white space is shown whole, after what is shown before it. -/
theorem shown_word {word : List Char} (hne : word ≠ []) (hword : ∀ c ∈ word, isBlank c = false)
    (before rest : List Char) :
    trimEnd ((lineBefore before ++ lineAfter (word ++ rest)).dropWhile (· == ' ')) =
      (lineBefore before).dropWhile (· == ' ') ++ (word ++ trimEnd (lineAfter rest)) := by
  have hnewline : '\n' ∉ word := fun hmem => Bool.noConfusion (hword _ hmem)
  have hhead : ∀ c ∈ (word ++ lineAfter rest).head?, c ≠ ' ' := by
    obtain ⟨d, others, rfl⟩ := List.exists_cons_of_ne_nil hne
    rintro c hc rfl
    obtain rfl : d = ' ' := Option.some.inj hc
    exact Bool.noConfusion (hword _ List.mem_cons_self)
  rw [lineAfter_append hnewline, dropWhile_space_append hhead, trimEnd_append_word hne hword]

end Text

/-- No letter is white space. -/
theorem isBlank_of_isAlpha {c : Char} (h : c.isAlpha = true) : Text.isBlank c = false := by
  have hletter : 65 ≤ c.toNat ∧ c.toNat ≤ 90 ∨ 97 ≤ c.toNat ∧ c.toNat ≤ 122 := by
    rcases (Bool.or_eq_true _ _).mp h with hupper | hlower
    · exact .inl (of_decide_eq_true hupper)
    · exact .inr (((Bool.and_eq_true _ _).mp hlower).imp of_decide_eq_true of_decide_eq_true)
  by_contra hblank
  simp only [Bool.not_eq_false, Text.isBlank, Text.inRanges, Text.blankRanges, List.any_cons,
    List.any_nil, Bool.or_eq_true, Bool.and_eq_true, decide_eq_true_eq, Bool.false_eq_true,
    or_false] at hblank
  omega

/-- White space is part of no token. -/
theorem isIgnored_of_isBlank {c : Char} (h : Text.isBlank c = true) : IsIgnored c := by
  constructor
  · cases halpha : c.isAlpha with
    | false => rfl
    | true =>
      rw [isBlank_of_isAlpha halpha] at h
      cases h
  · cases hkind : Kind.ofPunctuator? c with
    | none => rfl
    | some kind =>
      have hc := Kind.ofPunctuator?_eq_some_iff.mp hkind
      cases kind <;> simp only [Kind.punctuator?, Option.some.injEq, reduceCtorEq] at hc <;>
        subst hc <;> cases h

/-- No character of a token of a text is white space. -/
theorem isBlank_of_mem_tokenize {text file : String} {token : Token}
    (h : token ∈ tokenize text file) : ∀ c ∈ token.value.toList, Text.isBlank c = false := by
  obtain ⟨lexemes, -, hmem, htokens⟩ := exists_lexemes text file
  rw [htokens] at h
  rcases List.mem_append.mp h with htoken | hmark
  · obtain ⟨lexeme, hlexeme, rfl⟩ := List.mem_map.mp htoken
    intro c hc
    rw [Lexeme.token, String.toList_ofList] at hc
    have hkept := ((hmem lexeme).mp hlexeme).not_isIgnored c hc
    exact Bool.eq_false_iff.mpr fun hblank => hkept (isIgnored_of_isBlank hblank)
  · obtain rfl := List.mem_singleton.mp hmark
    exact List.forall_mem_nil _

namespace Text

/-- A place between two characters of a text is no further than its end. -/
theorem splitAt?_min {text : String} {before after : List Char} {n : Nat}
    (htext : text.toList = before ++ after) (hn : n = byteLength before) :
    splitAt? (min n text.utf8ByteSize) text.toList = some (before, after) := by
  have hbytes : text.utf8ByteSize = byteLength before + byteLength after := by
    rw [← byteLength_toList, htext, byteLength_append]
  exact splitAt?_eq_some_iff.mpr ⟨htext, by omega⟩

end Text

namespace Location

/-- A place between two characters of a text is in its line after the part of the line before
it. -/
theorem ofOffset_of_splitAt? {text before after : List Char} {offset : Nat}
    (h : Text.splitAt? (min offset (Text.byteLength text)) text = some (before, after)) :
    ofOffset text offset =
      ⟨1 + before.count '\n', Text.lineBefore before ++ Text.lineAfter after,
        Text.byteLength (Text.lineBefore before)⟩ := by
  obtain ⟨front, line, rest, hat, hfound⟩ := exists_lineAt text offset
  obtain ⟨hbefore, hline⟩ := hat.eq_of_splitAt? h
  have hcount : before.count '\n' = front.count '\n' := by
    conv_lhs => rw [hbefore, List.count_append]
    rw [List.count_eq_zero_of_not_mem (Text.newline_notMem_lineBefore before), Nat.add_zero]
  have hbytes : Text.byteLength front + Text.byteLength (Text.lineBefore before) =
      min offset (Text.byteLength text) := by
    rw [← Text.byteLength_append, ← hbefore]
    exact (Text.splitAt?_eq_some_iff.mp h).2
  rw [ofOffset_of_some hfound, hcount, hline, ← hbytes, Nat.add_sub_cancel_left]

/-- The caret of a place after some characters of its line is after as many characters. -/
theorem caret_mk (number : Nat) (front rest : List Char) :
    caret ⟨number, front ++ rest, Text.byteLength front⟩ = front.length := by
  have hsplit : Text.splitAt? (Text.byteLength front) (front ++ rest) = some (front, rest) :=
    Text.splitAt?_eq_some_iff.mpr ⟨rfl, rfl⟩
  simp only [caret, hsplit]

end Location

namespace Fault

/-- What is in front of a line in a report: its number. -/
def margin (before : List Char) : String := (1 + before.count '\n').repr ++ " "

/-- The line around a place, as a report shows it. -/
def shownLine (before after : List Char) : String :=
  let line := Text.lineBefore before ++ Text.lineAfter after
  margin before ++ "| " ++ String.ofList (Text.trimEnd (line.dropWhile (· == ' ')))

/-- The part of that line before the place. White space at the end is kept. -/
def shownFront (before : List Char) : String :=
  margin before ++ "| " ++ String.ofList ((Text.lineBefore before).dropWhile (· == ' '))

/-- The line with a caret under a place, up to the caret. -/
def caretStem (before : List Char) : String :=
  String.ofList (List.replicate (margin before).length ' ') ++ "| " ++
    String.ofList (List.replicate ((Text.lineBefore before).dropWhile (· == ' ')).length '-')

/-- A margin has no newline: the number of a line is written with digits. -/
theorem newline_notMem_margin (before : List Char) : '\n' ∉ (margin before).toList := by
  rw [margin, String.toList_append, Nat.repr, String.toList_ofList, List.mem_append, not_or]
  refine ⟨fun h => ?_, by decide⟩
  exact absurd (Nat.isDigit_of_mem_toDigits (by decide) (by decide) h) (by decide)

/-- Up to the caret there is no other one. -/
theorem caret_notMem_caretStem (before : List Char) : '^' ∉ (caretStem before).toList := by
  simp [caretStem]

/-- The caret is in the column of the place. -/
theorem length_shownFront (before : List Char) :
    (shownFront before).length = (caretStem before).length := by
  simp only [caretStem, shownFront, String.length_append, String.length_ofList,
    List.length_replicate]

/-- A piece without white space after the place is shown whole. -/
theorem shownLine_word {word : List Char} (hne : word ≠ [])
    (hword : ∀ c ∈ word, Text.isBlank c = false) (before rest : List Char) :
    shownLine before (word ++ rest) = shownFront before ++ String.ofList word ++
      String.ofList (Text.trimEnd (Text.lineAfter rest)) := by
  rw [shownLine, Text.shown_word hne hword, shownFront, String.ofList_append, String.ofList_append]
  simp only [String.append_assoc]

/-- At the end of a text only white space before the place is not shown. -/
theorem shownLine_nil (before : List Char) :
    ∃ gap : String, (∀ c ∈ gap.toList, Text.isBlank c = true) ∧
      shownLine before [] ++ gap = shownFront before := by
  let front := (Text.lineBefore before).dropWhile (· == ' ')
  refine ⟨String.ofList (front.rtakeWhile Text.isBlank), fun c hc => ?_, ?_⟩
  · rw [String.toList_ofList] at hc
    exact List.mem_rtakeWhile_imp hc
  · have hsplit : Text.trimEnd front ++ front.rtakeWhile Text.isBlank = front :=
      List.rdropWhile_append_rtakeWhile
    have hline : Text.lineBefore before ++ Text.lineAfter [] = Text.lineBefore before :=
      List.append_nil _
    rw [shownLine, hline, String.append_assoc, ← String.ofList_append, hsplit, shownFront]

section Place

variable {content : String} {fault : Fault} {before after : List Char}

/-- The characters shown before the caret are those of the line before the place of the fault. -/
theorem dashes_of_splitAt?
    (h : Text.splitAt? (min fault.position.offset.toNat content.utf8ByteSize) content.toList =
      some (before, after)) :
    fault.dashes content = ((Text.lineBefore before).dropWhile (· == ' ')).length := by
  rw [← Text.byteLength_toList] at h
  rw [dashes, Location.ofOffset_of_splitAt? h, Location.dashes, Location.caret_mk, Location.indent,
    Text.length_sub_indent]

/-- A report ends with the line of its fault and a caret under the place of the fault. -/
theorem lastLines_report? {report : String}
    (h : Text.splitAt? (min fault.position.offset.toNat content.utf8ByteSize) content.toList =
      some (before, after)) (hreport : fault.report? content = some report) :
    Text.LastLines report (shownLine before after) (caretStem before ++ "^") := by
  rw [report?_eq, Option.ite_none_right_eq_some] at hreport
  obtain ⟨-, ⟨⟩⟩ := hreport
  rw [← Text.byteLength_toList] at h
  refine ⟨⟨fault.headline ++ "\n" ++ ("-> " ++ fault.position.file ++ "\n" ++
    (String.ofList (List.replicate (margin before).length ' ') ++ "|")), ?_⟩, ?_, ?_⟩
  · have hspace : " ".length = 1 := rfl
    refine String.toList_inj.mp ?_
    simp [Report.inFile, details, Location.ofOffset_of_splitAt? h, Location.dashes,
      Location.caret_mk, Location.indent, Location.shown, Text.length_sub_indent, shownLine,
      caretStem, margin, hspace]
  · simp only [shownLine, String.toList_append, String.toList_ofList, List.mem_append, not_or]
    refine ⟨⟨newline_notMem_margin before, by decide⟩, ?_⟩
    exact Text.newline_notMem_trimEnd (Text.newline_notMem_lineBefore before) after
  · simp [caretStem]

/-- There is a report, with these lines at its end, if few enough characters are shown before the
caret. -/
theorem exists_lastLines
    (h : Text.splitAt? (min fault.position.offset.toNat content.utf8ByteSize) content.toList =
      some (before, after))
    (hfits : ((Text.lineBefore before).dropWhile (· == ' ')).length < Text.maxWidth) :
    ∃ report, fault.report? content = some report ∧
      Text.LastLines report (shownLine before after) (caretStem before ++ "^") := by
  have hreport := report?_eq fault content
  rw [dashes_of_splitAt? h, if_pos hfits] at hreport
  exact ⟨_, hreport, lastLines_report? h hreport⟩

end Place

/-- A fault of parsing is at a place between two characters, and a token stands there. -/
theorem exists_standsAt_of_parse_error {text file : String} {fault : Fault}
    (hsize : text.utf8ByteSize < UInt32.size) (hparse : parseText text file = .error fault) :
    ∃ token ∈ tokenize text file, ∃ before after, token.start = fault.position ∧
      token.StandsAt file before after ∧ text.toList = before ++ after ∧
      fault.position.offset.toNat = Text.byteLength before := by
  obtain ⟨token, hstream, hstart, -⟩ := exists_token_of_parse_error hparse
  have htoken := mem_tokenize_of_mem_stream hstream
  obtain ⟨before, after, htext, hstands⟩ := exists_standsAt htoken
  have hbytes : text.utf8ByteSize = Text.byteLength before + Text.byteLength after := by
    rw [← Text.byteLength_toList, htext, Text.byteLength_append]
  refine ⟨token, htoken, before, after, hstart, hstands, htext, ?_⟩
  rw [← hstart, hstands.start]
  exact toNat_toUInt32 (by omega)

end Fault

/-- A word with a parenthesis after it is at fault where the parenthesis is, since nothing is open
that it could close. -/
theorem parseText_unopened {word : String} (hword : IsWord word) (file : String) :
    parseText (word.push ')') file =
      .error ⟨.unexpectedToken .endOfInput .closeParen, ⟨word.utf8ByteSize.toUInt32, file⟩⟩ := by
  let size := word.utf8ByteSize
  let name : Token := ⟨.identifier, word, .between file 0 size⟩
  let closing : Token := ⟨.closeParen, ")", .between file size (size + 1)⟩
  have hname : (Scanner.ofText (word.push ')') file).next = (name, ⟨file, size, [')']⟩) := by
    rw [Scanner.next, Scanner.ofText, String.toList_push, Scanner.scan_word hword (by simp),
      Nat.zero_add]
  have hclosing : (Scanner.mk file size [')']).next = (closing, ⟨file, size + 1, []⟩) :=
    Scanner.scan_punctuator rfl file size []
  have hstream : (Supply.text (.ofText (word.push ')') file)).stream =
      [name] ++ₛ Stream'.cons closing (Supply.text ⟨file, size + 1, []⟩).stream := by
    rw [Supply.stream_eq, Supply.next, hname, Supply.stream_eq (.text ⟨file, size, [')']⟩),
      Supply.next, hclosing]
    rfl
  have hreads : Reads .standard (.expression Power.lowest.level) [name] closing
      (.ok (.name word)) 1 :=
    .finish (.start rfl .name) (Nat.le_refl 0)
  have hclosed : Kind.closeParen ≠ .endOfInput := by decide
  exact parse_of_rejects (.unfinished hreads hclosed) hstream (by decide)

/-- Letters make up a word. -/
theorem isWord_replicate (count : Nat) :
    IsWord (String.ofList (List.replicate (count + 1) 'a')) := by
  refine ⟨fun hempty => ?_, fun c hc => ?_⟩
  · have hnil := String.toList_eq_nil_iff.mpr hempty
    rw [String.toList_ofList] at hnil
    cases hnil
  · rw [String.toList_ofList] at hc
    obtain rfl := List.eq_of_mem_replicate hc
    rfl

/-- A letter takes one byte. -/
theorem utf8ByteSize_replicate (count : Nat) :
    (String.ofList (List.replicate count 'a')).utf8ByteSize = count := by
  rw [← Text.byteLength_toList, String.toList_ofList]
  induction count with
  | zero => rfl
  | succ count ih =>
    rw [List.replicate_succ, Text.byteLength, ih]
    exact Nat.add_comm 1 count

/-- A parenthesis behind too many letters is at fault without a report. -/
theorem Fault.wide_unopened {count : Nat} (hcount : count + 1 < UInt32.size)
    (hwide : Text.maxWidth ≤ count) :
    let word := String.ofList (List.replicate count 'a')
    let fault : Fault := ⟨.unexpectedToken .endOfInput .closeParen, ⟨count.toUInt32, shell⟩⟩
    (word.push ')').utf8ByteSize < UInt32.size ∧ parseText (word.push ')') = .error fault ∧
      Text.splitAt? (min fault.position.offset.toNat (word.push ')').utf8ByteSize)
        (word.push ')').toList = some (word.toList, [')']) ∧
      fault.report? (word.push ')') = none := by
  intro word fault
  have hsize : word.utf8ByteSize = count := utf8ByteSize_replicate count
  have hwhole : (word.push ')').utf8ByteSize = count + 1 := by
    rw [← Text.byteLength_toList, String.toList_push, Text.byteLength_append,
      Text.byteLength_toList, hsize]
    rfl
  have hplace : Text.splitAt? (min fault.position.offset.toNat (word.push ')').utf8ByteSize)
      (word.push ')').toList = some (word.toList, [')']) := by
    refine Text.splitAt?_min (by rw [String.toList_push]) ?_
    rw [Text.byteLength_toList, hsize]
    exact toNat_toUInt32 (by omega)
  have hletters : '\n' ∉ word.toList := by
    rw [String.toList_ofList]
    exact fun hmem => absurd (List.eq_of_mem_replicate hmem) (by decide)
  have hbefore : Text.lineBefore word.toList = word.toList :=
    Text.lineBefore_append (.inl rfl) hletters
  have hdashes : fault.dashes (word.push ')') = count := by
    rw [dashes_of_splitAt? hplace, hbefore, String.toList_ofList, List.dropWhile_replicate,
      if_neg (by decide), List.length_replicate]
  obtain ⟨letters, rfl⟩ : ∃ letters, count = letters + 1 :=
    Nat.exists_eq_add_one_of_ne_zero (by rintro rfl; exact absurd hwide (by decide))
  have hparse := parseText_unopened (isWord_replicate letters) shell
  rw [utf8ByteSize_replicate] at hparse
  exact ⟨by omega, hparse, hplace, report?_eq_none_iff.mpr (hdashes ▸ hwide)⟩

/-- A report ends with two lines: the line of the fault, with its number, and a line with a caret.
If the offset of the fault, or the end of the text if that is earlier, is between two characters,
then the caret is in the column of the place of the fault, as the line is shown: without the spaces
it starts with, or where it starts if the place is among these, and without the white space at its
end. There is such a report exactly if fewer than 65535 characters are shown before the caret. A
fault of parsing is between two characters. So in its report, if there is one, the caret is under
the first character of the token that starts at its place, or, at the end of the input, where a
further character would stand. -/
theorem Fault.report_caret (text : String) :
    (∀ (fault : Fault) (before after : List Char),
      Text.splitAt? (min fault.position.offset.toNat text.utf8ByteSize) text.toList =
        some (before, after) →
      let line := Text.lineBefore before ++ Text.lineAfter after
      let indent := (line.takeWhile (· == ' ')).length
      let margin := (1 + before.count '\n').repr ++ " "
      let dashes := (Text.lineBefore before).length - indent
      (dashes < 65535 → ∃ report, fault.report? text = some report ∧ Text.LastLines report
        (margin ++ "| " ++ String.ofList (Text.trimEnd (line.dropWhile (· == ' '))))
        (String.ofList (List.replicate margin.length ' ') ++ "| " ++
          String.ofList (List.replicate dashes '-') ++ "^")) ∧
      (65535 ≤ dashes → fault.report? text = none)) ∧
    ∀ (name? : Option String) (fault : Fault), text.utf8ByteSize < UInt32.size →
      parseText text (name?.getD shell) = .error fault →
      (∃ before after, Text.splitAt? (min fault.position.offset.toNat text.utf8ByteSize)
        text.toList = some (before, after)) ∧
      ∀ report, fault.report? text = some report →
        ∃ upper stem, Text.LastLines report upper (stem ++ "^") ∧ '^' ∉ stem.toList ∧
          ∃ token ∈ tokenize text (name?.getD shell), token.start = fault.position ∧
            (∀ other ∈ tokenize text (name?.getD shell),
              other.start = fault.position → other = token) ∧
            (token.kind ≠ .endOfInput → token.value ≠ "" ∧
              ∃ front rest, upper = front ++ token.value ++ rest ∧ front.length = stem.length) ∧
            (token.kind = .endOfInput → ∃ gap, (∀ c ∈ gap.toList, Text.isBlank c = true) ∧
              (upper ++ gap).length = stem.length ∧
              ∀ c, Text.isBlank c = false → ∃ longer, fault.report? (text.push c) = some longer ∧
                Text.LastLines longer ((upper ++ gap).push c) (stem ++ "^")) := by
  refine ⟨fun fault before after h => ?_, fun name? fault hsize hparse => ?_⟩
  · intro line indent margin dashes
    have hdashes : dashes = ((Text.lineBefore before).dropWhile (· == ' ')).length :=
      Text.length_sub_indent _ (Text.lineAfter after)
    constructor
    · intro hfits
      rw [hdashes] at hfits ⊢
      exact exists_lastLines h hfits
    · intro hwide
      rw [report?_eq_none_iff, dashes_of_splitAt? h, ← hdashes]
      exact hwide
  · obtain ⟨token, htoken, before, after, hstart, hstands, htext, hoffset⟩ :=
      exists_standsAt_of_parse_error hsize hparse
    have hplace := Text.splitAt?_min htext hoffset
    have hunique : ∀ other ∈ tokenize text (name?.getD shell),
        other.start = fault.position → other = token := fun other hother hsame =>
      List.inj_on_of_nodup_map (nodup_start _ hsize) hother htoken (hsame.trans hstart.symm)
    refine ⟨⟨before, after, hplace⟩, fun report hreport => ?_⟩
    refine ⟨shownLine before after, caretStem before, lastLines_report? hplace hreport,
      caret_notMem_caretStem before, token, htoken, hstart, hunique, fun hkind => ?_,
      fun hkind => ?_⟩
    · have hafter : after ≠ [] := fun hnil => hkind (hstands.final.mpr hnil)
      have hvalue : token.value ≠ "" := fun hempty => hafter (hstands.empty.mp hempty)
      obtain ⟨rest, rfl⟩ := hstands.value
      have hshown := shownLine_word (by simpa using hvalue) (isBlank_of_mem_tokenize htoken)
        before rest
      rw [String.ofList_toList] at hshown
      exact ⟨hvalue, shownFront before, _, hshown, length_shownFront before⟩
    · obtain rfl : after = [] := hstands.final.mp hkind
      obtain ⟨gap, hgap, hfront⟩ := shownLine_nil before
      refine ⟨gap, hgap, ?_⟩
      rw [hfront]
      refine ⟨length_shownFront before, fun c hc => ?_⟩
      have hpush : (text.push c).toList = before ++ ([c] ++ []) := by
        rw [String.toList_push, htext, List.append_nil, List.append_nil]
      -- A further character at the end is a piece without white space that starts at the fault.
      have hshown : shownLine before ([c] ++ []) = (shownFront before).push c := by
        rw [shownLine_word (List.cons_ne_nil c []) (by simpa using hc)]
        exact String.toList_inj.mp (by simp [Text.lineAfter, Text.trimEnd])
      -- Nothing more is shown before the caret, so the longer text has a report as well.
      have hfits : ((Text.lineBefore before).dropWhile (· == ' ')).length < Text.maxWidth :=
        dashes_of_splitAt? hplace ▸ dashes_lt_of_report? hreport
      rw [← hshown]
      exact exists_lastLines (Text.splitAt?_min hpush hoffset) hfits

/-- In the second line of this text nothing is open that the parenthesis could close. The caret is
under the parenthesis, although `é` takes two bytes and the spaces at the start of the line are not
shown. -/
theorem Fault.report_caret_accented :
    let text := "a =\n   b +é )\n"
    let fault : Fault := ⟨.noPrefixRule ")", ⟨13, shell⟩⟩
    Text.splitAt? (min fault.position.offset.toNat text.utf8ByteSize) text.toList =
        some ("a =\n   b +é ".toList, ")\n".toList) ∧
      text.utf8ByteSize < UInt32.size ∧ parseText text = .error fault ∧
      ∃ report, fault.report? text = some report ∧
        Text.LastLines report "2 | b +é )" "  | -----^" ∧
        ∃ front rest stem, Text.LastLines report (front ++ ")" ++ rest) (stem ++ "^") ∧
          front.length = stem.length := by
  intro text fault
  have hsplit : Text.splitAt? (min fault.position.offset.toNat text.utf8ByteSize) text.toList =
      some ("a =\n   b +é ".toList, ")\n".toList) := by decide +kernel
  have hsize : text.utf8ByteSize < UInt32.size := by decide +kernel
  have hparse : parseText text (Option.getD none shell) = .error fault := by decide +kernel
  obtain ⟨hplaced, hparsed⟩ := Fault.report_caret text
  obtain ⟨report, hreport, hlast⟩ := (hplaced fault _ _ hsplit).1 (by decide)
  obtain ⟨upper, stem, hlast', -, token, -, -, hunique, hword, -⟩ :=
    (hparsed none fault hsize hparse).2 report hreport
  obtain rfl : ⟨.closeParen, ")", .between shell 13 14⟩ = token :=
    hunique _ (by decide +kernel) rfl
  obtain ⟨-, front, rest, rfl, hlength⟩ := hword (by decide)
  exact ⟨hsplit, hsize, hparse, report, hreport, hlast, front, rest, stem, hlast', hlength⟩

/-- Before the parenthesis of this text there are so many letters that a caret would be too far to
the right. The parse has a fault, at a place between two characters, but the fault has no report. -/
theorem Fault.report_caret_wide :
    let word := String.ofList (List.replicate 65535 'a')
    let fault : Fault := ⟨.unexpectedToken .endOfInput .closeParen, ⟨65535, shell⟩⟩
    (word.push ')').utf8ByteSize < UInt32.size ∧ parseText (word.push ')') = .error fault ∧
      Text.splitAt? (min fault.position.offset.toNat (word.push ')').utf8ByteSize)
        (word.push ')').toList = some (word.toList, [')']) ∧
      fault.report? (word.push ')') = none :=
  wide_unopened (by decide) (Nat.le_refl 65535)

/-- The input of this text ends too early. The space at its end is not shown, but the caret is
after it. -/
example : Fault.report? ⟨.noPrefixRule "", ⟨6, shell⟩⟩ " a\n + " =
    some ("Error: NoPrefixRule (Input ended where an expression was expected)\n-> shell\n  |\n" ++
      "2 | +\n  | --^") := by decide +kernel

end Precedence
