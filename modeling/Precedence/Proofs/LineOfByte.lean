import Mathlib.Data.List.Basic
import Precedence.Report

/-!
# The line of a byte

A search for a byte goes through the lines of a text with a count of bytes and a count of lines,
and treats the end of the text by itself. What it finds can be said at once: the line from the
last newline before the byte up to the next one, whose number is one more than the newlines before
the byte. The first half finds the characters of that line, the second reads them as bytes. The
main statement is `Location.ofOffset_eq_bytes`.
-/

namespace Precedence

namespace Text

/-- Lines as newlines cut them: each but the last has one newline, at its end, and the last has
none. -/
inductive Cut : List (List Char) → Prop where
  /-- The last line. It may be empty. -/
  | last {line : List Char} (hline : '\n' ∉ line) : Cut [line]
  /-- A line before others. -/
  | cons {line : List Char} {rest : List (List Char)} (hline : '\n' ∉ line) (hrest : Cut rest) :
      Cut ((line ++ ['\n']) :: rest)

/-- The segments of a text are lines as newlines cut them. -/
theorem cut_segments (text : List Char) : Cut (segments isNewline text) := by
  induction text with
  | nil => exact .last List.not_mem_nil
  | cons c text ih =>
    simp only [segments, firstSegment, List.foldr_cons] at ih ⊢
    generalize List.foldr _ _ text = tail at ih ⊢
    obtain ⟨first, rest⟩ := tail
    by_cases hc : isNewline c = true
    · rw [if_pos hc, show c = '\n' from eq_of_beq hc]
      exact .cons List.not_mem_nil ih
    · have hne : '\n' ≠ c := fun heq => hc (beq_iff_eq.mpr heq.symm)
      rw [if_neg hc]
      cases ih with
      | last hline => exact .last (List.not_mem_cons_of_ne_of_not_mem hne hline)
      | cons hline hrest => exact .cons (List.not_mem_cons_of_ne_of_not_mem hne hline) hrest

/-- What the line of a byte is. The text is cut into what is before that line, the line itself and
what is after it. The byte is in the line, which is ended by its only newline, or the line is the
last one without a newline and the byte may be at its end as well. -/
structure LineAt (text : List Char) (offset : Nat) (before line after : List Char) : Prop where
  text_eq : text = before ++ (line ++ after)
  starts : before = [] ∨ before.getLast? = some '\n'
  le : byteLength before ≤ offset
  stops : (∃ body, line = body ++ ['\n'] ∧ '\n' ∉ body ∧
      offset < byteLength before + byteLength line) ∨
    '\n' ∉ line ∧ after = [] ∧ offset ≤ byteLength before + byteLength line

end Text

namespace Location

/-- At the end of a text whose lines all end with a newline there is an empty line. -/
theorem ofEnd?_of_newline {number : Nat} {lines : List (List Char)}
    (h : ∀ line ∈ lines.getLast?, line.getLast? = some '\n') :
    ofEnd? number lines = some ⟨number, [], 0⟩ := by
  unfold ofEnd?
  cases hlast : lines.getLast? with
  | none => rfl
  | some line => exact if_pos (h line hlast)

/-- At the end of a text whose last line is not ended there is the end of that line. -/
theorem ofEnd?_of_open {number : Nat} {lines : List (List Char)} {line : List Char}
    (hline : '\n' ∉ line) :
    ofEnd? (number + 1) (lines ++ [line]) = some ⟨number, line, Text.byteLength line⟩ := by
  have hopen : line.getLast? ≠ some '\n' := fun h => hline (List.mem_of_getLast? h)
  simp [ofEnd?, hopen, distance?]

/-- A search that has come no further than the byte finds it in the next line or goes on after
that line. -/
theorem scan?_cons {offset start : Nat} (hstart : start ≤ offset) (lines : List (List Char))
    (number : Nat) (line : List Char) (rest : List (List Char)) :
    scan? lines offset start number (line :: rest) =
      if offset < start + Text.byteLength line then some ⟨number, line, offset - start⟩
      else scan? lines offset (start + Text.byteLength line) (number + 1) rest := by
  simp [scan?, distance?, hstart]

/-- The search for a byte, from where it has read the lines `read`, which are the characters
`before`, and has still to read the lines `rest`. -/
theorem scan?_of_cut {rest : List (List Char)} (hrest : Text.Cut rest) {offset : Nat}
    (read : List (List Char)) (before : List Char)
    (hread : ∀ line ∈ read.getLast?, line.getLast? = some '\n')
    (hstarts : before = [] ∨ before.getLast? = some '\n')
    (hlow : Text.byteLength before ≤ offset)
    (hhigh : offset ≤ Text.byteLength before + Text.byteLength rest.flatten) :
    ∃ done line after, Text.LineAt (before ++ rest.flatten) offset done line after ∧
      scan? (read ++ rest.filter (· ≠ [])) offset (Text.byteLength before)
        (1 + before.count '\n') (rest.filter (· ≠ [])) =
        some ⟨1 + done.count '\n', line, offset - Text.byteLength done⟩ := by
  induction hrest generalizing read before with
  | @last line hline =>
    rw [List.flatten_singleton] at hhigh ⊢
    have hat : Text.LineAt (before ++ line) offset before line [] :=
      ⟨by rw [List.append_nil], hstarts, hlow, .inr ⟨hline, rfl, hhigh⟩⟩
    refine ⟨before, line, [], hat, ?_⟩
    by_cases hempty : line = []
    · subst hempty
      have hoffset : offset - Text.byteLength before = 0 := Nat.sub_eq_zero_of_le hhigh
      rw [hoffset]
      simpa [scan?] using ofEnd?_of_newline hread
    · have hfilter : [line].filter (· ≠ []) = [line] := by simp [hempty]
      rw [hfilter, scan?_cons hlow]
      split
      next => rfl
      next hpast =>
        have hoffset : offset - Text.byteLength before = Text.byteLength line := by omega
        rw [hoffset]
        exact ofEnd?_of_open hline
  | @cons line rest hline hrest ih =>
    have hfilter : ((line ++ ['\n']) :: rest).filter (· ≠ []) =
        (line ++ ['\n']) :: rest.filter (· ≠ []) := by simp
    rw [hfilter, scan?_cons hlow, List.flatten_cons]
    rw [List.flatten_cons, Text.byteLength_append] at hhigh
    split
    next hhere =>
      exact ⟨before, line ++ ['\n'], rest.flatten,
        ⟨rfl, hstarts, hlow, .inl ⟨line, rfl, hline, hhere⟩⟩, rfl⟩
    next hpast =>
      -- The newline at the end of the line is counted when the search goes on after it.
      have hcount : 1 + before.count '\n' + 1 = 1 + (before ++ (line ++ ['\n'])).count '\n' := by
        rw [List.count_append, List.count_append, List.count_eq_zero_of_not_mem hline]
        rfl
      obtain ⟨done, found, after, hat, hscan⟩ :=
        ih (read ++ [line ++ ['\n']]) (before ++ (line ++ ['\n'])) (by simp) (by simp)
          (by rw [Text.byteLength_append]; omega) (by rw [Text.byteLength_append]; omega)
      refine ⟨done, found, after, by rwa [List.append_assoc] at hat, ?_⟩
      rw [hcount, ← Text.byteLength_append]
      rwa [List.append_assoc, List.singleton_append] at hscan

/-- The search for a byte finds the line of that byte, or of the end of the text. -/
theorem exists_lineAt (text : List Char) (offset : Nat) :
    ∃ before line after,
      Text.LineAt text (min offset (Text.byteLength text)) before line after ∧
      ofOffset? text offset = some ⟨1 + before.count '\n', line,
        min offset (Text.byteLength text) - Text.byteLength before⟩ := by
  have hflatten := Text.flatten_segments Text.isNewline text
  have hhigh : min offset (Text.byteLength text) ≤
      Text.byteLength [] + Text.byteLength (Text.segments Text.isNewline text).flatten := by
    rw [hflatten, Text.byteLength]
    omega
  obtain ⟨before, line, after, hat, hscan⟩ :=
    scan?_of_cut (Text.cut_segments text) [] [] (by simp) (.inl rfl) (Nat.zero_le _) hhigh
  rw [hflatten] at hat
  exact ⟨before, line, after, hat, hscan⟩

/-- The location of a byte is what the search for it finds. -/
theorem ofOffset_of_some {text : List Char} {offset : Nat} {location : Location}
    (h : ofOffset? text offset = some location) : ofOffset text offset = location :=
  Option.get_of_eq_some _ h

end Location

namespace Text

/-- The bytes of a text. -/
def utf8 (text : List Char) : List UInt8 := text.flatMap String.utf8EncodeChar

/-- The bytes of a text and those of another one after it. -/
theorem utf8_append (text more : List Char) : utf8 (text ++ more) = utf8 text ++ utf8 more :=
  List.flatMap_append

/-- There are as many bytes as the characters take. -/
theorem length_utf8 (text : List Char) : (utf8 text).length = byteLength text := by
  induction text with
  | nil => rfl
  | cons c text ih =>
    rw [utf8, List.flatMap_cons, List.length_append, String.length_utf8EncodeChar, byteLength, ← ih]
    rfl

/-- The bytes of a string are those of its characters. -/
theorem utf8_eq_toUTF8 (text : List Char) :
    (String.ofList text).toUTF8.data.toList = utf8 text := by
  rw [String.toUTF8, String.toByteArray_ofList, List.utf8Encode, List.toList_data_toByteArray, utf8]

/-- No character but the newline has the byte of the newline in it. -/
theorem newline_notMem_utf8EncodeChar {c : Char} (h : c ≠ '\n') :
    10 ∉ String.utf8EncodeChar c := by
  have hcode : c.val.toNat ≠ 10 := fun hval => h (Char.ext (UInt32.toNat_inj.mp hval))
  have hne : ∀ n, n % 256 ≠ 10 → (10 : UInt8) ≠ UInt8.ofNat n := by
    intro n hn heq
    rw [← UInt8.toNat_ofNat', ← heq] at hn
    exact hn rfl
  -- A character of one byte is that byte, and every byte of a longer one is 128 or more.
  unfold String.utf8EncodeChar
  simp only
  split
  · exact List.not_mem_cons_of_ne_of_not_mem (hne _ (by omega)) List.not_mem_nil
  · split
    · simp only [List.mem_cons, List.not_mem_nil, or_false, not_or]
      exact ⟨hne _ (by omega), hne _ (by omega)⟩
    · split
      · simp only [List.mem_cons, List.not_mem_nil, or_false, not_or]
        exact ⟨hne _ (by omega), hne _ (by omega), hne _ (by omega)⟩
      · simp only [List.mem_cons, List.not_mem_nil, or_false, not_or]
        exact ⟨hne _ (by omega), hne _ (by omega), hne _ (by omega), hne _ (by omega)⟩

/-- There are as many newlines among the bytes of a text as among its characters. -/
theorem count_utf8 (text : List Char) : (utf8 text).count 10 = text.count '\n' := by
  induction text with
  | nil => rfl
  | cons c text ih =>
    rw [utf8, List.flatMap_cons, List.count_append, ← utf8, ih, List.count_cons]
    by_cases hc : c = '\n'
    · subst hc
      exact Nat.add_comm _ _
    · rw [List.count_eq_zero_of_not_mem (newline_notMem_utf8EncodeChar hc), if_neg (by simp [hc])]
      exact Nat.zero_add _

/-- The byte of the newline is there exactly if the newline is. -/
theorem newline_mem_utf8_iff {text : List Char} : 10 ∈ utf8 text ↔ '\n' ∈ text := by
  rw [← List.count_pos_iff, count_utf8, List.count_pos_iff]

/-- Byte `start` is just after the last newline before byte `p`, or is the first byte if there is
none. -/
def IsLineStart (bytes : List UInt8) (p start : Nat) : Prop :=
  (∃ i < p, bytes[i]? = some 10 ∧ (∀ j, i < j → j < p → bytes[j]? ≠ some 10) ∧ start = i + 1) ∨
    (∀ j < p, bytes[j]? ≠ some 10) ∧ start = 0

/-- Byte `stop` is just after the first newline at byte `p` or later, or is the end if there is
none. -/
def IsLineStop (bytes : List UInt8) (p stop : Nat) : Prop :=
  (∃ i ≥ p, bytes[i]? = some 10 ∧ (∀ j, p ≤ j → j < i → bytes[j]? ≠ some 10) ∧ stop = i + 1) ∨
    (∀ j ≥ p, bytes[j]? ≠ some 10) ∧ stop = bytes.length

/-- Where the characters are no newlines, the bytes are none. -/
theorem getElem?_utf8_ne {before body rest : List Char} (hbody : '\n' ∉ body) {i : Nat}
    (hlow : byteLength before ≤ i) (hhigh : i < byteLength before + byteLength body) :
    (utf8 (before ++ (body ++ rest)))[i]? ≠ some 10 := by
  rw [utf8_append, List.getElem?_append_right (by rwa [length_utf8]), utf8_append,
    List.getElem?_append_left (by rw [length_utf8, length_utf8]; omega)]
  exact fun h => hbody (newline_mem_utf8_iff.mp (List.mem_of_getElem? h))

/-- Where the characters have a newline, the bytes have it. -/
theorem getElem?_utf8_newline (before rest : List Char) :
    (utf8 (before ++ '\n' :: rest))[byteLength before]? = some 10 := by
  rw [utf8_append, List.getElem?_append_right (Nat.le_of_eq (length_utf8 before)), length_utf8,
    Nat.sub_self]
  rfl

namespace LineAt

variable {text before line after : List Char} {p : Nat}

/-- From the start of a line up to a byte of it there is no newline. -/
theorem exists_body (h : LineAt text p before line after) :
    ∃ body rest, line ++ after = body ++ rest ∧ '\n' ∉ body ∧
      p ≤ byteLength before + byteLength body := by
  rcases h.stops with ⟨body, rfl, hbody, hlt⟩ | ⟨hline, rfl, hle⟩
  · have hend : byteLength (body ++ ['\n']) = byteLength body + 1 := byteLength_append body _
    exact ⟨body, ['\n'] ++ after, List.append_assoc _ _ _, hbody, by omega⟩
  · exact ⟨line, [], rfl, hline, hle⟩

/-- The line of a byte starts after the last newline before the byte. -/
theorem isLineStart (h : LineAt text p before line after) :
    IsLineStart (utf8 text) p (byteLength before) := by
  obtain ⟨body, rest, hsplit, hbody, hle⟩ := h.exists_body
  have hnone : ∀ i, byteLength before ≤ i → i < p → (utf8 text)[i]? ≠ some 10 := by
    intro i hlow hi
    rw [h.text_eq, hsplit]
    exact getElem?_utf8_ne hbody hlow (by omega)
  rcases h.starts with rfl | hnewline
  · exact .inr ⟨fun i hi => hnone i (Nat.zero_le i) hi, rfl⟩
  · obtain ⟨front, rfl⟩ := List.getLast?_eq_some_iff.mp hnewline
    have hfront : byteLength (front ++ ['\n']) = byteLength front + 1 := byteLength_append front _
    have hstart := h.le
    refine .inl ⟨byteLength front, by omega, ?_, fun i hlow hi => hnone i (by omega) hi, hfront⟩
    rw [h.text_eq, List.append_assoc]
    exact getElem?_utf8_newline front _

/-- The line of a byte stops after the first newline at the byte or later. -/
theorem isLineStop (h : LineAt text p before line after) :
    IsLineStop (utf8 text) p (byteLength before + byteLength line) := by
  have hstart := h.le
  rcases h.stops with ⟨body, rfl, hbody, hlt⟩ | ⟨hline, rfl, hle⟩
  · have hend : byteLength (body ++ ['\n']) = byteLength body + 1 := byteLength_append body _
    have htext : text = before ++ (body ++ ('\n' :: after)) := by
      rw [h.text_eq, List.append_assoc]
      rfl
    refine .inl ⟨byteLength before + byteLength body, by omega, ?_, fun i hlow hi => ?_, by omega⟩
    · rw [htext, ← List.append_assoc, ← byteLength_append]
      exact getElem?_utf8_newline _ after
    · rw [htext]
      exact getElem?_utf8_ne hbody (by omega) hi
  · have hlength : (utf8 text).length = byteLength before + byteLength line := by
      rw [length_utf8, h.text_eq, List.append_nil, byteLength_append]
    refine .inr ⟨fun i hi => ?_, hlength.symm⟩
    by_cases hin : i < byteLength before + byteLength line
    · rw [h.text_eq]
      exact getElem?_utf8_ne hline (by omega) hin
    · rw [List.getElem?_eq_none (by omega)]
      exact nofun

/-- The newlines before a byte are those before its line. -/
theorem count_take (h : LineAt text p before line after) :
    ((utf8 text).take p).count 10 = before.count '\n' := by
  obtain ⟨body, rest, hsplit, hbody, hle⟩ := h.exists_body
  have hpast : ((utf8 (line ++ after)).take (p - byteLength before)).count 10 = 0 := by
    rw [hsplit, utf8_append, List.take_append_of_le_length (by rw [length_utf8]; omega)]
    exact List.count_eq_zero_of_not_mem fun hmem =>
      hbody (newline_mem_utf8_iff.mp (List.mem_of_mem_take hmem))
  rw [h.text_eq, utf8_append, List.take_append, List.count_append, length_utf8, hpast,
    List.take_of_length_le (by rw [length_utf8]; exact h.le), count_utf8]
  rfl

/-- The bytes of a line are those from its start up to its end. -/
theorem utf8_line (h : LineAt text p before line after) :
    utf8 line =
      ((utf8 text).take (byteLength before + byteLength line)).drop (byteLength before) := by
  have hlength : byteLength before + byteLength line = (utf8 (before ++ line)).length := by
    rw [length_utf8, byteLength_append]
  rw [h.text_eq, ← List.append_assoc, utf8_append, hlength, List.take_left, utf8_append,
    ← length_utf8 before, List.drop_left]

end LineAt

end Text

/-- The location of a byte in a text, said of the bytes of the text at once. An offset past the end
counts as the end, `p`. The line starts after the last newline before byte `p` and stops after the
first one from `p` on. Its number is one more than the newlines before `p`, and the column is how
far `p` is from its start. No difference that is taken on the way is negative: the search that
fails at such a difference does not fail. -/
theorem Location.ofOffset_eq_bytes (content : String) (offset : Nat) :
    Location.ofOffset? content.toList offset = some (Location.ofOffset content.toList offset) ∧
    let bytes := content.toUTF8.data.toList
    let p := min offset bytes.length
    let location := Location.ofOffset content.toList offset
    ∃ start stop, Text.IsLineStart bytes p start ∧ Text.IsLineStop bytes p stop ∧ start ≤ p ∧
      location.line = 1 + (bytes.take p).count 10 ∧
      (String.ofList location.text).toUTF8.data.toList = (bytes.take stop).drop start ∧
      location.column = p - start := by
  obtain ⟨text, rfl⟩ : ∃ text, content = String.ofList text := ⟨_, String.ofList_toList.symm⟩
  rw [String.toList_ofList, Text.utf8_eq_toUTF8]
  obtain ⟨before, line, after, hat, hfound⟩ := Location.exists_lineAt text offset
  have hlocation := Location.ofOffset_of_some hfound
  rw [hlocation]
  refine ⟨hfound, ?_⟩
  intro bytes p location
  have hp : min offset (Text.byteLength text) = p :=
    congrArg (min offset) (Text.length_utf8 text).symm
  rw [hp] at hat
  refine ⟨_, _, hat.isLineStart, hat.isLineStop, hat.le, ?_, ?_, ?_⟩
  · exact congrArg (1 + ·) hat.count_take.symm
  · rw [Text.utf8_eq_toUTF8]
    exact hat.utf8_line
  · exact congrArg (· - Text.byteLength before) hp

/-- A byte inside a character of the last line, which no newline ends. -/
example : Location.ofOffset "a\né".toList 3 = ⟨2, ['é'], 1⟩ := by decide +kernel

/-- An offset past a newline at the end. -/
example : Location.ofOffset "a\n".toList 9 = ⟨2, [], 0⟩ := by decide +kernel

end Precedence
