import Precedence.Command.Batch
import Precedence.Proofs.LineOfByte

/-!
# Decoding line by line

A file is decoded as a whole and then cut into lines, and a standard input is cut into lines and
then decoded line by line. No character but the newline has the byte of the newline in it, so bytes
are cut where their characters would be, and bytes are a text exactly if each of their lines is one.
The main statement is `Command.Batch.ofInput_eq`.
-/

namespace Precedence

namespace Text

variable {α : Type} {ends : α → Bool}

/-- An item that ends a line is a line by itself if it comes first. -/
theorem segments_cons {item : α} (h : ends item = true) (items : List α) :
    segments ends (item :: items) = [item] :: segments ends items := by
  simp [segments, firstSegment, h]

/-- Items that end no line belong to the line after them. -/
theorem segments_append {front : List α} (h : ∀ item ∈ front, ends item = false)
    (items : List α) :
    segments ends (front ++ items) =
      (front ++ (firstSegment ends items).1) :: (firstSegment ends items).2 := by
  induction front with
  | nil => rfl
  | cons item front ih =>
    obtain ⟨hitem, hfront⟩ := List.forall_mem_cons.mp h
    obtain ⟨hfirst, hrest⟩ := List.cons.inj (ih hfront)
    simp [segments, firstSegment, hitem] at hfirst hrest ⊢
    exact ⟨hfirst, hrest⟩

/-- The bytes of pieces of a text are those of the whole text. -/
theorem flatten_map_utf8 (pieces : List (List Char)) :
    (pieces.map utf8).flatten = utf8 pieces.flatten := by
  induction pieces with
  | nil => rfl
  | cons piece pieces ih =>
    rw [List.map_cons, List.flatten_cons, List.flatten_cons, utf8_append, ih]

/-- The bytes of a text are cut into the bytes of its lines. -/
theorem segments_utf8 (text : List Char) :
    segments (· == 10) (utf8 text) = (segments isNewline text).map utf8 := by
  induction text with
  | nil => rfl
  | cons c text ih =>
    by_cases hc : c = '\n'
    · subst hc
      rw [segments_cons rfl, List.map_cons, ← ih]
      exact segments_cons rfl _
    · have hnone : 10 ∉ utf8 [c] := fun hmem =>
        hc (List.mem_singleton.mp (newline_mem_utf8_iff.mp hmem)).symm
      have hbytes : ∀ byte ∈ utf8 [c], (byte == 10) = false :=
        fun byte hbyte => beq_false_of_ne fun heq => hnone (heq ▸ hbyte)
      have hchar : ∀ d ∈ [c], isNewline d = false := by simpa [isNewline] using hc
      obtain ⟨hfirst, hrest⟩ := List.cons.inj ih
      rw [show c :: text = [c] ++ text from rfl, utf8_append, segments_append hbytes,
        segments_append hchar, List.map_cons, utf8_append, ← hfirst, hrest]

end Text

/-- A listing of bytes that has come to an index ends with all of them. -/
theorem toList_loop_take {bytes : ByteArray} {i : Nat} {read : List UInt8}
    (hread : read = (bytes.data.toList.take i).reverse) :
    ByteArray.toList.loop bytes i read = bytes.data.toList := by
  fun_induction ByteArray.toList.loop bytes i read with
  | case1 i read hlt ih =>
    have hi : i < bytes.data.toList.length := hlt
    have hbyte : bytes.get! i = bytes.data.toList[i] := getElem!_pos bytes.data i hlt
    apply ih
    rw [List.take_succ_eq_append_getElem hi, List.reverse_append, hread, hbyte]
    rfl
  | case2 i read hge =>
    have hlength : bytes.data.toList.length ≤ i := Nat.le_of_not_lt hge
    rw [hread, List.reverse_reverse, List.take_of_length_le hlength]

/-- The bytes of an array are listed in their order. -/
theorem toList_eq_toList_data (bytes : ByteArray) : bytes.toList = bytes.data.toList :=
  toList_loop_take rfl

/-- Bytes are decoded to the text that they are the bytes of. -/
theorem fromUTF8?_eq_some_iff {bytes : ByteArray} {text : String} :
    String.fromUTF8? bytes = some text ↔ bytes.data.toList = Text.utf8 text.toList := by
  have hbytes : text.toByteArray.data.toList = Text.utf8 text.toList := by
    rw [← Text.utf8_eq_toUTF8, String.ofList_toList]
    rfl
  rw [← hbytes]
  unfold String.fromUTF8?
  constructor
  · intro h
    split at h
    next hvalid =>
      cases h
      rfl
    next => cases h
  · intro h
    obtain rfl : bytes = text.toByteArray := ByteArray.ext (Array.toList_inj.mp h)
    exact dif_pos text.isValidUTF8

namespace Command.Batch

/-- A line of bytes is decoded to the characters that it is the bytes of. -/
theorem decodeLine_eq_some_iff {bytes : List UInt8} {line : List Char} :
    decodeLine bytes = some line ↔ bytes = Text.utf8 line := by
  rw [decodeLine, Option.map_eq_some_iff]
  constructor
  · rintro ⟨text, htext, rfl⟩
    rw [← fromUTF8?_eq_some_iff.mp htext, List.toList_data_toByteArray]
  · rintro rfl
    refine ⟨String.ofList line, fromUTF8?_eq_some_iff.mpr ?_, String.toList_ofList⟩
    rw [List.toList_data_toByteArray, String.toList_ofList]

/-- Lines of bytes are decoded one by one. -/
theorem mapM_decodeLine_eq_some_iff {segments : List (List UInt8)} {lines : List (List Char)} :
    segments.mapM decodeLine = some lines ↔ segments = lines.map Text.utf8 := by
  induction segments generalizing lines with
  | nil => cases lines <;> simp
  | cons segment segments ih =>
    rw [List.mapM_cons]
    cases lines with
    | nil => simp [Option.bind_eq_some_iff]
    | cons line lines => simp [Option.bind_eq_some_iff, decodeLine_eq_some_iff, ih]

/-- A standard input is decoded as a file of the same bytes is, but for the name. -/
theorem ofInput_eq (path : String) (bytes : ByteArray) :
    ofInput bytes = (ofFile path bytes).map fun batch => { batch with file := shell } := by
  unfold ofInput ofFile
  rw [toList_eq_toList_data]
  cases htext : String.fromUTF8? bytes with
  | some text =>
    rw [fromUTF8?_eq_some_iff.mp htext, Text.segments_utf8, mapM_decodeLine_eq_some_iff.mpr rfl]
    rfl
  | none =>
    cases hlines : (Text.segments (· == 10) bytes.data.toList).mapM decodeLine with
    | none => rfl
    | some lines =>
      have hsegments := mapM_decodeLine_eq_some_iff.mp hlines
      have hbytes : bytes.data.toList = Text.utf8 lines.flatten := by
        rw [← Text.flatten_segments (· == 10) bytes.data.toList, hsegments, Text.flatten_map_utf8]
      rw [← String.toList_ofList (l := lines.flatten), ← fromUTF8?_eq_some_iff, htext] at hbytes
      cases hbytes

/-- Bytes that are no text cannot be read from a file. -/
theorem ofFile_of_not_isValidUTF8 (path : String) {bytes : ByteArray}
    (h : ¬bytes.IsValidUTF8) : ofFile path bytes = .error .invalidText := by
  rw [ofFile, String.fromUTF8?, dif_neg h]

/-- Bytes that are a text are read from a file under the last component of its path. -/
theorem exists_ofFile (path : String) {bytes : ByteArray} (h : bytes.IsValidUTF8) :
    ∃ expressions, ofFile path bytes = .ok ⟨nameOf path, expressions⟩ := by
  rw [ofFile, String.fromUTF8?, dif_pos h]
  exact ⟨_, rfl⟩

end Command.Batch

end Precedence
