import Mathlib.Data.Nat.Digits.Defs
import Precedence.Proofs.LineOfByte

/-!
# The width of a report

Two parts of a report are padded, and a padded text has a greatest width. The margin in front of a
line is never too wide: the number of a line is one of a few digits, since there are no more lines
before a byte than bytes. So there is no report exactly if too many characters of the line are shown
before the caret, and otherwise it is known in full. The main statement is `Fault.report?_eq`.
-/

namespace Precedence

namespace Text

/-- Padding puts the filling characters before a text, if they are not too many. -/
theorem padLeft?_add_length (fill : Char) (count : Nat) (text : String) :
    padLeft? fill (count + text.length) text =
      if count + text.length ≤ maxWidth then
        some (String.ofList (List.replicate count fill) ++ text)
      else none := by
  have hpadded : String.ofList (text.toList.leftpad (count + text.length) fill) =
      String.ofList (List.replicate count fill) ++ text := by
    rw [List.leftpad, String.length_toList, Nat.add_sub_cancel, String.ofList_append,
      String.ofList_toList]
  rw [padLeft?, hpadded]

end Text

namespace Location

/-- There are no more lines before a byte than bytes. -/
theorem line_ofOffset_le (text : List Char) (offset : Nat) :
    (ofOffset text offset).line ≤ offset + 1 := by
  obtain ⟨before, line, after, hat, hfound⟩ := exists_lineAt text offset
  have hcount : before.count '\n' ≤ before.length := List.count_le_length
  have hlength := Text.length_le_byteLength before
  have hle := hat.le
  rw [ofOffset_of_some hfound]
  simp only
  omega

/-- The number of the line that holds a byte has ten digits at most, if its offset is one of 32
bits. -/
theorem length_repr_line_le (text : List Char) (offset : UInt32) :
    (ofOffset text offset.toNat).line.repr.length ≤ 10 := by
  have hline := line_ofOffset_le text offset.toNat
  have hoffset : offset.toNat < 2 ^ 32 := offset.toNat_lt
  exact Nat.repr_length _ 10 (by decide) (by omega)

end Location

/-- A report without the name of a file: what stands above that line and what stands below. -/
structure Report where
  above : String
  below : String
deriving DecidableEq, Repr, Inhabited

/-- The text of a report, with the line that names a file. -/
def Report.inFile (file : String) (report : Report) : String :=
  report.above ++ "\n" ++ "-> " ++ file ++ "\n" ++ report.below

namespace Fault

/-- The number of characters that the report of a fault shows before its caret. -/
def dashes (fault : Fault) (text : String) : Nat :=
  (Location.ofOffset text.toList fault.position.offset.toNat).dashes

/-- What the report of a fault says in every file. -/
def details (fault : Fault) (text : String) : Report :=
  let location := Location.ofOffset text.toList fault.position.offset.toNat
  let number := location.line.repr
  let margin := String.ofList (List.replicate (number.length + 1) ' ') ++ "|"
  let dashes := String.ofList (List.replicate location.dashes '-')
  ⟨fault.headline, margin ++ "\n" ++ number ++ " | " ++ String.ofList location.shown ++ "\n" ++
    margin ++ " " ++ dashes ++ "^"⟩

/-- A fault has a report unless too many characters are shown before the caret. -/
theorem report?_eq (fault : Fault) (text : String) :
    fault.report? text =
      if fault.dashes text < Text.maxWidth then
        some ((fault.details text).inFile fault.position.file)
      else none := by
  have hnumber := Location.length_repr_line_le text.toList fault.position.offset
  unfold report? dashes details
  generalize Location.ofOffset text.toList fault.position.offset.toNat = location at hnumber ⊢
  have hmargin : Text.padLeft? ' ' (location.line.repr.length + 2) "|" =
      some (String.ofList (List.replicate (location.line.repr.length + 1) ' ') ++ "|") := by
    have hwidth : location.line.repr.length + 1 + 1 ≤ Text.maxWidth :=
      Nat.le_trans (Nat.add_le_add_right hnumber 2) (by decide)
    have hpadded := Text.padLeft?_add_length ' ' (location.line.repr.length + 1) "|"
    rwa [show "|".length = 1 from rfl, if_pos hwidth] at hpadded
  have hcaret : Text.padLeft? '-' (location.dashes + 1) "^" =
      if location.dashes < Text.maxWidth then
        some (String.ofList (List.replicate location.dashes '-') ++ "^")
      else none :=
    Text.padLeft?_add_length '-' location.dashes "^"
  simp only [hmargin, hcaret, Option.bind_eq_bind, Option.bind_some]
  by_cases hfits : location.dashes < Text.maxWidth
  · simp only [if_pos hfits, Option.bind_some, Option.pure_def, Report.inFile, String.append_assoc]
  · simp only [if_neg hfits, Option.bind_none]

/-- Where there is a report, few enough characters are shown before the caret. -/
theorem dashes_lt_of_report? {fault : Fault} {text report : String}
    (h : fault.report? text = some report) : fault.dashes text < Text.maxWidth := by
  rw [report?_eq, Option.ite_none_right_eq_some] at h
  exact h.1

/-- There is no report exactly if too many characters are shown before the caret. -/
theorem report?_eq_none_iff {fault : Fault} {text : String} :
    fault.report? text = none ↔ Text.maxWidth ≤ fault.dashes text := by
  rw [report?_eq, ← Nat.not_lt]
  split <;> simp [*]

end Fault

end Precedence
