/-!
# Byte offsets in a text

A text is a list of characters, each of which takes one to four bytes. A byte
offset either falls between two characters or inside one; `Text.splitAt?` tells
the two cases apart.
-/

namespace Precedence.Text

/-- The number of bytes a text takes. -/
def byteLength : List Char → Nat
  | [] => 0
  | c :: text => c.utf8Size + byteLength text

/-- Cuts a text at a byte offset. There is no cut inside a character and none
past the end. -/
def splitAt? : Nat → List Char → Option (List Char × List Char)
  | 0, text => some ([], text)
  | _ + 1, [] => none
  | n + 1, c :: text =>
    if c.utf8Size ≤ n + 1 then
      (splitAt? (n + 1 - c.utf8Size) text).map fun (before, after) => (c :: before, after)
    else
      none

/-- The bytes of two texts add up. -/
theorem byteLength_append (left right : List Char) :
    byteLength (left ++ right) = byteLength left + byteLength right := by
  induction left with
  | nil => simp [byteLength]
  | cons c left ih => simp [byteLength, ih, Nat.add_assoc]

/-- Every character of a text takes a byte. -/
theorem length_le_byteLength (text : List Char) : text.length ≤ byteLength text := by
  induction text with
  | nil => exact Nat.le_refl 0
  | cons c text ih =>
    have hc := c.utf8Size_pos
    rw [List.length_cons, byteLength]
    omega

/-- A text counts as many bytes as the string made of it. -/
theorem byteLength_toList (s : String) : byteLength s.toList = s.utf8ByteSize := by
  have h : ∀ text : List Char, byteLength text = (String.ofList text).utf8ByteSize := by
    intro text
    induction text with
    | nil => rfl
    | cons c text ih =>
      rw [byteLength, ih, String.ofList_cons, String.utf8ByteSize_append,
        String.utf8ByteSize_singleton]
  rw [h, String.ofList_toList]

/-- A cut at `n` divides the text into `n` bytes and the rest. -/
theorem splitAt?_eq_some_iff {n : Nat} {text before after : List Char} :
    splitAt? n text = some (before, after) ↔ text = before ++ after ∧ byteLength before = n := by
  induction text generalizing n before with
  | nil =>
    cases n with
    | zero =>
      cases before <;> simp [splitAt?, byteLength, eq_comm]
    | succ n =>
      simp only [splitAt?, reduceCtorEq, false_iff, not_and]
      intro h
      obtain ⟨rfl, rfl⟩ := List.append_eq_nil_iff.mp h.symm
      simp [byteLength]
  | cons c text ih =>
    have hc := c.utf8Size_pos
    cases n with
    | zero =>
      cases before with
      | nil => simp [splitAt?, byteLength, eq_comm]
      | cons d before =>
        have hd := d.utf8Size_pos
        simp only [splitAt?, Option.some.injEq, Prod.mk.injEq, reduceCtorEq, false_and, byteLength,
          false_iff, not_and]
        omega
    | succ n =>
      simp only [splitAt?]
      split
      next hle =>
        simp only [Option.map_eq_some_iff, Prod.exists, Prod.mk.injEq]
        constructor
        · rintro ⟨left, right, hsplit, rfl, rfl⟩
          obtain ⟨rfl, hlen⟩ := ih.mp hsplit
          exact ⟨rfl, by simp only [byteLength]; omega⟩
        · rintro ⟨htext, hlen⟩
          cases before with
          | nil => simp [byteLength] at hlen
          | cons d left =>
            simp only [List.cons_append, List.cons.injEq] at htext
            obtain ⟨rfl, rfl⟩ := htext
            simp only [byteLength] at hlen
            exact ⟨left, after, ih.mpr ⟨rfl, by omega⟩, rfl, rfl⟩
      next hgt =>
        simp only [reduceCtorEq, false_iff, not_and]
        intro htext
        cases before with
        | nil => simp [byteLength]
        | cons d left =>
          simp only [List.cons_append, List.cons.injEq] at htext
          obtain ⟨rfl, rfl⟩ := htext
          simp only [byteLength]
          omega

end Precedence.Text
