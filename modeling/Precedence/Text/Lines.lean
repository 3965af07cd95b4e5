/-!
# Lines

`segments` cuts a list after each item that ends a line. Every segment but the
last ends in such an item and the last, which may be empty, holds none, so
joining the segments gives the list back. The `lines` of a text are its segments
at newlines without an empty one at the end.
-/

namespace Precedence.Text

/-- The first segment of a list and the segments after it. -/
def firstSegment {α : Type} (ends : α → Bool) (items : List α) : List α × List (List α) :=
  items.foldr
    (fun item (first, rest) => if ends item then ([item], first :: rest) else (item :: first, rest))
    ([], [])

/-- Cuts a list after each item that ends a line. -/
def segments {α : Type} (ends : α → Bool) (items : List α) : List (List α) :=
  (firstSegment ends items).1 :: (firstSegment ends items).2

/-- Whether a character is the newline. -/
def isNewline (c : Char) : Bool := c == '\n'

/-- The lines of a text, each with the newline that ends it. Only the last may have none, and no
line is empty. -/
def lines (text : List Char) : List (List Char) :=
  (segments isNewline text).filter fun line => line ≠ []

/-- Joining the segments of a list gives the list back. -/
theorem flatten_segments {α : Type} (ends : α → Bool) (items : List α) :
    (segments ends items).flatten = items := by
  induction items with
  | nil => rfl
  | cons item items ih =>
    simp only [segments, firstSegment, List.foldr_cons, List.flatten_cons] at ih ⊢
    split
    · simp only [List.flatten_cons, ih, List.singleton_append]
    · simp only [List.cons_append, ih]

end Precedence.Text
