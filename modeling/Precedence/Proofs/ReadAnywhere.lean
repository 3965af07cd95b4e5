import Precedence.Proofs.IgnoredText

/-!
# Reading on from anywhere

A cursor may be moved to any byte between two readings, and it may go back to where it was. What
it reads depends on nothing but the byte where it stands: inside of a character it reads nothing,
at the end and past it the end mark, and between two characters the first token of the text that
is left. It then stands between two characters again, so readings alone never fail. The main
statement is `Cursor.reads_anywhere`.
-/

namespace Precedence

namespace Cursor

/-- What can be done with a cursor. -/
inductive Move where
  /-- The next token is read. -/
  | next
  /-- The cursor goes some bytes further on. -/
  | advance (bytes : Nat)
  /-- The cursor is kept for later. -/
  | save
  /-- The cursor goes back to one that was kept, when so many others have been kept since. -/
  | restore (since : Nat)
deriving DecidableEq, Repr, Inhabited

/-- A cursor, and those that were kept, the last one first. -/
structure Marked where
  cursor : Cursor
  kept : List Cursor
deriving DecidableEq, Repr, Inhabited

/-- A cursor at the start of a text, which is kept as well. -/
def Marked.ofText (text file : String) : Marked := ⟨.ofText text file, [.ofText text file]⟩

namespace Move

/-- The cursors after a move. A move that fails changes nothing. -/
def apply (marked : Marked) : Move → Marked
  | next =>
    match marked.cursor.next? with
    | some (_, after) => { marked with cursor := after }
    | none => marked
  | advance bytes =>
    match marked.cursor.advance? bytes with
    | some after => { marked with cursor := after }
    | none => marked
  | save => { marked with kept := marked.cursor :: marked.kept }
  | restore since => { marked with cursor := marked.kept[since]?.getD marked.cursor }

/-- The cursors after moves made one after the other. -/
def applyAll (marked : Marked) (moves : List Move) : Marked := moves.foldl apply marked

end Move

/-- A cursor somewhere in a text that has a name. -/
def IsIn (text file : String) (cursor : Cursor) : Prop := ∃ offset, cursor = ⟨file, text, offset⟩

/-- A cursor that stands between two characters, or past the end. -/
def Ready (cursor : Cursor) : Prop :=
  cursor.text.utf8ByteSize ≤ cursor.offset ∨ (String.Pos.Raw.mk cursor.offset).IsValid cursor.text

/-- The first token of a text, and the byte where it stops. An end mark stops at the end of the
text, and any other token behind its own characters, before which others are skipped. -/
structure IsFirst (file text : String) (token : Token) (stop : Nat) : Prop where
  head : (tokenize text file).head? = some token
  of_end : token.kind = .endOfInput →
    token = .endMark (.between file text.utf8ByteSize text.utf8ByteSize) ∧
      stop = text.utf8ByteSize
  of_ne : token.kind ≠ .endOfInput → ∃ skipped rest,
    text.toList = skipped ++ (token.value.toList ++ rest) ∧ (∀ c ∈ skipped, IsIgnored c) ∧
      stop = Text.byteLength (skipped ++ token.value.toList)

variable {cursor after : Cursor} {token : Token} {text file before rest : String} {offset : Nat}

/-- A byte of a text is between two characters exactly if the text can be cut there. -/
theorem isValid_iff_splitAt? :
    (String.Pos.Raw.mk offset).IsValid text ↔
      ∃ left right, Text.splitAt? offset text.toList = some (left, right) := by
  rw [String.Pos.Raw.isValid_iff_exists_append]
  constructor
  · rintro ⟨left, right, rfl, hoffset⟩
    refine ⟨left.toList, right.toList, Text.splitAt?_eq_some_iff.mpr ⟨String.toList_append, ?_⟩⟩
    rw [Text.byteLength_toList]
    exact (congrArg String.Pos.Raw.byteIdx hoffset).symm
  · rintro ⟨left, right, hcut⟩
    obtain ⟨htext, hoffset⟩ := Text.splitAt?_eq_some_iff.mp hcut
    refine ⟨String.ofList left, String.ofList right, ?_, ?_⟩
    · rw [← String.ofList_append, ← htext, String.ofList_toList]
    · rw [← hoffset, ← String.toList_ofList (l := left), Text.byteLength_toList,
        String.toList_ofList]
      rfl

/-- At the end and past it a cursor reads the end mark and stays where it is. -/
theorem next?_of_ge (h : cursor.text.utf8ByteSize ≤ cursor.offset) :
    cursor.next? = some (.endMark (.between cursor.file cursor.text.utf8ByteSize
      cursor.text.utf8ByteSize), cursor) := by
  rw [next?, atEnd, decide_eq_true h, if_pos rfl]

/-- A cursor reads nothing exactly if it stands inside of a character. -/
theorem next?_eq_none_iff : cursor.next? = none ↔ ¬ cursor.Ready := by
  unfold Ready
  by_cases hend : cursor.text.utf8ByteSize ≤ cursor.offset
  · rw [next?_of_ge hend]
    exact iff_of_false nofun fun h => h (.inl hend)
  · rw [next?, atEnd, decide_eq_false hend, if_neg Bool.false_ne_true, Option.map_eq_none_iff,
      remainder?, Option.map_eq_none_iff, isValid_iff_splitAt?]
    rw [or_iff_right hend, ← Option.not_isSome_iff_eq_none, Option.isSome_iff_exists, Prod.exists]

/-- The first token of a text is the one that a scanner reads at its start, and it stops where the
scanner does. -/
theorem isFirst_scan (text file : String) :
    IsFirst file text (Scanner.scan file 0 text.toList).1
      (Scanner.scan file 0 text.toList).2.offset := by
  have hhead : (tokenize text file).head? = some (Scanner.scan file 0 text.toList).1 := by
    rw [tokenize, Scanner.tokens]
    split <;> rfl
  have hapart : Text.Apart [] text.toList := fun c hc => absurd hc (by simp)
  have hcases := Scanner.scan_cases hapart file
  rw [show Text.byteLength [] = 0 from rfl] at hcases
  rcases hcases with ⟨-, hscan⟩ |
    ⟨lexeme, skipped, rest, hoccurs, hbefore, hskipped, htext, -, hscan⟩
  · rw [hscan] at hhead ⊢
    rw [List.nil_append, Text.byteLength_toList] at hhead ⊢
    exact ⟨hhead, fun _ => ⟨rfl, rfl⟩, fun hkind => absurd rfl hkind⟩
  · rw [hscan] at hhead ⊢
    refine ⟨hhead, fun hkind => absurd hkind hoccurs.kind_ne_endOfInput, fun _ => ?_⟩
    refine ⟨skipped, rest, ?_, hskipped, ?_⟩
    · rw [htext, Lexeme.token, String.toList_ofList]
    · rw [Lexeme.token, String.toList_ofList, Text.byteLength_append, Lexeme.stop, Lexeme.start,
        hbefore]
      rfl

/-- The first token of a text stops between two characters. -/
theorem IsFirst.isValid {stop : Nat} (h : IsFirst file text token stop) :
    (String.Pos.Raw.mk stop).IsValid text := by
  by_cases hkind : token.kind = .endOfInput
  · rw [(h.of_end hkind).2]
    exact String.Pos.Raw.isValid_rawEndPos
  · obtain ⟨skipped, rest, htext, -, rfl⟩ := h.of_ne hkind
    rw [← List.append_assoc] at htext
    exact isValid_iff_splitAt?.mpr ⟨_, rest, Text.splitAt?_eq_some_iff.mpr ⟨htext, rfl⟩⟩

/-- Between two characters a cursor reads the first token of the text that is left, at a place as
much later as the cursor stands. -/
theorem reads_of_append (htext : cursor.text = before ++ rest)
    (hoffset : cursor.offset = before.utf8ByteSize) :
    ∃ token stop, IsFirst cursor.file rest token stop ∧ cursor.next? =
      some (token.later cursor.offset, { cursor with offset := cursor.offset + stop }) := by
  have hcut : cursor.text.toList = before.toList ++ rest.toList := by
    rw [htext, String.toList_append]
  have hread := next?_of_append hcut (hoffset.trans (Text.byteLength_toList before).symm)
  have hlater := Scanner.scan_later cursor.file 0 cursor.offset rest.toList
  rw [Nat.zero_add] at hlater
  rw [hlater] at hread
  refine ⟨_, _, isFirst_scan rest cursor.file, ?_⟩
  rw [hread, Nat.add_comm cursor.offset]

/-- A cursor that reads the end mark is at the end of its text afterwards, or past it, and that is
where the mark is. A cursor that reads anything is in the same text afterwards and ready to read
on. -/
theorem next?_eq_some (h : cursor.next? = some (token, after)) :
    after.IsIn cursor.text cursor.file ∧ after.Ready ∧
      (token.kind = .endOfInput → cursor.text.utf8ByteSize ≤ after.offset ∧
        token = .endMark
          (.between cursor.file cursor.text.utf8ByteSize cursor.text.utf8ByteSize)) := by
  by_cases hend : cursor.text.utf8ByteSize ≤ cursor.offset
  · rw [next?_of_ge hend] at h
    cases h
    exact ⟨⟨cursor.offset, rfl⟩, .inl hend, fun _ => ⟨hend, rfl⟩⟩
  · have hready : cursor.Ready := by
      by_contra hnot
      rw [next?_eq_none_iff.mpr hnot] at h
      cases h
    obtain ⟨before, rest, hcut, hbyte⟩ :=
      String.Pos.Raw.isValid_iff_exists_append.mp (hready.resolve_left hend)
    have hoffset : cursor.offset = before.utf8ByteSize := congrArg String.Pos.Raw.byteIdx hbyte
    obtain ⟨first, stop, hfirst, hread⟩ := reads_of_append hcut hoffset
    rw [hread] at h
    cases h
    refine ⟨⟨_, rfl⟩, .inr ?_, fun hkind => ?_⟩
    · change (String.Pos.Raw.mk (cursor.offset + stop)).IsValid cursor.text
      rw [hcut, hoffset]
      exact hfirst.isValid.append_left before
    · obtain ⟨rfl, rfl⟩ := hfirst.of_end hkind
      have hsize : cursor.text.utf8ByteSize = rest.utf8ByteSize + cursor.offset := by
        rw [hcut, String.utf8ByteSize_append, hoffset, Nat.add_comm]
      rw [hsize, Span.between_add]
      exact ⟨(Nat.add_comm _ _).le, rfl⟩

/-- A cursor that is moved on is in the same text, some bytes further on. -/
theorem eq_of_advance? {bytes : Nat} (h : cursor.advance? bytes = some after) :
    after = { cursor with offset := cursor.offset + bytes } := by
  unfold advance? at h
  split at h
  · exact (Option.some.inj h).symm
  · cases h

/-- A cursor that is in the text of another one is where that one is. -/
theorem IsIn.trans (h : cursor.IsIn text file) (hafter : after.IsIn cursor.text cursor.file) :
    after.IsIn text file := by
  obtain ⟨offset, rfl⟩ := h
  exact hafter

/-- A cursor at the end of a text that has a name, or past it. -/
def IsPast (text file : String) (cursor : Cursor) : Prop :=
  ∃ offset, text.utf8ByteSize ≤ offset ∧ cursor = ⟨file, text, offset⟩

namespace Move

variable {marked : Marked} {moves : List Move}

/-- A reading that fails changes nothing. -/
theorem apply_next_of_none (h : marked.cursor.next? = none) : next.apply marked = marked := by
  rw [apply, h]

/-- A reading that gives a token leaves the cursor where the reading does. -/
theorem apply_next_of_some (h : marked.cursor.next? = some (token, after)) :
    next.apply marked = { marked with cursor := after } := by
  rw [apply, h]

/-- No move leads to another text. -/
theorem isIn_apply (hcursor : marked.cursor.IsIn text file)
    (hkept : ∀ cursor ∈ marked.kept, cursor.IsIn text file) (move : Move) :
    (move.apply marked).cursor.IsIn text file ∧
      ∀ cursor ∈ (move.apply marked).kept, cursor.IsIn text file := by
  cases move with
  | next =>
    rw [apply]
    split
    next token after hnext => exact ⟨hcursor.trans (next?_eq_some hnext).1, hkept⟩
    next => exact ⟨hcursor, hkept⟩
  | advance bytes =>
    rw [apply]
    split
    next after hafter => exact ⟨hcursor.trans ⟨_, eq_of_advance? hafter⟩, hkept⟩
    next => exact ⟨hcursor, hkept⟩
  | save => exact ⟨hcursor, List.forall_mem_cons.mpr ⟨hcursor, hkept⟩⟩
  | restore since =>
    refine ⟨?_, hkept⟩
    rw [apply]
    cases hfound : marked.kept[since]? with
    | none => exact hcursor
    | some found => exact hkept found (List.mem_of_getElem? hfound)

/-- No moves lead to another text. -/
theorem isIn_applyAll (hcursor : marked.cursor.IsIn text file)
    (hkept : ∀ cursor ∈ marked.kept, cursor.IsIn text file) (moves : List Move) :
    (applyAll marked moves).cursor.IsIn text file := by
  induction moves generalizing marked with
  | nil => exact hcursor
  | cons move moves ih =>
    obtain ⟨hafter, hlater⟩ := isIn_apply hcursor hkept move
    exact ih hafter hlater

/-- Readings alone leave a cursor ready to read on. -/
theorem ready_applyAll (h : marked.cursor.Ready) (hmoves : ∀ move ∈ moves, move = next) :
    (applyAll marked moves).cursor.Ready := by
  induction moves generalizing marked with
  | nil => exact h
  | cons move moves ih =>
    obtain ⟨rfl, hrest⟩ := List.forall_mem_cons.mp hmoves
    refine ih ?_ hrest
    rw [apply]
    split
    next token after hnext => exact (next?_eq_some hnext).2.1
    next => exact h

/-- From the end of a text no move but a return leads back. -/
theorem isPast_apply (h : marked.cursor.IsPast text file) {move : Move}
    (hmove : ∀ since, move ≠ restore since) : (move.apply marked).cursor.IsPast text file := by
  cases move with
  | next =>
    rw [apply]
    split
    next token after hnext =>
      obtain ⟨offset, hle, hcursor⟩ := h
      rw [hcursor, next?_of_ge hle] at hnext
      cases hnext
      exact ⟨offset, hle, rfl⟩
    next => exact h
  | advance bytes =>
    rw [apply]
    split
    next after hafter =>
      obtain ⟨offset, hle, hcursor⟩ := h
      rw [hcursor] at hafter
      exact ⟨offset + bytes, by omega, eq_of_advance? hafter⟩
    next => exact h
  | save => exact h
  | restore since => exact absurd rfl (hmove since)

/-- From the end of a text no moves without a return lead back. -/
theorem isPast_applyAll (h : marked.cursor.IsPast text file)
    (hmoves : ∀ move ∈ moves, ∀ since, move ≠ restore since) :
    (applyAll marked moves).cursor.IsPast text file := by
  induction moves generalizing marked with
  | nil => exact h
  | cons move moves ih =>
    obtain ⟨hmove, hrest⟩ := List.forall_mem_cons.mp hmoves
    exact ih (isPast_apply h hmove) hrest

end Move

/-- Whatever has been done with a cursor at the start of a text, it reads on by the byte where it
stands. It reads nothing exactly if that byte is before the end and not between two characters,
and stays there. At the end and past it, it reads the end mark at the end and stays as well.
Between two characters it reads the first token of the text that is left, with its offsets moved by
those bytes, and goes to where that token stops. So readings alone never fail, and once the end
mark has been read, it is read again and again until the cursor goes back. -/
theorem reads_anywhere (text : String) (name? : Option String) (moves : List Move) :
    let file := name?.getD shell
    let size := text.utf8ByteSize
    let marked := Move.applyAll (.ofText text file) moves
    let cursor := marked.cursor
    (cursor.text = text ∧ cursor.file = file) ∧
    (cursor.next? = none ↔
      cursor.offset < size ∧ ¬ (String.Pos.Raw.mk cursor.offset).IsValid text) ∧
    (cursor.next? = none → Move.next.apply marked = marked) ∧
    (size ≤ cursor.offset → cursor.next? = some (.endMark (.between file size size), cursor)) ∧
    (∀ before rest : String, text = before ++ rest → before.utf8ByteSize = cursor.offset →
      ∃ token stop, IsFirst file rest token stop ∧ cursor.next? =
        some (token.later cursor.offset, ⟨file, text, cursor.offset + stop⟩)) ∧
    (∀ readings, (∀ move ∈ readings, move = Move.next) →
      (Move.applyAll (.ofText text file) readings).cursor.next? ≠ none) ∧
    ∀ mark after, cursor.next? = some (mark, after) → mark.kind = .endOfInput →
      ∀ later, (∀ move ∈ later, ∀ since, move ≠ Move.restore since) →
        let last := (Move.applyAll (Move.next.apply marked) later).cursor
        last.next? = some (mark, last) := by
  intro file size marked cursor
  have hstart : (Cursor.ofText text file).IsIn text file := ⟨0, rfl⟩
  obtain ⟨offset, hcursor⟩ : cursor.IsIn text file :=
    Move.isIn_applyAll hstart (List.forall_mem_singleton.mpr hstart) moves
  refine ⟨by rw [hcursor]; exact ⟨rfl, rfl⟩, ?_, Move.apply_next_of_none, fun hle => ?_, ?_, ?_, ?_⟩
  · rw [next?_eq_none_iff, Ready, hcursor, not_or, Nat.not_le]
  · rw [hcursor] at hle ⊢
    exact next?_of_ge hle
  · intro before rest htext hsize
    rw [hcursor] at hsize ⊢
    exact reads_of_append htext hsize.symm
  · intro readings hreadings hnone
    refine next?_eq_none_iff.mp hnone (Move.ready_applyAll (.inr ?_) hreadings)
    exact String.Pos.Raw.isValid_zero
  · intro mark after hread hkind later hlater last
    obtain ⟨⟨place, hafter⟩, -, hend⟩ := next?_eq_some hread
    obtain ⟨hle, rfl⟩ := hend hkind
    have hpast : (Move.next.apply marked).cursor.IsPast text file := by
      rw [Move.apply_next_of_some hread]
      rw [hafter, hcursor] at hle ⊢
      exact ⟨place, hle, rfl⟩
    obtain ⟨stop, hstop, hlast⟩ := Move.isPast_applyAll hpast hlater
    change last = _ at hlast
    rw [hcursor, hlast]
    exact next?_of_ge hstop

/-- Inside of `é` nothing is read, and behind it the name at its place. -/
theorem reads_anywhere_accented :
    let inside := (Move.applyAll (.ofText "aé b" shell) [.next, .advance 1]).cursor
    let behind := (Move.applyAll (.ofText "aé b" shell) [.advance 2, .next, .advance 1]).cursor
    let name : Token := ⟨.identifier, "b", .between shell 4 5⟩
    inside.offset < "aé b".utf8ByteSize ∧ ¬ (String.Pos.Raw.mk inside.offset).IsValid "aé b" ∧
      inside.next? = none ∧ "aé b" = "aé" ++ " b" ∧ "aé".utf8ByteSize = behind.offset ∧
      behind.next? = some (name, ⟨shell, "aé b", 5⟩) ∧
      ∃ token stop, IsFirst shell " b" token stop ∧ behind.next? =
        some (token.later behind.offset, ⟨shell, "aé b", behind.offset + stop⟩) := by
  intro inside behind name
  have hlt : inside.offset < "aé b".utf8ByteSize := by decide +kernel
  have hinside : ¬ (String.Pos.Raw.mk inside.offset).IsValid "aé b" := by decide +kernel
  have hcut : "aé b" = "aé" ++ " b" := by decide +kernel
  have hbehind : "aé".utf8ByteSize = behind.offset := by decide +kernel
  obtain ⟨-, hnone, -⟩ := reads_anywhere "aé b" none [.next, .advance 1]
  obtain ⟨-, -, -, -, hsome, -⟩ := reads_anywhere "aé b" none [.advance 2, .next, .advance 1]
  exact ⟨hlt, hinside, hnone.mpr ⟨hlt, hinside⟩, hcut, hbehind, by decide +kernel,
    hsome "aé" " b" hcut hbehind⟩

end Cursor

end Precedence
