import Mathlib.Data.List.DropRight
import Precedence.Cursor
import Precedence.Proofs.Scanned

/-!
# The lexemes of a text

A lexeme is a piece of a text that is a token: a longest run of letters or a single
punctuator. Which pieces these are is said without a scanner, by what stands in them and
next to them. Two lexemes of a text never overlap, and no letter and no punctuator is
outside of all of them. The main statement is that the tokens of a text are its lexemes,
each once and in their order, and then the end mark.
-/

namespace Precedence

/-- A character that is part of no token. -/
def IsIgnored (c : Char) : Prop := c.isAlpha = false ∧ Kind.ofPunctuator? c = none

/-- Two texts such that no word goes across from the first to the second. -/
def Text.Apart (before after : List Char) : Prop :=
  ∀ c ∈ before.getLast?, ∀ d ∈ after.head?, c.isAlpha = false ∨ d.isAlpha = false

/-- A piece of a text with a kind, given by the text before it and its own text. -/
structure Lexeme where
  kind : Kind
  before : List Char
  value : List Char
deriving DecidableEq, Repr, Inhabited

namespace Lexeme

/-- The byte offset at which a lexeme starts. -/
def start (lexeme : Lexeme) : Nat := Text.byteLength lexeme.before

/-- The byte offset at which a lexeme stops. -/
def stop (lexeme : Lexeme) : Nat := lexeme.start + Text.byteLength lexeme.value

/-- The token of a lexeme. -/
def token (file : String) (lexeme : Lexeme) : Token :=
  ⟨lexeme.kind, String.ofList lexeme.value, .between file lexeme.start lexeme.stop⟩

/-- The lexemes of a text. -/
inductive OccursIn (text : List Char) : Lexeme → Prop where
  /-- A run of letters that cannot be made longer on either side is an identifier. -/
  | word {before value after} (htext : text = before ++ (value ++ after)) (hne : value ≠ [])
      (hletters : ∀ c ∈ value, c.isAlpha = true)
      (hbefore : ∀ c ∈ before.getLast?, c.isAlpha = false)
      (hafter : ∀ c ∈ after.head?, c.isAlpha = false) : OccursIn text ⟨.identifier, before, value⟩
  /-- A punctuator is a token of its kind. -/
  | sign {kind before c after} (htext : text = before ++ c :: after)
      (hkind : kind.punctuator? = some c) : OccursIn text ⟨kind, before, [c]⟩

end Lexeme

namespace Text

/-- A text with a character in it has bytes. -/
theorem byteLength_pos {text : List Char} (h : text ≠ []) : 0 < byteLength text := by
  cases text with
  | nil => exact absurd rfl h
  | cons c text =>
    have hc := c.utf8Size_pos
    rw [byteLength]
    omega

/-- A text without bytes is empty. -/
theorem byteLength_eq_zero_iff {text : List Char} : byteLength text = 0 ↔ text = [] := by
  refine ⟨fun h => ?_, fun h => by rw [h]; rfl⟩
  by_contra hne
  have hpos := byteLength_pos hne
  omega

/-- Of two beginnings of a text, the one with more bytes starts with the other. -/
theorem exists_append_of_byteLength_le {first second after rest : List Char}
    (h : first ++ after = second ++ rest) (hle : byteLength first ≤ byteLength second) :
    ∃ middle, second = first ++ middle ∧ after = middle ++ rest := by
  rcases List.append_eq_append_iff.mp h with hlonger | ⟨middle, rfl, rfl⟩
  · exact hlonger
  · rw [byteLength_append] at hle
    obtain rfl : middle = [] := byteLength_eq_zero_iff.mp (by omega)
    exact ⟨[], by simp, by simp⟩

/-- No letter comes after the letters at the start of a text. -/
theorem isAlpha_of_head?_dropWhile (text : List Char) :
    ∀ c ∈ (text.dropWhile Char.isAlpha).head?, c.isAlpha = false := by
  intro c hc
  have hnot := List.head?_dropWhile_not Char.isAlpha text
  rwa [hc] at hnot

/-- No word goes on after a character that is not a letter. -/
theorem apart_snoc {before after : List Char} {c : Char} (hc : c.isAlpha = false) :
    Apart (before ++ [c]) after := by
  intro d hd e he
  have hlast : c = d := by simpa using hd
  exact .inl (hlast ▸ hc)

end Text

namespace Lexeme.OccursIn

variable {text : List Char} {lexeme other : Lexeme}

/-- A lexeme stands in its text. -/
theorem exists_after (h : lexeme.OccursIn text) :
    ∃ after, text = lexeme.before ++ (lexeme.value ++ after) := by
  cases h with
  | word htext => exact ⟨_, htext⟩
  | sign htext => exact ⟨_, htext⟩

/-- A lexeme has a text of its own. -/
theorem value_ne_nil (h : lexeme.OccursIn text) : lexeme.value ≠ [] := by
  cases h with
  | word _ hne => exact hne
  | sign => exact List.cons_ne_nil _ _

/-- A lexeme takes at least one byte. -/
theorem start_lt_stop (h : lexeme.OccursIn text) : lexeme.start < lexeme.stop := by
  have hpos := Text.byteLength_pos h.value_ne_nil
  unfold stop
  omega

/-- A lexeme stops before the end of the text, or there. -/
theorem stop_le (h : lexeme.OccursIn text) : lexeme.stop ≤ Text.byteLength text := by
  obtain ⟨after, rfl⟩ := h.exists_after
  rw [Text.byteLength_append, Text.byteLength_append]
  unfold stop start
  omega

/-- A lexeme is no end mark. -/
theorem kind_ne_endOfInput (h : lexeme.OccursIn text) : lexeme.kind ≠ .endOfInput := by
  cases h with
  | word => nofun
  | sign _ hkind =>
    rintro rfl
    cases hkind

/-- No character of a lexeme is ignored. -/
theorem not_isIgnored (h : lexeme.OccursIn text) : ∀ c ∈ lexeme.value, ¬ IsIgnored c := by
  intro c hc hignored
  cases h with
  | word _ _ hletters =>
    have halpha := hletters c hc
    rw [hignored.1] at halpha
    cases halpha
  | sign _ hkind =>
    obtain rfl := List.mem_singleton.mp hc
    have hsome := Kind.ofPunctuator?_eq_some_iff.mpr hkind
    rw [hignored.2] at hsome
    cases hsome

/-- A lexeme that starts with a letter is a longest run of letters. -/
theorem eq_word {c : Char} {rest : List Char} (h : lexeme.OccursIn text)
    (hvalue : lexeme.value = c :: rest) (hc : c.isAlpha = true) :
    lexeme.kind = .identifier ∧ (∀ d ∈ lexeme.before.getLast?, d.isAlpha = false) ∧
      ∀ after, text = lexeme.before ++ (lexeme.value ++ after) →
        lexeme.value = (lexeme.value ++ after).takeWhile Char.isAlpha := by
  cases h with
  | @word before value after htext hne hletters hbefore hafter =>
    refine ⟨rfl, hbefore, fun others hothers => ?_⟩
    obtain rfl : after = others := by simpa [htext] using hothers
    rw [List.takeWhile_append_of_pos hletters]
    cases after with
    | nil => simp
    | cons d after => simp [hafter d (by simp)]
  | sign _ hkind =>
    obtain ⟨rfl, -⟩ := List.cons.inj hvalue
    rw [Kind.isAlpha_of_punctuator hkind] at hc
    cases hc

/-- A lexeme that starts with something else is that punctuator. -/
theorem eq_sign {c : Char} {rest : List Char} (h : lexeme.OccursIn text)
    (hvalue : lexeme.value = c :: rest) (hc : c.isAlpha = false) :
    rest = [] ∧ Kind.ofPunctuator? c = some lexeme.kind := by
  cases h with
  | word _ _ hletters =>
    obtain rfl := hvalue
    have halpha := hletters c List.mem_cons_self
    rw [hc] at halpha
    cases halpha
  | sign _ hkind =>
    obtain ⟨rfl, rfl⟩ := List.cons.inj hvalue
    exact ⟨rfl, Kind.ofPunctuator?_eq_some_iff.mpr hkind⟩

/-- Two lexemes that start at the same place are the same. -/
theorem eq_of_before (h : lexeme.OccursIn text) (hother : other.OccursIn text)
    (hbefore : lexeme.before = other.before) : lexeme = other := by
  obtain ⟨after, htext⟩ := h.exists_after
  obtain ⟨rest, hrest⟩ := hother.exists_after
  have hsame : lexeme.value ++ after = other.value ++ rest := by
    rw [htext, hbefore] at hrest
    exact List.append_cancel_left hrest
  obtain ⟨c, chars, hvalue⟩ := List.exists_cons_of_ne_nil h.value_ne_nil
  obtain ⟨d, others, hvalue'⟩ := List.exists_cons_of_ne_nil hother.value_ne_nil
  have hhead : c = d := by
    rw [hvalue, hvalue'] at hsame
    exact (List.cons.inj hsame).1
  subst hhead
  have hparts : lexeme.kind = other.kind ∧ lexeme.value = other.value := by
    cases hc : c.isAlpha with
    | true =>
      obtain ⟨hkind, -, hlongest⟩ := h.eq_word hvalue hc
      obtain ⟨hkind', -, hlongest'⟩ := hother.eq_word hvalue' hc
      refine ⟨hkind.trans hkind'.symm, ?_⟩
      rw [hlongest after htext, hsame, ← hlongest' rest hrest]
    | false =>
      obtain ⟨rfl, hkind⟩ := h.eq_sign hvalue hc
      obtain ⟨rfl, hkind'⟩ := hother.eq_sign hvalue' hc
      exact ⟨Option.some.inj (hkind.symm.trans hkind'), hvalue.trans hvalue'.symm⟩
  obtain ⟨kind, before, value⟩ := lexeme
  obtain ⟨kind', before', value'⟩ := other
  simp_all

/-- A lexeme with more than one character has letters only. -/
theorem isAlpha_of_append {first second : List Char} (h : lexeme.OccursIn text)
    (hvalue : lexeme.value = first ++ second) (hfirst : first ≠ []) (hsecond : second ≠ []) :
    ∀ c ∈ lexeme.value, c.isAlpha = true := by
  cases h with
  | word _ _ hletters => exact hletters
  | sign =>
    have hlength := congrArg List.length hvalue
    have hpos := List.length_pos_iff.mpr hfirst
    have hpos' := List.length_pos_iff.mpr hsecond
    simp only [List.length_singleton, List.length_append] at hlength
    omega

/-- Of two lexemes, one that does not start later stops before the other starts. -/
theorem stop_le_start (h : lexeme.OccursIn text) (hother : other.OccursIn text)
    (hne : lexeme ≠ other) (hle : lexeme.start ≤ other.start) : lexeme.stop ≤ other.start := by
  obtain ⟨after, htext⟩ := h.exists_after
  obtain ⟨rest, hrest⟩ := hother.exists_after
  obtain ⟨middle, hmiddle, hvalue⟩ :=
    Text.exists_append_of_byteLength_le (htext.symm.trans hrest) hle
  have hmiddle_ne : middle ≠ [] := by
    rintro rfl
    rw [List.append_nil] at hmiddle
    exact hne (h.eq_of_before hother hmiddle.symm)
  have hstart : other.start = lexeme.start + Text.byteLength middle := by
    rw [start, hmiddle, Text.byteLength_append]
    rfl
  by_contra hgt
  -- The other lexeme would start inside of this one, between two of its letters.
  have hlt : Text.byteLength middle < Text.byteLength lexeme.value := by
    unfold stop at hgt
    omega
  obtain ⟨more, hmore, hlast⟩ :=
    Text.exists_append_of_byteLength_le hvalue.symm (Nat.le_of_lt hlt)
  have hmore_ne : more ≠ [] := by
    rintro rfl
    rw [hmore, List.append_nil] at hlt
    omega
  have hletters := h.isAlpha_of_append hmore hmiddle_ne hmore_ne
  obtain ⟨c, chars, rfl⟩ := List.exists_cons_of_ne_nil hmore_ne
  obtain ⟨d, others, hd⟩ := List.exists_cons_of_ne_nil hother.value_ne_nil
  have hhead : d = c := by
    rw [hd] at hlast
    exact (List.cons.inj hlast).1
  obtain ⟨-, hbefore, -⟩ := hother.eq_word hd (hletters d (by simp [hmore, hhead]))
  have hlast_mem : middle.getLast hmiddle_ne ∈ other.before.getLast? := by
    rw [hmiddle, List.getLast?_append_of_ne_nil _ hmiddle_ne, List.getLast?_eq_getLast_of_ne_nil]
    rfl
  have hletter := hletters (middle.getLast hmiddle_ne) (by simp [hmore])
  rw [hbefore _ hlast_mem] at hletter
  cases hletter

/-- A lexeme does not start among ignored characters. -/
theorem le_start_of_isIgnored {before skipped rest : List Char} (h : lexeme.OccursIn text)
    (htext : text = before ++ (skipped ++ rest)) (hskipped : ∀ c ∈ skipped, IsIgnored c)
    (hle : Text.byteLength before ≤ lexeme.start) :
    Text.byteLength (before ++ skipped) ≤ lexeme.start := by
  obtain ⟨after, hafter⟩ := h.exists_after
  obtain ⟨middle, hmiddle, hrest⟩ :=
    Text.exists_append_of_byteLength_le (htext.symm.trans hafter) hle
  have hstart : lexeme.start = Text.byteLength before + Text.byteLength middle := by
    rw [start, hmiddle, Text.byteLength_append]
  rw [Text.byteLength_append]
  by_contra hgt
  have hlt : Text.byteLength middle < Text.byteLength skipped := by omega
  obtain ⟨more, rfl, hmore⟩ := Text.exists_append_of_byteLength_le hrest.symm (Nat.le_of_lt hlt)
  obtain ⟨c, chars, hvalue⟩ := List.exists_cons_of_ne_nil h.value_ne_nil
  cases more with
  | nil =>
    rw [List.append_nil] at hlt
    omega
  | cons d more =>
    -- The first character of the lexeme is one of those that are ignored.
    have hhead : c = d := by
      rw [hvalue] at hmore
      exact (List.cons.inj hmore).1
    refine h.not_isIgnored c (by simp [hvalue]) (hskipped c ?_)
    simp [hhead]

/-- Every letter is in a longest run of letters. -/
theorem word_around {before after : List Char} {c : Char} (htext : text = before ++ c :: after)
    (hc : c.isAlpha = true) :
    OccursIn text ⟨.identifier, before.rdropWhile Char.isAlpha,
      before.rtakeWhile Char.isAlpha ++ c :: after.takeWhile Char.isAlpha⟩ := by
  have hsplit : text = before.rdropWhile Char.isAlpha ++
      ((before.rtakeWhile Char.isAlpha ++ c :: after.takeWhile Char.isAlpha) ++
        after.dropWhile Char.isAlpha) := by
    rw [List.append_assoc, List.cons_append, List.takeWhile_append_dropWhile, ← List.append_assoc,
      List.rdropWhile_append_rtakeWhile, htext]
  refine .word hsplit (by simp) ?_ ?_ (Text.isAlpha_of_head?_dropWhile after)
  · refine List.forall_mem_append.mpr ⟨fun d hd => List.mem_rtakeWhile_imp hd, ?_⟩
    exact List.forall_mem_cons.mpr ⟨hc, fun d hd => List.mem_takeWhile_imp hd⟩
  · intro d hd
    obtain ⟨hne, rfl⟩ := List.mem_getLast?_eq_getLast hd
    exact Bool.eq_false_iff.mpr (List.rdropWhile_last_not _ _ hne)

/-- No letter and no punctuator is outside of all lexemes. -/
theorem exists_cover {before after : List Char} {c : Char} (htext : text = before ++ c :: after)
    (hc : ¬ IsIgnored c) :
    ∃ lexeme : Lexeme, lexeme.OccursIn text ∧ lexeme.start ≤ Text.byteLength before ∧
      Text.byteLength before < lexeme.stop := by
  have hsize := c.utf8Size_pos
  cases hletter : c.isAlpha with
  | true =>
    refine ⟨_, word_around htext hletter, ?_⟩
    have hbytes := Text.byteLength_append (before.rdropWhile Char.isAlpha)
      (before.rtakeWhile Char.isAlpha)
    rw [List.rdropWhile_append_rtakeWhile] at hbytes
    simp only [stop, start, Text.byteLength_append, Text.byteLength]
    omega
  | false =>
    cases hkind : Kind.ofPunctuator? c with
    | none => exact absurd ⟨hletter, hkind⟩ hc
    | some kind =>
      refine ⟨_, .sign htext (Kind.ofPunctuator?_eq_some_iff.mp hkind), ?_⟩
      simp only [stop, start, Text.byteLength]
      omega

end Lexeme.OccursIn

namespace Scanner

/-- What a scanner does when no word goes on from what is before it: it finds nothing but
characters to be skipped, or it skips some and then takes the lexeme that stands there. -/
theorem scan_cases {before text : List Char} (hapart : Text.Apart before text) (file : String) :
    ((∀ c ∈ text, IsIgnored c) ∧
      scan file (Text.byteLength before) text =
        (.endMark (.between file (Text.byteLength (before ++ text))
          (Text.byteLength (before ++ text))), ⟨file, Text.byteLength (before ++ text), []⟩)) ∨
    ∃ (lexeme : Lexeme) (skipped rest : List Char), lexeme.OccursIn (before ++ text) ∧
      lexeme.before = before ++ skipped ∧ (∀ c ∈ skipped, IsIgnored c) ∧
      text = skipped ++ (lexeme.value ++ rest) ∧
      Text.Apart (lexeme.before ++ lexeme.value) rest ∧
      scan file (Text.byteLength before) text = (lexeme.token file, ⟨file, lexeme.stop, rest⟩) := by
  induction text generalizing before with
  | nil => exact .inl ⟨List.forall_mem_nil _, by rw [List.append_nil]; rfl⟩
  | cons c text ih =>
    cases hletter : c.isAlpha with
    | true =>
      have hend := Text.isAlpha_of_head?_dropWhile text
      have hsplit : c :: text = (c :: text.takeWhile Char.isAlpha) ++
          text.dropWhile Char.isAlpha := by
        rw [List.cons_append, List.takeWhile_append_dropWhile]
      refine .inr ⟨⟨.identifier, before, c :: text.takeWhile Char.isAlpha⟩, [],
        text.dropWhile Char.isAlpha, ?_, (List.append_nil _).symm, List.forall_mem_nil _, hsplit,
        fun _ _ d hd => .inr (hend d hd), ?_⟩
      · refine .word (congrArg (before ++ ·) hsplit) (by simp) ?_ ?_ hend
        · exact List.forall_mem_cons.mpr ⟨hletter, fun d hd => List.mem_takeWhile_imp hd⟩
        · intro d hd
          have hcut := hapart d hd c rfl
          simpa [hletter] using hcut
      · simp [scan, hletter, Lexeme.token, Lexeme.stop, Lexeme.start]
    | false =>
      cases hkind : Kind.ofPunctuator? c with
      | some kind =>
        refine .inr ⟨⟨kind, before, [c]⟩, [], text, ?_, (List.append_nil _).symm,
          List.forall_mem_nil _, rfl, Text.apart_snoc hletter, ?_⟩
        · exact .sign rfl (Kind.ofPunctuator?_eq_some_iff.mp hkind)
        · simp [scan, hletter, hkind, Lexeme.token, Lexeme.stop, Lexeme.start, Text.byteLength]
      | none =>
        have hignored : IsIgnored c := ⟨hletter, hkind⟩
        have hskip : scan file (Text.byteLength before) (c :: text) =
            scan file (Text.byteLength (before ++ [c])) text := by
          simp [scan, hletter, hkind, Text.byteLength_append, Text.byteLength]
        rcases ih (Text.apart_snoc hletter) with ⟨hall, hscan⟩ |
          ⟨lexeme, skipped, rest, hoccurs, hbefore, hskipped, htext, hrest, hscan⟩
        · refine .inl ⟨List.forall_mem_cons.mpr ⟨hignored, hall⟩, ?_⟩
          rw [hskip, hscan, List.append_assoc, List.singleton_append]
        · rw [List.append_assoc, List.singleton_append] at hoccurs
          refine .inr ⟨lexeme, c :: skipped, rest, hoccurs, ?_,
            List.forall_mem_cons.mpr ⟨hignored, hskipped⟩, ?_, hrest, hskip.trans hscan⟩
          · rw [hbefore, List.append_assoc, List.singleton_append]
          · rw [List.cons_append, ← htext]

/-- A scanner lists the lexemes that start where it is or later, and then the end mark. -/
theorem tokens_eq (scanner : Scanner) {before : List Char}
    (hoffset : scanner.offset = Text.byteLength before)
    (hapart : Text.Apart before scanner.rest) :
    ∃ lexemes : List Lexeme, lexemes.Pairwise (fun first second => first.stop ≤ second.start) ∧
      (∀ lexeme, lexeme ∈ lexemes ↔
        lexeme.OccursIn (before ++ scanner.rest) ∧ Text.byteLength before ≤ lexeme.start) ∧
      scanner.tokens = lexemes.map (Lexeme.token scanner.file) ++
        [.endMark (.between scanner.file (Text.byteLength (before ++ scanner.rest))
          (Text.byteLength (before ++ scanner.rest)))] := by
  fun_induction tokens scanner generalizing before with
  | case1 scanner hend =>
    rw [next, hoffset] at hend ⊢
    rcases scan_cases hapart scanner.file with ⟨hall, hscan⟩ |
      ⟨lexeme, skipped, rest, hoccurs, -, -, -, -, hscan⟩
    · refine ⟨[], .nil, fun lexeme => iff_of_false List.not_mem_nil ?_, by rw [hscan]; rfl⟩
      rintro ⟨hoccurs, hle⟩
      have hlt := hoccurs.start_lt_stop
      have hstop := hoccurs.stop_le
      have hstart := hoccurs.le_start_of_isIgnored (by rw [List.append_nil]) hall hle
      omega
    · rw [hscan] at hend
      exact absurd hend hoccurs.kind_ne_endOfInput
  | case2 scanner hend ih =>
    rw [next, hoffset] at hend ih ⊢
    rcases scan_cases hapart scanner.file with ⟨hall, hscan⟩ |
      ⟨lexeme, skipped, rest, hoccurs, hbefore, hskipped, htext, hrest, hscan⟩
    · rw [hscan] at hend
      exact absurd rfl hend
    · have hwhole : before ++ scanner.rest = (lexeme.before ++ lexeme.value) ++ rest := by
        rw [htext, hbefore, List.append_assoc, List.append_assoc]
      have hstop : lexeme.stop = Text.byteLength (lexeme.before ++ lexeme.value) :=
        (Text.byteLength_append _ _).symm
      rw [hscan] at ih ⊢
      obtain ⟨lexemes, hsorted, hmem, htokens⟩ := ih hstop hrest
      rw [← hwhole] at hmem htokens
      refine ⟨lexeme :: lexemes, List.pairwise_cons.mpr ⟨fun other hother => ?_, hsorted⟩,
        fun other => ⟨fun hother => ?_, ?_⟩, ?_⟩
      · rw [hstop]
        exact ((hmem other).mp hother).2
      · have hle : Text.byteLength before ≤ lexeme.start := by
          rw [Lexeme.start, hbefore, Text.byteLength_append]
          omega
        rcases List.mem_cons.mp hother with rfl | hlater
        · exact ⟨hoccurs, hle⟩
        · obtain ⟨hlater, hstart⟩ := (hmem other).mp hlater
          have hlt := hoccurs.start_lt_stop
          exact ⟨hlater, by omega⟩
      · rintro ⟨hother, hle⟩
        by_cases heq : other = lexeme
        · exact List.mem_cons.mpr (.inl heq)
        · -- Nothing starts among the characters that are skipped, so this one starts later.
          have hstart := hother.le_start_of_isIgnored (congrArg (before ++ ·) htext) hskipped hle
          rw [← hbefore] at hstart
          have hlater := hoccurs.stop_le_start hother (Ne.symm heq) hstart
          exact List.mem_cons.mpr (.inr ((hmem other).mpr ⟨hother, hstop ▸ hlater⟩))
      · rw [htokens]
        rfl

end Scanner

/-- The tokens of a text are its lexemes in their order, and then the end mark. -/
theorem exists_lexemes (text file : String) :
    ∃ lexemes : List Lexeme, lexemes.Pairwise (fun first second => first.stop ≤ second.start) ∧
      (∀ lexeme, lexeme ∈ lexemes ↔ lexeme.OccursIn text.toList) ∧
      tokenize text file = lexemes.map (Lexeme.token file) ++
        [.endMark (.between file text.utf8ByteSize text.utf8ByteSize)] := by
  obtain ⟨lexemes, hsorted, hmem, htokens⟩ :=
    (Scanner.ofText text file).tokens_eq (show 0 = Text.byteLength [] from rfl) (by nofun)
  refine ⟨lexemes, hsorted, fun lexeme => ?_, ?_⟩
  · rw [hmem]
    exact and_iff_left (Nat.zero_le _)
  · rw [← Text.byteLength_toList]
    exact htokens

namespace Cursor

/-- A cursor between two characters reads what a scanner reads there. -/
theorem next?_of_append {cursor : Cursor} {before rest : List Char}
    (htext : cursor.text.toList = before ++ rest)
    (hoffset : cursor.offset = Text.byteLength before) :
    cursor.next? = some ((Scanner.scan cursor.file cursor.offset rest).1,
      { cursor with offset := (Scanner.scan cursor.file cursor.offset rest).2.offset }) := by
  obtain ⟨file, text, offset⟩ := cursor
  obtain rfl : offset = Text.byteLength before := hoffset
  have hsize : text.utf8ByteSize = Text.byteLength before + Text.byteLength rest := by
    rw [← Text.byteLength_toList, htext, Text.byteLength_append]
  cases rest with
  | nil => simp [next?, atEnd, hsize, Text.byteLength, Scanner.scan]
  | cons c rest =>
    have hcut : Text.splitAt? (Text.byteLength before) text.toList = some (before, c :: rest) :=
      Text.splitAt?_eq_some_iff.mpr ⟨htext, rfl⟩
    have hpos : 0 < Text.byteLength (c :: rest) := Text.byteLength_pos (List.cons_ne_nil c rest)
    have hend : ¬ text.utf8ByteSize ≤ Text.byteLength before := by omega
    simp [next?, atEnd, remainder?, hend, hcut]

/-- A cursor from which tokens are read one after the other, up to and including the first
end mark, where no reading fails. -/
inductive Lists : Cursor → List Token → Prop where
  /-- The first end mark is the last token. -/
  | last {cursor mark after} (hnext : cursor.next? = some (mark, after))
      (hend : mark.kind = .endOfInput) : Lists cursor [mark]
  /-- Reading goes on after every other token. -/
  | next {cursor token after tokens} (hnext : cursor.next? = some (token, after))
      (hkind : token.kind ≠ .endOfInput) (hrest : Lists after tokens) :
      Lists cursor (token :: tokens)

/-- A cursor lists the tokens of a scanner that stands at the same place of the same text. -/
theorem lists_tokens (scanner : Scanner) {cursor : Cursor} {before : List Char}
    (hfile : cursor.file = scanner.file) (htext : cursor.text.toList = before ++ scanner.rest)
    (hcursor : cursor.offset = Text.byteLength before)
    (hscanner : scanner.offset = Text.byteLength before)
    (hapart : Text.Apart before scanner.rest) : cursor.Lists scanner.tokens := by
  have hread := next?_of_append htext hcursor
  fun_induction Scanner.tokens scanner generalizing cursor before with
  | case1 scanner hend =>
    rw [hfile, hcursor, ← hscanner] at hread
    exact .last hread hend
  | case2 scanner hend ih =>
    rw [hfile, hcursor, ← hscanner] at hread
    refine .next hread hend ?_
    rw [Scanner.next, hscanner] at hend ih ⊢
    rcases Scanner.scan_cases hapart scanner.file with ⟨-, hscan⟩ |
      ⟨lexeme, skipped, rest, -, hbefore, -, hrest, hcut, hscan⟩
    · rw [hscan] at hend
      exact absurd rfl hend
    · have hwhole : cursor.text.toList = (lexeme.before ++ lexeme.value) ++ rest := by
        rw [htext, hrest, hbefore, List.append_assoc, List.append_assoc]
      have hstop : lexeme.stop = Text.byteLength (lexeme.before ++ lexeme.value) :=
        (Text.byteLength_append _ _).symm
      rw [hscan] at ih ⊢
      exact ih rfl hwhole hstop hstop hcut (next?_of_append hwhole hstop)

/-- From the start of a text a cursor lists the tokens of the text. -/
theorem lists_tokenize (text file : String) : (ofText text file).Lists (tokenize text file) :=
  lists_tokens (.ofText text file) rfl (List.nil_append _).symm rfl rfl (by nofun)

end Cursor

/-- A text has one list of tokens, whatever it holds, and no reading from it fails. The list
has a token for each lexeme of the text, which is a longest run of letters or a punctuator,
with the text and the place of the lexeme. The lexemes stand in their order and apart from
each other, and what is outside of all of them is neither a letter nor a punctuator. The end
mark comes last, at the end of the text. -/
theorem tokenize_lists_lexemes (text : String) (name? : Option String) :
    let file := name?.getD shell
    let size := text.utf8ByteSize
    (Cursor.ofText text file).Lists (tokenize text file) ∧
    ∃ lexemes : List Lexeme,
      tokenize text file =
        lexemes.map (Lexeme.token file) ++ [.endMark (.between file size size)] ∧
      (∀ lexeme, lexeme ∈ lexemes ↔ lexeme.OccursIn text.toList) ∧
      lexemes.Pairwise (fun first second => first.stop ≤ second.start) ∧
      (∀ lexeme ∈ lexemes, lexeme.start < lexeme.stop ∧ lexeme.stop ≤ size) ∧
      ∀ before c after, text.toList = before ++ c :: after →
        (∀ lexeme ∈ lexemes, Text.byteLength before < lexeme.start ∨
          lexeme.stop ≤ Text.byteLength before) → IsIgnored c := by
  intro file size
  obtain ⟨lexemes, hsorted, hmem, htokens⟩ := exists_lexemes text file
  refine ⟨Cursor.lists_tokenize text file, lexemes, htokens, hmem, hsorted, ?_, ?_⟩
  · intro lexeme hlexeme
    have hoccurs := (hmem lexeme).mp hlexeme
    have hstop := hoccurs.stop_le
    rw [Text.byteLength_toList] at hstop
    exact ⟨hoccurs.start_lt_stop, hstop⟩
  · intro before c after htext houtside
    by_contra hignored
    obtain ⟨lexeme, hoccurs, hstart, hstop⟩ :=
      Lexeme.OccursIn.exists_cover htext hignored
    have hout := houtside lexeme ((hmem lexeme).mpr hoccurs)
    omega

/-- The two letters of `ab` are at the bytes 3 and 4, since `é` takes two bytes and the space
one. They are one token of this text. -/
theorem tokenize_lists_lexemes_accented :
    let lexeme : Lexeme := ⟨.identifier, ['é', ' '], ['a', 'b']⟩
    lexeme.OccursIn "é ab".toList ∧ lexeme.token shell = ⟨.identifier, "ab", .between shell 3 5⟩ ∧
      lexeme.token shell ∈ tokenize "é ab" := by
  intro lexeme
  have hoccurs : lexeme.OccursIn "é ab".toList :=
    .word (show "é ab".toList = ['é', ' '] ++ (['a', 'b'] ++ []) from rfl) (by simp) (by simp)
      (by simp) (by simp)
  obtain ⟨-, lexemes, htokens, hmem, -⟩ := tokenize_lists_lexemes "é ab" none
  refine ⟨hoccurs, by decide +kernel, ?_⟩
  rw [show tokenize "é ab" = _ from htokens]
  exact List.mem_append_left _ (List.mem_map_of_mem ((hmem lexeme).mpr hoccurs))

end Precedence
