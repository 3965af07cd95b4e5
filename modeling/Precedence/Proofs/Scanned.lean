import Precedence.Proofs.Pending

/-!
# What a text is scanned as

A scanner goes through a text piece by piece: a punctuator is a token, a word before
something other than a letter is a token, and everything else is skipped. These
statements give the tokens to come in terms of the text to come, wherever in a text and
in whichever file the scanner stands. `ScansAs` is how they are put together for a text
that is made of pieces.
-/

namespace Precedence

/-- A text that can be a name: it has letters only, and at least one. -/
def IsWord (text : String) : Prop :=
  text ≠ "" ∧ ∀ c ∈ text.toList, c.isAlpha = true

/-- No punctuator is a letter. -/
theorem Kind.isAlpha_of_punctuator {kind : Kind} {c : Char} (h : kind.punctuator? = some c) :
    c.isAlpha = false := by
  cases kind <;> simp only [punctuator?, Option.some.injEq, reduceCtorEq] at h <;> subst h <;> rfl

namespace Scanner

variable {scanner : Scanner} {c : Char} {kind : Kind} {rest : List Char}

/-- A punctuator is scanned as a token by itself. -/
theorem scan_punctuator (hkind : kind.punctuator? = some c) (file : String) (offset : Nat)
    (rest : List Char) :
    scan file offset (c :: rest) =
      (⟨kind, String.singleton c, .between file offset (offset + c.utf8Size)⟩,
        ⟨file, offset + c.utf8Size, rest⟩) := by
  simp [scan, Kind.isAlpha_of_punctuator hkind, Kind.ofPunctuator?_eq_some_iff.mpr hkind]

/-- A word is scanned up to the first character that is no letter. -/
theorem scan_word {text : String} (hword : IsWord text)
    (hnext : ∀ c ∈ rest.head?, c.isAlpha = false) (file : String) (offset : Nat) :
    scan file offset (text.toList ++ rest) =
      (⟨.identifier, text, .between file offset (offset + text.utf8ByteSize)⟩,
        ⟨file, offset + text.utf8ByteSize, rest⟩) := by
  obtain ⟨hne, hletters⟩ := hword
  cases hchars : text.toList with
  | nil => exact absurd (String.toList_eq_nil_iff.mp hchars) hne
  | cons c others =>
    rw [hchars] at hletters
    obtain ⟨hc, hothers⟩ := List.forall_mem_cons.mp hletters
    have htake : (others ++ rest).takeWhile Char.isAlpha = others := by
      rw [List.takeWhile_append_of_pos hothers]
      cases rest with
      | nil => simp
      | cons d rest => simp [hnext d (by simp)]
    have hdrop : (others ++ rest).dropWhile Char.isAlpha = rest := by
      rw [List.dropWhile_append_of_pos hothers]
      cases rest with
      | nil => rfl
      | cons d rest => simp [hnext d (by simp)]
    have htext : String.ofList (c :: others) = text := by rw [← hchars, String.ofList_toList]
    simp [scan, hc, htake, hdrop, htext, ← Text.byteLength_toList, hchars]

/-- A punctuator is the next token. -/
theorem stream_punctuator (hrest : scanner.rest = c :: rest) (hkind : kind.punctuator? = some c) :
    ∃ token after, token.kind = kind ∧ after.rest = rest ∧
      (Supply.text scanner).stream = Stream'.cons token (Supply.text after).stream := by
  refine ⟨_, _, ?_, ?_, Supply.stream_eq _⟩
  · rw [Supply.next, next, hrest, scan_punctuator hkind]
  · rw [next, hrest, scan_punctuator hkind]

/-- A character that is neither a letter nor a punctuator is skipped. -/
theorem stream_skip (hrest : scanner.rest = c :: rest) (halpha : c.isAlpha = false)
    (hnone : Kind.ofPunctuator? c = none) :
    ∃ after, after.rest = rest ∧ (Supply.text scanner).stream = (Supply.text after).stream := by
  obtain ⟨file, offset, text⟩ := scanner
  obtain rfl : text = c :: rest := hrest
  refine ⟨⟨file, offset + c.utf8Size, rest⟩, rfl, ?_⟩
  have hscan : scan file offset (c :: rest) = scan file (offset + c.utf8Size) rest := by
    simp [scan, halpha, hnone]
  rw [Supply.stream_eq, Supply.stream_eq (.text ⟨file, offset + c.utf8Size, rest⟩)]
  simp only [Supply.next, next, hscan]

/-- A word that is not followed by a letter is the next token. -/
theorem stream_word {text : String} (hrest : scanner.rest = text.toList ++ rest)
    (hword : IsWord text) (hnext : ∀ c ∈ rest.head?, c.isAlpha = false) :
    ∃ token after, token.kind = .identifier ∧ token.value = text ∧ after.rest = rest ∧
      (Supply.text scanner).stream = Stream'.cons token (Supply.text after).stream := by
  refine ⟨_, _, ?_, ?_, ?_, Supply.stream_eq _⟩
  · rw [Supply.next, next, hrest, scan_word hword hnext]
  · rw [Supply.next, next, hrest, scan_word hword hnext]
  · rw [next, hrest, scan_word hword hnext]

/-- Past the end of a text comes an end mark. -/
theorem stream_nil (hrest : scanner.rest = []) :
    ∃ token rest, token.kind = .endOfInput ∧
      (Supply.text scanner).stream = Stream'.cons token rest := by
  refine ⟨_, _, ?_, Supply.stream_eq _⟩
  simp [Supply.next, next, hrest, scan, Token.endMark]

/-- The identifiers of a text are words. -/
theorem isWord_of_mem_stream (scanner : Scanner) :
    ∀ token ∈ (Supply.text scanner).stream, token.kind = .identifier → IsWord token.value := by
  refine Supply.forall_mem_stream_text (fun scanner => ?_) scanner
  unfold next
  fun_induction scan scanner.file scanner.offset scanner.rest with
  | case1 => simp [Token.endMark]
  | case2 offset c rest hc word stop =>
    intro _
    refine ⟨by simp [word], ?_⟩
    simp only [String.toList_ofList, word]
    exact List.forall_mem_cons.mpr ⟨hc, List.all_eq_true.mp List.all_takeWhile⟩
  | case3 offset c rest hc stop kind hkind =>
    rintro rfl
    have hnone := Kind.ofPunctuator?_eq_some_iff.mp hkind
    simp [Kind.punctuator?] at hnone
  | case4 offset c rest hc stop hkind ih => exact ih

end Scanner

/-- A text that is scanned as tokens that fit, wherever it stands before something other
than a letter. -/
def ScansAs (text : List Char) (fits : List Token → Prop) : Prop :=
  ∀ (scanner : Scanner) (rest : List Char), scanner.rest = text ++ rest →
    (∀ c ∈ rest.head?, c.isAlpha = false) →
    ∃ read after, fits read ∧ after.rest = rest ∧
      (Supply.text scanner).stream = read ++ₛ (Supply.text after).stream

namespace ScansAs

variable {text other : List Char} {fits fitsOther fitsBoth : List Token → Prop} {c : Char}
  {kind : Kind}

/-- Nothing is scanned as no tokens. -/
theorem nil (h : fits []) : ScansAs [] fits := by
  intro scanner rest hrest _
  exact ⟨[], scanner, h, hrest, rfl⟩

/-- A word is scanned as an identifier. -/
theorem word {name : String} (hword : IsWord name)
    (hfits : ∀ token : Token, token.kind = .identifier → token.value = name → fits [token]) :
    ScansAs name.toList fits := by
  intro scanner rest hrest hnext
  obtain ⟨token, after, hkind, hvalue, hafter, hstream⟩ :=
    Scanner.stream_word hrest hword hnext
  exact ⟨[token], after, hfits token hkind hvalue, hafter, hstream⟩

/-- A space before a text is skipped. -/
theorem space (h : ScansAs text fits) : ScansAs (' ' :: text) fits := by
  intro scanner rest hrest hnext
  obtain ⟨first, hfirst, hskip⟩ := Scanner.stream_skip hrest rfl rfl
  obtain ⟨read, after, hread, hafter, hstream⟩ := h first rest hfirst hnext
  exact ⟨read, after, hread, hafter, hskip.trans hstream⟩

/-- A punctuator before a text is the first token. -/
theorem sign (h : ScansAs text fits) (hkind : kind.punctuator? = some c)
    (hfits : ∀ {token : Token} {read}, token.kind = kind → fits read → fitsBoth (token :: read)) :
    ScansAs (c :: text) fitsBoth := by
  intro scanner rest hrest hnext
  obtain ⟨token, first, htoken, hfirst, hsign⟩ := Scanner.stream_punctuator hrest hkind
  obtain ⟨read, after, hread, hafter, hstream⟩ := h first rest hfirst hnext
  exact ⟨token :: read, after, hfits htoken hread, hafter, by rw [hsign, hstream]; rfl⟩

/-- Two texts are scanned one after the other if no letter starts the second. -/
theorem append (h : ScansAs text fits) (hother : ScansAs (c :: other) fitsOther)
    (hc : c.isAlpha = false)
    (hfits : ∀ {read others}, fits read → fitsOther others → fitsBoth (read ++ others)) :
    ScansAs (text ++ c :: other) fitsBoth := by
  intro scanner rest hrest hnext
  rw [List.append_assoc] at hrest
  have hfirst : ∀ d ∈ (c :: other ++ rest).head?, d.isAlpha = false := by
    rintro d ⟨⟩
    exact hc
  obtain ⟨read, middle, hread, hmiddle, hstream⟩ := h scanner _ hrest hfirst
  obtain ⟨others, after, hothers, hafter, hlast⟩ := hother middle rest hmiddle hnext
  refine ⟨read ++ others, after, hfits hread hothers, hafter, ?_⟩
  rw [hstream, hlast, Stream'.append_append_stream]

/-- Two texts with a punctuator between spaces. -/
theorem spaced (h : ScansAs text fits) (hother : ScansAs other fitsOther)
    (hkind : kind.punctuator? = some c)
    (hfits : ∀ {token : Token} {read others}, fits read → token.kind = kind → fitsOther others →
      fitsBoth (read ++ token :: others)) :
    ScansAs (text ++ ' ' :: c :: ' ' :: other) fitsBoth := by
  have hsign : ScansAs (c :: ' ' :: other)
      fun read => ∃ token others, read = token :: others ∧ token.kind = kind ∧ fitsOther others :=
    hother.space.sign hkind fun htoken hothers => ⟨_, _, rfl, htoken, hothers⟩
  apply h.append hsign.space rfl
  rintro read others hread ⟨token, last, rfl, htoken, hlast⟩
  exact hfits hread htoken hlast

/-- A punctuator is a token by itself. -/
theorem mark (hkind : kind.punctuator? = some c) :
    ScansAs [c] fun read => ∃ token : Token, read = [token] ∧ token.kind = kind := by
  have hnil : ScansAs [] fun read => read = [] := nil rfl
  apply hnil.sign hkind
  rintro token read htoken rfl
  exact ⟨token, rfl, htoken⟩

/-- A text with a punctuator after it. -/
theorem followed (h : ScansAs text fits) (hkind : kind.punctuator? = some c)
    (hfits : ∀ {token : Token} {read}, fits read → token.kind = kind → fitsBoth (read ++ [token])) :
    ScansAs (text ++ [c]) fitsBoth := by
  apply h.append (mark hkind) (Kind.isAlpha_of_punctuator hkind)
  rintro read _ hread ⟨token, rfl, htoken⟩
  exact hfits hread htoken

end ScansAs

end Precedence
