import Precedence.Proofs.Caret
import Precedence.Proofs.FileAndInput

/-!
# Lines by themselves

The lines of a standard input are read one after the other, and what is written about one of them
depends on no other one. So two inputs, the first of which ends where a line does, have together the
outcome of the first and then that of the second. Only a line whose report cannot be put together
takes away what would come after it. The lines of a text come first, then reports on single lines,
then the outcomes of several lines. The main statement is `Command.outcome_input_append`.
-/

namespace Precedence

namespace Text

/-- Items up to the end of a line are cut in the same way whatever comes after them. -/
theorem exists_segments_append {α : Type} {ends : α → Bool} {stop : α} (hstop : ends stop = true)
    (front : List α) :
    ∃ line lines, ∀ items,
      segments ends (front ++ stop :: items) = line :: (lines ++ segments ends items) := by
  induction front with
  | nil => exact ⟨[stop], [], segments_cons hstop⟩
  | cons item front ih =>
    obtain ⟨line, lines, hcut⟩ := ih
    cases hitem : ends item with
    | true =>
      refine ⟨[item], line :: lines, fun items => ?_⟩
      rw [List.cons_append, segments_cons hitem, hcut]
      rfl
    | false =>
      refine ⟨item :: line, lines, fun items => ?_⟩
      obtain ⟨hfirst, hrest⟩ := List.cons.inj (hcut items)
      have hnone : ∀ other ∈ [item], ends other = false := List.forall_mem_singleton.mpr hitem
      have hlonger := segments_append hnone (front ++ stop :: items)
      rwa [hfirst, hrest] at hlonger

end Text

namespace Location

variable {text : List Char}

/-- In a text without a newline every byte is on the first line, which has no newline either. -/
theorem ofOffset_of_single (htext : '\n' ∉ text) (offset : Nat) :
    (ofOffset text offset).line = 1 ∧ '\n' ∉ (ofOffset text offset).text := by
  obtain ⟨before, line, after, hat, hfound⟩ := exists_lineAt text offset
  have hmem : ∀ c ∈ before ++ (line ++ after), c ≠ '\n' := fun c hc heq =>
    htext (hat.text_eq ▸ heq ▸ hc)
  have hbefore : '\n' ∉ before := fun h => hmem _ (List.mem_append_left _ h) rfl
  have hline : '\n' ∉ line := fun h =>
    hmem _ (List.mem_append_right _ (List.mem_append_left _ h)) rfl
  rw [ofOffset_of_some hfound]
  exact ⟨congrArg (1 + ·) (List.count_eq_zero_of_not_mem hbefore), hline⟩

end Location

/-- A report that shows a line by the number one, and a caret under it. -/
def Report.OnFirstLine (report : Report) : Prop :=
  ∃ (shown : String) (dashes : Nat), '\n' ∉ shown.toList ∧
    report.below = "  |\n1 | " ++ shown ++ "\n  | " ++
      String.ofList (List.replicate dashes '-') ++ "^"

/-- The report of a fault in a text without a newline counts from line one. -/
theorem Fault.details_onFirstLine (fault : Fault) {text : String} (htext : '\n' ∉ text.toList) :
    (fault.details text).OnFirstLine := by
  obtain ⟨hnumber, hline⟩ := Location.ofOffset_of_single htext fault.position.offset.toNat
  unfold details Report.OnFirstLine
  generalize Location.ofOffset text.toList fault.position.offset.toNat = location at hnumber hline ⊢
  refine ⟨String.ofList location.shown, location.dashes, ?_, ?_⟩
  · rw [String.toList_ofList]
    exact fun hmem => hline (List.dropWhile_subset _ (Text.trimEnd_subset _ hmem))
  · have hmargin : ∀ line : String, line ++ "\n" ++ "  |" ++ " " = line ++ "\n  | " := by
      intro line
      rw [String.append_assoc, String.append_assoc]
      rfl
    simp only [hnumber]
    rw [← hmargin]
    rfl

namespace Command

namespace Batch

/-- Without what ends it a line has no other characters. -/
theorem unterminated_subset (line : List Char) : unterminated line ⊆ line := by
  unfold unterminated
  split
  · split
    · exact fun c hc => List.dropLast_subset _ (List.dropLast_subset _ hc)
    · exact List.dropLast_subset _
  · exact List.Subset.refl _

/-- A line that ends with a newline is without it when it is unterminated. -/
theorem unterminated_snoc_subset (line : List Char) : unterminated (line ++ ['\n']) ⊆ line := by
  simp only [unterminated, List.getLast?_concat, List.dropLast_concat]
  split
  · exact List.dropLast_subset _
  · exact List.Subset.refl _

/-- No line of a text has a newline when it is unterminated. -/
theorem newline_notMem_unterminated {lines : List (List Char)} (h : Text.Cut lines) :
    ∀ line ∈ lines, '\n' ∉ unterminated line := by
  induction h with
  | last hline =>
    exact List.forall_mem_singleton.mpr fun hmem => hline (unterminated_subset _ hmem)
  | cons hline _ ih =>
    exact List.forall_mem_cons.mpr ⟨fun hmem => hline (unterminated_snoc_subset _ hmem), ih⟩

/-- The expressions on some lines and then others. -/
theorem ofLines_append (lines more : List (List Char)) :
    ofLines (lines ++ more) = ofLines lines ++ ofLines more := by
  rw [ofLines, List.map_append, List.filter_append, List.map_append]
  rfl

/-- There are no expressions on blank lines. -/
theorem ofLines_of_blank {lines : List (List Char)}
    (h : ∀ line ∈ lines, ∀ c ∈ line, Text.isBlank c = true) : ofLines lines = [] := by
  rw [ofLines, List.map_eq_nil_iff, List.filter_eq_nil_iff]
  intro text htext
  obtain ⟨line, hline, rfl⟩ := List.mem_map.mp htext
  have hblank : (unterminated line).all Text.isBlank = true :=
    List.all_eq_true.mpr fun c hc => h line hline c (unterminated_subset line hc)
  simp [hblank]

/-- An expression on one of some lines has no newline if the lines are those of a text. -/
theorem newline_notMem_ofLines {lines : List (List Char)} (h : Text.Cut lines) :
    ∀ text ∈ ofLines lines, '\n' ∉ text.toList := by
  intro text htext
  obtain ⟨chars, hchars, rfl⟩ := List.mem_map.mp htext
  obtain ⟨line, hline, rfl⟩ := List.mem_map.mp (List.mem_of_mem_filter hchars)
  rw [String.toList_ofList]
  exact newline_notMem_unterminated h line hline

/-- A text on the standard input is read as the expressions on its lines. -/
theorem ofInput_toUTF8 (text : String) :
    ofInput text.toUTF8 = .ok ⟨shell, ofLines (Text.segments Text.isNewline text.toList)⟩ := by
  have hbytes : text.toUTF8.data.toList = Text.utf8 text.toList := by
    rw [← Text.utf8_eq_toUTF8, String.ofList_toList]
  rw [ofInput_eq "", ofFile, fromUTF8?_eq_some_iff.mpr hbytes]
  rfl

end Batch

namespace Outcome

variable {tokens : Bool} {file : String}

/-- What has been done before some expressions stays in front. -/
theorem foldl_append (each : String → Outcome) (start : Outcome) (texts : List String) :
    texts.foldl (fun outcome text => outcome ++ each text) start =
      start ++ texts.foldl (fun outcome text => outcome ++ each text) empty := by
  induction texts generalizing start with
  | nil => exact (append_empty start).symm
  | cons text texts ih =>
    rw [List.foldl_cons, List.foldl_cons, ih, ih (empty ++ each text), empty_append, append_assoc]

/-- The outcome of some expressions and then others. -/
theorem ofBatch_append (texts more : List String) :
    ofBatch tokens ⟨file, texts ++ more⟩ =
      ofBatch tokens ⟨file, texts⟩ ++ ofBatch tokens ⟨file, more⟩ := by
  rw [ofBatch, List.foldl_append, foldl_append]
  rfl

/-- What holds of doing nothing and of each expression, and goes over to what is joined, holds of
all expressions together. -/
theorem ofBatch_induction {P : Outcome → Prop} {batch : Batch} (hempty : P empty)
    (happend : ∀ {first second}, P first → P second → P (first ++ second))
    (htokens : tokens = true → ∀ text ∈ batch.expressions, P (ofTokens batch.file text))
    (hparse : tokens = false → ∀ text ∈ batch.expressions, P (ofParse batch.file text)) :
    P (ofBatch tokens batch) := by
  refine List.foldlRecOn batch.expressions _ hempty fun outcome hbefore text htext => ?_
  cases tokens with
  | true => exact happend hbefore (htokens rfl text htext)
  | false => exact happend hbefore (hparse rfl text htext)

/-- Expressions are broken off if one of them is, or if what has been done before was. -/
theorem status_foldl_eq_abort_iff (each : String → Outcome) (start : Outcome)
    (texts : List String) :
    (texts.foldl (fun outcome text => outcome ++ each text) start).status = .abort ↔
      start.status = .abort ∨ ∃ text ∈ texts, (each text).status = .abort := by
  induction texts generalizing start with
  | nil => simp
  | cons text texts ih =>
    rw [List.foldl_cons, ih, status_append, Status.and_eq_abort_iff, List.exists_mem_cons_iff,
      or_assoc]

/-- Parsing a text is broken off exactly if it has a fault whose caret would be too far to the
right. -/
theorem status_ofParse_eq_abort_iff {text : String} :
    (ofParse file text).status = .abort ↔
      ∃ fault, parseText text = .error fault ∧ Text.maxWidth ≤ fault.dashes text := by
  rw [ofParse_eq]
  cases parseText text with
  | ok expr => simp
  | error fault =>
    by_cases hfits : fault.dashes text < Text.maxWidth
    · simp [hfits]
    · simp [hfits, Nat.not_lt.mp hfits]

/-- A batch is broken off exactly if it is parsed and one of its expressions has a fault whose caret
would be too far to the right. -/
theorem status_ofBatch_eq_abort_iff {batch : Batch} :
    (ofBatch tokens batch).status = .abort ↔ tokens = false ∧ ∃ text ∈ batch.expressions,
      ∃ fault, parseText text = .error fault ∧ Text.maxWidth ≤ fault.dashes text := by
  rw [ofBatch, status_foldl_eq_abort_iff, or_iff_right (by decide)]
  cases tokens with
  | true => exact iff_of_false (fun ⟨_, _, habort⟩ => nomatch habort) nofun
  | false =>
    simp only [Bool.false_eq_true, if_false, status_ofParse_eq_abort_iff, true_and]

/-- Listing tokens never fails. -/
theorem status_ofBatch_tokens (batch : Batch) : (ofBatch true batch).status = .success := by
  refine ofBatch_induction (P := fun outcome => outcome.status = .success) rfl
    (fun {first second} hfirst hsecond => ?_) (fun _ _ _ => rfl) nofun
  rw [status_append, hfirst, hsecond]
  rfl

/-- An outcome in which reports that count from line one are written, and nothing else but
results. -/
def ReportsFirstLines (outcome : Outcome) : Prop :=
  ∃ reports : List Report, (∀ report ∈ reports, report.IsOfFault ∧ report.OnFirstLine) ∧
    outcome.err = String.join (reports.map (Report.written shell))

/-- An outcome without an error has no report. -/
theorem ReportsFirstLines.of_quiet {outcome : Outcome} (h : outcome.err = "") :
    outcome.ReportsFirstLines :=
  ⟨[], List.forall_mem_nil _, h⟩

/-- Outcomes may be joined if each of them counts from line one. -/
theorem ReportsFirstLines.append {first second : Outcome} (hfirst : first.ReportsFirstLines)
    (hsecond : second.ReportsFirstLines) : (first ++ second).ReportsFirstLines := by
  by_cases habort : first.status = .abort
  · rwa [append_of_abort habort]
  obtain ⟨reports, hreports, hone⟩ := hfirst
  obtain ⟨others, hothers, htwo⟩ := hsecond
  refine ⟨reports ++ others, List.forall_mem_append.mpr ⟨hreports, hothers⟩, ?_⟩
  rw [append_of_ne_abort habort, List.map_append, String.join_append, ← hone, ← htwo]

/-- An expression without a newline is reported on line one. -/
theorem ofParse_reportsFirstLines {text : String} (htext : '\n' ∉ text.toList) :
    (ofParse shell text).ReportsFirstLines := by
  rw [ofParse_eq]
  cases hparse : parseText text with
  | ok expr => exact .of_quiet rfl
  | error fault =>
    by_cases hfits : fault.dashes text < Text.maxWidth
    · simp only [if_pos hfits]
      exact ⟨[fault.details text], List.forall_mem_singleton.mpr ⟨⟨text, fault, hparse, rfl⟩,
        fault.details_onFirstLine htext⟩, String.empty_append.symm⟩
    · simp only [if_neg hfits]
      exact .of_quiet rfl

/-- The outcome of a text on the standard input. -/
def ofInput (tokens : Bool) (text : List Char) : Outcome :=
  ofBatch tokens ⟨shell, Batch.ofLines (Text.segments Text.isNewline text)⟩

/-- Two texts, the first of which ends where a line does, have the outcome of the first and then
that of the second. -/
theorem ofInput_append {first : List Char} (hfirst : first = [] ∨ first.getLast? = some '\n')
    (second : List Char) :
    ofInput tokens (first ++ second) = ofInput tokens first ++ ofInput tokens second := by
  rcases hfirst with rfl | hnewline
  · exact (empty_append _).symm
  · obtain ⟨front, rfl⟩ := List.getLast?_eq_some_iff.mp hnewline
    have hstop : Text.isNewline '\n' = true := rfl
    obtain ⟨line, lines, hcut⟩ := Text.exists_segments_append hstop front
    -- After the newline at the end there is one more line in the first text, which is empty.
    have hlast : Batch.ofLines (line :: (lines ++ Text.segments Text.isNewline [])) =
        Batch.ofLines (line :: lines) := by
      rw [← List.cons_append, Batch.ofLines_append]
      exact List.append_nil _
    rw [List.append_assoc, List.singleton_append, ofInput, ofInput, hcut, hcut, hlast,
      ← List.cons_append, Batch.ofLines_append, ofBatch_append]
    rfl

/-- A blank text has no outcome. -/
theorem ofInput_of_blank {text : List Char} (htext : ∀ c ∈ text, Text.isBlank c = true) :
    ofInput tokens text = empty := by
  have hlines : ∀ line ∈ Text.segments Text.isNewline text, ∀ c ∈ line,
      Text.isBlank c = true := by
    intro line hline c hc
    apply htext
    rw [← Text.flatten_segments Text.isNewline text]
    exact List.mem_flatten_of_mem hline hc
  rw [ofInput, Batch.ofLines_of_blank hlines]
  rfl

/-- Every report on a text counts from line one. -/
theorem ofInput_reportsFirstLines (tokens : Bool) (text : List Char) :
    (ofInput tokens text).ReportsFirstLines :=
  ofBatch_induction (.of_quiet rfl) .append (fun _ _ _ => .of_quiet rfl) fun _ _ hexpression =>
    ofParse_reportsFirstLines
      (Batch.newline_notMem_ofLines (Text.cut_segments text) _ hexpression)

/-- An outcome in which that of several parts is written, part by part, and that fails exactly if
one of them does. -/
structure Joins (whole : Outcome) (parts : List Outcome) : Prop where
  out : whole.out = String.join (parts.map Outcome.out)
  err : whole.err = String.join (parts.map Outcome.err)
  status : whole.status = .failure ↔ ∃ part ∈ parts, part.status = .failure

/-- A single part is the whole. -/
theorem joins_singleton (outcome : Outcome) : outcome.Joins [outcome] :=
  ⟨String.empty_append.symm, String.empty_append.symm, by simp⟩

/-- A part may be put before others if nothing is broken off. -/
theorem Joins.cons {first rest : Outcome} {parts : List Outcome} (hfirst : first.status ≠ .abort)
    (hrest : rest.status ≠ .abort) (h : rest.Joins parts) :
    (first ++ rest).Joins (first :: parts) := by
  rw [append_of_ne_abort hfirst]
  refine ⟨?_, ?_, ?_⟩
  · rw [List.map_cons, String.join_cons, ← h.out]
  · rw [List.map_cons, String.join_cons, ← h.err]
  · rw [List.exists_mem_cons_iff, ← h.status]
    exact Status.and_eq_failure_iff hfirst hrest

/-- Lines that a text is cut into have its outcome together, unless one of them breaks it off. -/
theorem joins_flatten {lines : List (List Char)} (hcut : Text.Cut lines)
    (hends : (ofInput tokens lines.flatten).status ≠ .abort) :
    (ofInput tokens lines.flatten).Joins (lines.map (ofInput tokens)) := by
  induction hcut with
  | last =>
    rw [List.flatten_singleton]
    exact joins_singleton _
  | cons _ _ ih =>
    rw [List.flatten_cons, ofInput_append (.inr List.getLast?_concat)] at hends ⊢
    rw [status_append, ne_eq, Status.and_eq_abort_iff, not_or] at hends
    exact .cons hends.1 hends.2 (ih hends.2)

/-- The outcome of a text is that of its lines, unless one of these breaks it off. -/
theorem joins_ofInput {text : List Char} (hends : (ofInput tokens text).status ≠ .abort) :
    (ofInput tokens text).Joins ((Text.segments Text.isNewline text).map (ofInput tokens)) := by
  rw [← Text.flatten_segments Text.isNewline text] at hends
  have hjoins := joins_flatten (Text.cut_segments text) hends
  rwa [Text.flatten_segments] at hjoins

/-- A line with something on it is read as one expression. -/
theorem ofInput_line {line : List Char} (hnewline : '\n' ∉ line) (hreturn : '\r' ∉ line)
    (hshown : ∃ c ∈ line, Text.isBlank c = false) :
    ofInput tokens (line ++ ['\n']) = ofBatch tokens ⟨shell, [String.ofList line]⟩ := by
  have hnone : ∀ c ∈ line, Text.isNewline c = false :=
    fun c hc => beq_false_of_ne fun heq => hnewline (heq ▸ hc)
  have hsegments : Text.segments Text.isNewline (line ++ ['\n']) = [line ++ ['\n'], []] :=
    Text.segments_append hnone ['\n']
  have hline : Batch.unterminated (line ++ ['\n']) = line := by
    simp only [Batch.unterminated, List.getLast?_concat, List.dropLast_concat]
    split
    next hlast => exact absurd (List.mem_of_getLast? hlast) hreturn
    next => rfl
  have hall : line.all Text.isBlank = false := by
    obtain ⟨c, hc, hblank⟩ := hshown
    exact List.all_eq_false.mpr ⟨c, hc, by simp [hblank]⟩
  have hnothing : Batch.unterminated [] = [] := rfl
  have hexpressions : Batch.ofLines [line ++ ['\n'], []] = [String.ofList line] := by
    rw [Batch.ofLines, List.map_cons, List.map_singleton, hline, hnothing]
    simp [hall]
  rw [ofInput, hsegments, hexpressions]

/-- A line is broken off at a parenthesis behind too many letters. -/
theorem ofInput_unopened {count : Nat} (hcount : count + 1 < UInt32.size)
    (hwide : Text.maxWidth ≤ count) :
    ofInput false ((((String.ofList (List.replicate count 'a')).push ')').push '\n').toList) =
      ⟨.abort, "", ""⟩ := by
  obtain ⟨-, hparse, -, hreport⟩ := Fault.wide_unopened hcount hwide
  have hchars : ((String.ofList (List.replicate count 'a')).push ')').toList =
      List.replicate count 'a' ++ [')'] := by rw [String.toList_push, String.toList_ofList]
  generalize (String.ofList (List.replicate count 'a')).push ')' = line at *
  have hline : ∀ c ∈ line.toList, c = 'a' ∨ c = ')' := by
    intro c hc
    rw [hchars, List.mem_append, List.mem_singleton] at hc
    exact hc.imp_left List.eq_of_mem_replicate
  have hnewline : '\n' ∉ line.toList := fun hmem => absurd (hline _ hmem) (by decide)
  have hreturn : '\r' ∉ line.toList := fun hmem => absurd (hline _ hmem) (by decide)
  have hshown : ∃ c ∈ line.toList, Text.isBlank c = false := ⟨')', by simp [hchars], rfl⟩
  rw [String.toList_push, ofInput_line hnewline hreturn hshown, String.ofList_toList]
  change empty ++ ofParse shell line = _
  simp only [empty_append, ofParse, hparse, hreport]

end Outcome

/-- A run that reads a text from the standard input. -/
theorem outcome_toUTF8 (tokens : Bool) (read : String → Except ReadFailure ByteArray)
    (text : String) :
    outcome ⟨[], none, tokens⟩ ⟨read, text.toUTF8⟩ = .ofInput tokens text.toList := by
  have hbatch := Batch.ofInput_toUTF8 text
  exact outcome_of_batch_ok hbatch

/-- A run on two texts one after the other, the first of which is empty or ends with a newline,
writes what a run on each of them does, and fails exactly if one of these does, unless one of them
is broken off. A run that is broken off by the first text leaves nothing of the second one. So the
outcome of a text that is not broken off is that of its lines, each read by itself. A run is broken
off exactly if it parses a line with a fault before which 65535 characters or more would be shown.
Blank lines have no outcome, every report counts from line one, and a run that lists tokens does not
fail. -/
theorem outcome_input_append (tokens : Bool) (read : String → Except ReadFailure ByteArray)
    {first : String} (hfirst : first = "" ∨ first.toList.getLast? = some '\n')
    (second : String) :
    let run (text : String) := outcome ⟨[], none, tokens⟩ ⟨read, text.toUTF8⟩
    ((run first).status ≠ .abort →
      (run (first ++ second)).out = (run first).out ++ (run second).out ∧
      (run (first ++ second)).err = (run first).err ++ (run second).err ∧
      ((run (first ++ second)).status = .abort ↔ (run second).status = .abort) ∧
      ((run second).status ≠ .abort → ((run (first ++ second)).status = .failure ↔
        (run first).status = .failure ∨ (run second).status = .failure))) ∧
    ((run first).status = .abort → run (first ++ second) = run first) ∧
    ∀ text : String,
      ((run text).status ≠ .abort →
        (run text).Joins ((Text.segments Text.isNewline text.toList).map (run ∘ String.ofList))) ∧
      ((run text).status = .abort ↔ tokens = false ∧
        ∃ line ∈ Batch.ofLines (Text.segments Text.isNewline text.toList),
          ∃ fault, parseText line = .error fault ∧ 65535 ≤ fault.dashes line) ∧
      ((∀ c ∈ text.toList, Text.isBlank c = true) → run text = ⟨.success, "", ""⟩) ∧
      (run text).ReportsFirstLines ∧ (tokens = true → (run text).status = .success) := by
  intro run
  have hrun : ∀ text, run text = .ofInput tokens text.toList := outcome_toUTF8 tokens read
  have hends : first.toList = [] ∨ first.toList.getLast? = some '\n' :=
    hfirst.imp_left String.toList_eq_nil_iff.mpr
  have happend : run (first ++ second) = run first ++ run second := by
    rw [hrun, hrun, hrun, String.toList_append, Outcome.ofInput_append hends]
  refine ⟨fun hkept => ?_, fun habort => ?_, fun text => ⟨fun hkept => ?_, ?_, ?_, ?_, ?_⟩⟩
  · rw [happend, Outcome.append_of_ne_abort hkept]
    refine ⟨rfl, rfl, ?_, Status.and_eq_failure_iff hkept⟩
    rw [Status.and_eq_abort_iff, or_iff_right hkept]
  · rw [happend, Outcome.append_of_abort habort]
  · have hlines : run ∘ String.ofList = Outcome.ofInput tokens := funext fun line => by
      rw [Function.comp_apply, hrun, String.toList_ofList]
    rw [hrun] at hkept ⊢
    rw [hlines]
    exact Outcome.joins_ofInput hkept
  · rw [hrun]
    exact Outcome.status_ofBatch_eq_abort_iff
  · intro hblank
    rw [hrun]
    exact Outcome.ofInput_of_blank hblank
  · rw [hrun]
    exact Outcome.ofInput_reportsFirstLines tokens _
  · rintro rfl
    rw [hrun]
    exact Outcome.status_ofBatch_tokens _

/-- The first text ends with a blank line after an expression that ends too early, and the second
has no newline after a parenthesis that nothing opens. -/
theorem outcome_input_append_sums :
    let run (text : String) := outcome ⟨[], none, false⟩ ⟨fun _ => .error .missing, text.toUTF8⟩
    let report (tip line dashes : String) : String :=
      "Error: NoPrefixRule (" ++ tip ++ ")\n" ++ "-> shell\n" ++ "  |\n" ++ "1 | " ++ line ++
        "\n" ++ "  | " ++ dashes ++ "^\n"
    let ended := report "Input ended where an expression was expected" "a +" "---"
    let unopened := report "`)` cannot start an expression" ")" ""
    "a +\r\n \n".toList.getLast? = some '\n' ∧ (run "a +\r\n \n").status ≠ .abort ∧
    (run ("a +\r\n \n" ++ "b*c\n)")).out = "(b * c)\n" ∧
    (run ("a +\r\n \n" ++ "b*c\n)")).err = ended ++ unopened ∧
    (run ("a +\r\n \n" ++ "b*c\n)")).status = .failure := by
  intro run report ended unopened
  have hfirst : "a +\r\n \n".toList.getLast? = some '\n' := by decide
  have hone : run "a +\r\n \n" = ⟨.failure, "", ended⟩ := by decide +kernel
  have htwo : run "b*c\n)" = ⟨.failure, "(b * c)\n", unopened⟩ := by decide +kernel
  have hkept : (run "a +\r\n \n").status ≠ .abort := by rw [hone]; decide
  obtain ⟨hout, herr, -, hstatus⟩ :=
    (outcome_input_append false (fun _ => .error .missing) (.inr hfirst) "b*c\n)").1 hkept
  refine ⟨hfirst, hkept, hout.trans ?_, herr.trans ?_, (hstatus ?_).mpr (.inl ?_)⟩
  · exact congrArg₂ (fun one two : Outcome => one.out ++ two.out) hone htwo
  · exact congrArg₂ (fun one two : Outcome => one.err ++ two.err) hone htwo
  · change (run "b*c\n)").status ≠ .abort
    rw [htwo]
    decide
  · exact congrArg Outcome.status hone

/-- The first line has so many letters before a parenthesis that nothing opens that a report cannot
be put together. It takes away the result of the second line. -/
theorem outcome_input_append_wide :
    let run (text : String) := outcome ⟨[], none, false⟩ ⟨fun _ => .error .missing, text.toUTF8⟩
    let first := ((String.ofList (List.replicate 65535 'a')).push ')').push '\n'
    first.toList.getLast? = some '\n' ∧ run first = ⟨.abort, "", ""⟩ ∧
      run "b*c\n" = ⟨.success, "(b * c)\n", ""⟩ ∧ run (first ++ "b*c\n") = ⟨.abort, "", ""⟩ ∧
      (run (first ++ "b*c\n")).out ≠ (run first).out ++ (run "b*c\n").out := by
  intro run first
  have hrun : ∀ text, run text = .ofInput false text.toList := outcome_toUTF8 false _
  have hends : first.toList.getLast? = some '\n' := by
    rw [String.toList_push, List.getLast?_concat]
  have hone : run first = ⟨.abort, "", ""⟩ :=
    (hrun first).trans (Outcome.ofInput_unopened (by decide) (Nat.le_refl 65535))
  have htwo : run "b*c\n" = ⟨.success, "(b * c)\n", ""⟩ := by decide +kernel
  have hboth : run (first ++ "b*c\n") = ⟨.abort, "", ""⟩ := by
    rw [hrun, String.toList_append, Outcome.ofInput_append (.inr hends), ← hrun, hone]
    exact Outcome.append_of_abort rfl
  refine ⟨hends, hone, htwo, hboth, ?_⟩
  rw [hboth, hone, htwo]
  decide

end Command

end Precedence
