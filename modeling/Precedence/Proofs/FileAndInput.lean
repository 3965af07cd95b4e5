import Precedence.Command.Run
import Precedence.Proofs.FileName
import Precedence.Proofs.LineByLine
import Precedence.Proofs.ReportWidth

/-!
# A file and the standard input

The same bytes may be read from a file or from the standard input. Either way the same expressions
are found, or none if the bytes are no text. Each of them is then parsed or listed as it would be
under any other name, so the two runs differ in nothing but the line of each report that names the
file. The main statement is `Command.outcome_file_input`.
-/

namespace Precedence

/-- What is written about a fault in a file: its report and a newline. -/
def Report.written (file : String) (report : Report) : String := report.inFile file ++ "\n"

/-- A report of the fault of some text. -/
def Report.IsOfFault (report : Report) : Prop :=
  ∃ text fault, parseText text = .error fault ∧ report = fault.details text

namespace Command

/-- Two outcomes that say the same, the first about one file and the second about another. -/
structure Outcome.SameBut (file other : String) (first second : Outcome) : Prop where
  status : first.status = second.status
  out : first.out = second.out
  err : ∃ reports : List Report, (∀ report ∈ reports, report.IsOfFault) ∧
    first.err = String.join (reports.map (Report.written file)) ∧
      second.err = String.join (reports.map (Report.written other))

namespace Outcome

variable {file other : String}

/-- Outcomes without a report are about no file. -/
theorem SameBut.of_quiet (status : Status) (out : String) :
    SameBut file other ⟨status, out, ""⟩ ⟨status, out, ""⟩ :=
  ⟨rfl, rfl, [], List.forall_mem_nil _, rfl, rfl⟩

/-- Outcomes that say the same may be followed by such outcomes. -/
theorem SameBut.append {first second third fourth : Outcome}
    (h : SameBut file other first second) (hmore : SameBut file other third fourth) :
    SameBut file other (first ++ third) (second ++ fourth) := by
  by_cases habort : first.status = .abort
  · rwa [append_of_abort habort, append_of_abort (h.status.symm.trans habort)]
  rw [append_of_ne_abort habort, append_of_ne_abort (h.status ▸ habort)]
  obtain ⟨reports, hreports, hfirst, hsecond⟩ := h.err
  obtain ⟨others, hothers, hthird, hfourth⟩ := hmore.err
  refine ⟨congrArg₂ Status.and h.status hmore.status, congrArg₂ (· ++ ·) h.out hmore.out,
    reports ++ others, List.forall_mem_append.mpr ⟨hreports, hothers⟩, ?_, ?_⟩
  · rw [List.map_append, String.join_append, ← hfirst, ← hthird]
  · rw [List.map_append, String.join_append, ← hsecond, ← hfourth]

/-- The tokens of a text are listed alike in both files. -/
theorem ofTokens_sameBut (file other text : String) :
    SameBut file other (ofTokens file text) (ofTokens other text) := by
  have hlist : ofTokens file text = ofTokens other text := by
    rw [ofTokens, ofTokens, tokenize_inFile text other file, List.foldl_map]
    simp only [Token.listing_inFile]
  rw [hlist]
  exact .of_quiet _ _

/-- What is written about a text in a file does not depend on the file but for the line of a report
that names it. -/
theorem ofParse_eq (file text : String) :
    ofParse file text =
      match parseText text with
      | .ok expr => ⟨.success, expr.print ++ "\n", ""⟩
      | .error fault =>
        if fault.dashes text < Text.maxWidth then
          ⟨.failure, "", (fault.details text).written file⟩
        else
          ⟨.abort, "", ""⟩ := by
  unfold ofParse
  rw [parseText_inFile text shell file]
  cases parseText text with
  | ok expr => rfl
  | error fault =>
    have hreport : (fault.inFile file).report? text =
        if fault.dashes text < Text.maxWidth then some ((fault.details text).inFile file)
        else none :=
      Fault.report?_eq (fault.inFile file) text
    by_cases hfits : fault.dashes text < Text.maxWidth
    · rw [if_pos hfits] at hreport
      simp only [Except.mapError, hreport, if_pos hfits]
      rfl
    · rw [if_neg hfits] at hreport
      simp only [Except.mapError, hreport, if_neg hfits]

/-- A text is parsed alike in both files. -/
theorem ofParse_sameBut (file other text : String) :
    SameBut file other (ofParse file text) (ofParse other text) := by
  rw [ofParse_eq, ofParse_eq]
  cases hparse : parseText text with
  | ok expr => exact .of_quiet _ _
  | error fault =>
    have hfault : (fault.details text).IsOfFault := ⟨text, fault, hparse, rfl⟩
    by_cases hfits : fault.dashes text < Text.maxWidth
    · simp only [if_pos hfits]
      exact ⟨rfl, rfl, [fault.details text], List.forall_mem_singleton.mpr hfault,
        String.empty_append.symm, String.empty_append.symm⟩
    · simp only [if_neg hfits]
      exact .of_quiet _ _

/-- Expressions that have such outcomes one by one have such outcomes together. -/
theorem SameBut.foldl {each again : String → Outcome}
    (heach : ∀ text, SameBut file other (each text) (again text)) {first second : Outcome}
    (h : SameBut file other first second) (texts : List String) :
    SameBut file other (texts.foldl (fun outcome text => outcome ++ each text) first)
      (texts.foldl (fun outcome text => outcome ++ again text) second) := by
  induction texts generalizing first second with
  | nil => exact h
  | cons text texts ih => exact ih (h.append (heach text))

/-- Expressions are parsed or listed alike in both files. -/
theorem ofBatch_sameBut (file other : String) (tokens : Bool) (expressions : List String) :
    SameBut file other (ofBatch tokens ⟨file, expressions⟩)
      (ofBatch tokens ⟨other, expressions⟩) := by
  refine SameBut.foldl (fun text => ?_) (.of_quiet .success "") expressions
  cases tokens with
  | true => exact ofTokens_sameBut file other text
  | false => exact ofParse_sameBut file other text

end Outcome

/-- The last component of a path is what comes after its last slash. -/
theorem Batch.nameOf_append {directory name : String} (hname : '/' ∉ name.toList)
    (hdirectory : directory = "" ∨ directory.toList.getLast? = some '/') :
    nameOf (directory ++ name) = name := by
  have hall : ∀ c ∈ name.toList.reverse, decide (c ≠ '/') = true := by
    intro c hc
    exact decide_eq_true fun heq => hname (heq ▸ List.mem_reverse.mp hc)
  have hnone : directory.toList.reverse.takeWhile (· ≠ '/') = [] := by
    rcases hdirectory with rfl | hslash
    · rfl
    · rw [List.getLast?_eq_some_iff] at hslash
      obtain ⟨front, hfront⟩ := hslash
      rw [hfront, List.reverse_append]
      rfl
  rw [nameOf, String.toList_append, List.reverse_append, List.takeWhile_append_of_pos hall, hnone,
    List.append_nil, List.reverse_reverse, String.ofList_toList]

section Runs

variable {surroundings : Surroundings} {options : Options}

/-- A run goes through the batch that its options select. -/
theorem outcome_of_batch_ok {batch : Batch} (hbatch : options.batch surroundings = .ok batch) :
    outcome options surroundings = .ofBatch options.tokens batch := by
  rw [outcome, hbatch]

/-- A run whose batch cannot be read says why. -/
theorem outcome_of_batch_error {failure : ReadFailure}
    (hbatch : options.batch surroundings = .error failure) :
    outcome options surroundings = .ofFailure failure := by
  rw [outcome, hbatch]

end Runs

/-- A run that reads a file and a run that reads the same bytes from the standard input end alike
and write the same, but for the line of each report that names the file. If the bytes are no text,
both write that and nothing else, and they fail. -/
theorem outcome_file_input {surroundings more : Surroundings} {expressions : List String}
    {tokens : Bool} {directory name : String} (hname : '/' ∉ name.toList)
    (hdirectory : directory = "" ∨ directory.toList.getLast? = some '/')
    (hread : surroundings.read (directory ++ name) = .ok more.input) :
    let fromFile := outcome ⟨expressions, some (directory ++ name), tokens⟩ surroundings
    let fromInput := outcome ⟨[], none, tokens⟩ more
    fromFile.status = fromInput.status ∧ fromFile.out = fromInput.out ∧
    (more.input.IsValidUTF8 → ∃ reports : List Report, (∀ report ∈ reports, report.IsOfFault) ∧
      fromFile.err = String.join (reports.map (Report.written name)) ∧
        fromInput.err = String.join (reports.map (Report.written shell))) ∧
    (¬more.input.IsValidUTF8 →
      fromFile = ⟨.failure, "", "Error: stream did not contain valid UTF-8\n"⟩ ∧
        fromInput = fromFile) := by
  intro fromFile fromInput
  have hfileBatch : Options.batch ⟨expressions, some (directory ++ name), tokens⟩ surroundings =
      Batch.ofFile (directory ++ name) more.input := by
    change (surroundings.read (directory ++ name) >>= Batch.ofFile (directory ++ name)) = _
    rw [hread]
    rfl
  have hinputBatch : Options.batch ⟨[], none, tokens⟩ more =
      (Batch.ofFile (directory ++ name) more.input).map fun batch => { batch with file := shell } :=
    Batch.ofInput_eq (directory ++ name) more.input
  by_cases hvalid : more.input.IsValidUTF8
  · obtain ⟨lines, hlines⟩ := Batch.exists_ofFile (directory ++ name) hvalid
    rw [hlines, Batch.nameOf_append hname hdirectory] at hfileBatch
    rw [hlines] at hinputBatch
    have hsame : Outcome.SameBut name shell fromFile fromInput := by
      simp only [fromFile, fromInput]
      rw [outcome_of_batch_ok hfileBatch, outcome_of_batch_ok hinputBatch]
      exact Outcome.ofBatch_sameBut name shell tokens lines
    exact ⟨hsame.status, hsame.out, fun _ => hsame.err, fun hnot => absurd hvalid hnot⟩
  · rw [Batch.ofFile_of_not_isValidUTF8 _ hvalid] at hfileBatch hinputBatch
    have hfromFile : fromFile = .ofFailure .invalidText := outcome_of_batch_error hfileBatch
    have hsame : fromInput = fromFile := (outcome_of_batch_error hinputBatch).trans hfromFile.symm
    exact ⟨by rw [hsame], by rw [hsame], fun h => absurd h hvalid, fun _ => ⟨hfromFile, hsame⟩⟩

/-- The bytes hold an expression that ends too early, a blank line and a last line without a
newline. -/
theorem outcome_file_input_sums :
    let bytes := "a +\r\n \nb*c".toUTF8
    let surroundings : Surroundings := ⟨fun _ => .ok bytes, .empty⟩
    let more : Surroundings := ⟨fun _ => .error .missing, bytes⟩
    let report (file : String) : String :=
      "Error: NoPrefixRule (Input ended where an expression was expected)\n" ++
        "-> " ++ file ++ "\n" ++ "  |\n" ++ "1 | a +\n" ++ "  | ---^\n"
    let fromInput := outcome ⟨[], none, false⟩ more
    outcome ⟨[], some "notes/sums", false⟩ surroundings = ⟨.failure, "(b * c)\n", report "sums"⟩ ∧
      fromInput.status = .failure ∧ fromInput.out = "(b * c)\n" ∧
      fromInput.err = report shell := by
  intro bytes surroundings more report fromInput
  have hread : surroundings.read ("notes/" ++ "sums") = .ok more.input := rfl
  have houtcome : outcome ⟨[], some ("notes/" ++ "sums"), false⟩ surroundings =
      ⟨.failure, "(b * c)\n", report "sums"⟩ := by decide +kernel
  obtain ⟨hstatus, hout, -⟩ :=
    outcome_file_input (by decide) (.inr (by decide)) hread
  rw [houtcome] at hstatus hout
  exact ⟨houtcome, hstatus.symm, hout.symm, by decide +kernel⟩

end Command

end Precedence
