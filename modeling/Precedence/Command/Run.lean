import Precedence.Command.Batch
import Precedence.Parse
import Precedence.Report

/-!
# Running the command

A run parses each expression of its batch by itself. It writes the texts of those
that can be parsed to one stream and the reports of the others to another, and it
fails if there were any of these. An expression whose report cannot be put together
breaks the run off: none of the expressions after it is looked at.
-/

namespace Precedence.Command

/-- How a run ends. -/
inductive Status where
  | success
  | failure
  /-- The run is broken off. -/
  | abort
deriving DecidableEq, Repr, Inhabited

namespace Status

/-- The exit status of the command. -/
def code : Status → Nat
  | success => 0
  | failure => 1
  | abort => 101

/-- How two runs end that are made one after the other. The second is not made if the first is
broken off. -/
def and : Status → Status → Status
  | success, second => second
  | failure, success => failure
  | failure, second => second
  | abort, _ => abort

/-- The ends of runs may be put together from either side. -/
theorem and_assoc (first second third : Status) :
    (first.and second).and third = first.and (second.and third) := by
  cases first <;> cases second <;> cases third <;> rfl

/-- A run that does nothing after another one ends as that does. -/
@[simp] theorem and_success (status : Status) : status.and success = status := by
  cases status <;> rfl

/-- Two runs are broken off if one of them is. -/
theorem and_eq_abort_iff {first second : Status} :
    first.and second = abort ↔ first = abort ∨ second = abort := by
  cases first <;> cases second <;> decide

/-- Two runs that are not broken off fail if one of them does. -/
theorem and_eq_failure_iff {first second : Status} (hfirst : first ≠ abort)
    (hsecond : second ≠ abort) :
    first.and second = failure ↔ first = failure ∨ second = failure := by
  cases first <;> cases second <;> simp_all [and]

end Status

/-- What a run leaves behind. -/
structure Outcome where
  /-- How the run ends. -/
  status : Status
  /-- What is written to the standard output. -/
  out : String
  /-- What is written to the standard error. What the system has to say about a run that is broken
  off is no part of it. -/
  err : String
deriving DecidableEq, Repr, Inhabited

namespace Outcome

/-- The outcome of doing nothing. -/
def empty : Outcome := ⟨.success, "", ""⟩

/-- One outcome after another. Nothing comes after a run that is broken off. -/
def append (first second : Outcome) : Outcome :=
  if first.status = .abort then first
  else ⟨first.status.and second.status, first.out ++ second.out, first.err ++ second.err⟩

instance : Append Outcome := ⟨append⟩

section Append

variable {first second : Outcome}

/-- Nothing comes after a run that is broken off. -/
theorem append_of_abort (h : first.status = .abort) : first ++ second = first := if_pos h

/-- What a second run does comes after a first one that is not broken off. -/
theorem append_of_ne_abort (h : first.status ≠ .abort) :
    first ++ second =
      ⟨first.status.and second.status, first.out ++ second.out, first.err ++ second.err⟩ :=
  if_neg h

/-- How an outcome after another one ends. -/
theorem status_append (first second : Outcome) :
    (first ++ second).status = first.status.and second.status := by
  by_cases h : first.status = .abort
  · rw [append_of_abort h, h]
    rfl
  · rw [append_of_ne_abort h]

/-- Outcomes may be joined from either side. -/
theorem append_assoc (first second third : Outcome) :
    first ++ second ++ third = first ++ (second ++ third) := by
  by_cases hfirst : first.status = .abort
  · rw [append_of_abort hfirst, append_of_abort hfirst, append_of_abort hfirst]
  by_cases hsecond : second.status = .abort
  · have hboth : (first ++ second).status = .abort := by
      rw [status_append, Status.and_eq_abort_iff]
      exact .inr hsecond
    rw [append_of_abort hboth, append_of_abort hsecond]
  · have hboth : (first ++ second).status ≠ .abort := by
      rw [status_append, ne_eq, Status.and_eq_abort_iff, not_or]
      exact ⟨hfirst, hsecond⟩
    rw [append_of_ne_abort hboth, append_of_ne_abort hfirst, append_of_ne_abort hfirst,
      append_of_ne_abort hsecond, Status.and_assoc, String.append_assoc, String.append_assoc]

/-- Doing nothing first changes no outcome. -/
@[simp] theorem empty_append (outcome : Outcome) : empty ++ outcome = outcome := by
  rw [append_of_ne_abort (by decide), empty, String.empty_append, String.empty_append]
  rfl

/-- Doing nothing at last changes no outcome. -/
@[simp] theorem append_empty (outcome : Outcome) : outcome ++ empty = outcome := by
  by_cases h : outcome.status = .abort
  · exact append_of_abort h
  · rw [append_of_ne_abort h, empty, String.append_empty, String.append_empty, Status.and_success]

end Append

/-- The outcome of listing the tokens of a text. -/
def ofTokens (file text : String) : Outcome :=
  ⟨.success, (tokenize text file).foldl (fun out token => out ++ token.listing ++ "\n") "", ""⟩

/-- The outcome of parsing a text. -/
def ofParse (file text : String) : Outcome :=
  match parseText text file with
  | .ok expr => ⟨.success, expr.print ++ "\n", ""⟩
  | .error fault =>
    match fault.report? text with
    | some report => ⟨.failure, "", report ++ "\n"⟩
    | none => ⟨.abort, "", ""⟩

/-- The outcome of a batch of expressions. -/
def ofBatch (tokens : Bool) (batch : Batch) : Outcome :=
  batch.expressions.foldl
    (fun outcome text =>
      outcome ++ if tokens then ofTokens batch.file text else ofParse batch.file text)
    empty

/-- The outcome of a batch that could not be read. -/
def ofFailure (failure : ReadFailure) : Outcome :=
  ⟨.failure, "", "Error: " ++ failure.message ++ "\n"⟩

end Outcome

/-- What a run is asked to do. -/
structure Options where
  /-- The expressions given to the command. -/
  expressions : List String
  /-- The file whose lines are the expressions. -/
  file : Option String
  /-- Whether tokens are listed instead of expressions parsed. -/
  tokens : Bool
deriving DecidableEq, Repr, Inhabited

/-- What a run finds around it: how files are read, and the standard input. -/
structure Surroundings where
  read : String → Except ReadFailure ByteArray
  input : ByteArray

/-- The batch that options select: a file before expressions, and expressions
before the standard input. -/
def Options.batch (options : Options) (surroundings : Surroundings) :
    Except ReadFailure Batch := do
  match options.file with
  | some path => Batch.ofFile path (← surroundings.read path)
  | none =>
    if options.expressions.isEmpty then
      Batch.ofInput surroundings.input
    else
      return Batch.ofExpressions options.expressions

/-- The outcome of the command. -/
def outcome (options : Options) (surroundings : Surroundings) : Outcome :=
  match options.batch surroundings with
  | .ok batch => .ofBatch options.tokens batch
  | .error failure => .ofFailure failure

end Precedence.Command
