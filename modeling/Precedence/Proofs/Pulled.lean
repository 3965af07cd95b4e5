import Precedence.Proofs.Fuel
import Precedence.Proofs.Program

/-!
# What a run takes out of its supply

A parser asks its supply for a token when it reads one and has read none ahead. The tokens that a
run takes out of its supply can be told from its changes, and each of them has been consumed since
or is kept. They are all that the run knows of the supply: on another supply that starts with these
tokens it does the same, and leaves what comes after them. The main statement is
`Program.run_endsAs`.
-/

namespace Precedence

/-- A supply after some of its tokens have been taken. -/
def Supply.drop : Nat → Supply → Supply
  | 0, supply => supply
  | count + 1, supply => drop count supply.next.2

/-- Taking some tokens and then others takes all of them. -/
theorem Supply.drop_add (first second : Nat) (supply : Supply) :
    supply.drop (first + second) = (supply.drop first).drop second := by
  induction first generalizing supply with
  | zero => rw [Nat.zero_add, drop]
  | succ first ih =>
    rw [Nat.succ_add]
    exact ih supply.next.2

/-- A list of tokens gives the first of them first. -/
theorem Supply.drop_list (first later : List Token) (stop : Position) :
    (Supply.list ⟨first ++ later, stop⟩).drop first.length = .list ⟨later, stop⟩ := by
  induction first with
  | nil => rfl
  | cons token first ih => exact ih

namespace Change

/-- The token that a change takes out of the supply, if it takes one. -/
def pulls (parser : Parser) : Change → List Token
  | take | look => if parser.ahead = [] then [parser.supply.next.1] else []
  | enter | leave => []

/-- The tokens that changes made one after the other take out of the supply. -/
def pulled (parser : Parser) : List Change → List Token
  | [] => []
  | change :: changes => change.pulls parser ++ pulled (change.apply parser) changes

/-- Some changes and then others take out what each of them do. -/
theorem pulled_append (parser : Parser) (changes others : List Change) :
    pulled parser (changes ++ others) =
      pulled parser changes ++ pulled (applyAll parser changes) others := by
  induction changes generalizing parser with
  | nil => rfl
  | cons change changes ih =>
    rw [List.cons_append, pulled, pulled, ih, List.append_assoc, applyAll_cons]

/-- A token that a change takes out of the supply is consumed or kept, and one that it consumes is
taken out of the supply or has been kept. -/
theorem length_pulls (change : Change) (parser : Parser) :
    (change.pulls parser).length + parser.ahead.length =
      [change].count .take + (change.apply parser).ahead.length := by
  obtain ⟨supply, ahead, depth⟩ := parser
  cases change with
  | enter | leave => rfl
  | take | look =>
    cases ahead with
    | nil => rfl
    | cons token ahead =>
      simp [pulls, apply, Parser.reach, Parser.next, Parser.unread, Nat.add_comm]

/-- The tokens that changes take out of the supply have been consumed since or are kept. -/
theorem length_pulled (changes : List Change) (parser : Parser) :
    (pulled parser changes).length + parser.ahead.length =
      changes.count .take + (applyAll parser changes).ahead.length := by
  induction changes generalizing parser with
  | nil => rfl
  | cons change changes ih =>
    have hfirst := change.length_pulls parser
    have hrest := ih (change.apply parser)
    rw [pulled, List.length_append, applyAll_cons, ← List.singleton_append, List.count_append]
    omega

/-- A change leaves what it does not take out of the supply. -/
theorem supply_apply (change : Change) (parser : Parser) :
    (change.apply parser).supply = parser.supply.drop (change.pulls parser).length := by
  obtain ⟨supply, ahead, depth⟩ := parser
  cases change with
  | enter | leave => rfl
  | take | look => cases ahead <;> rfl

/-- Changes leave what they do not take out of the supply. -/
theorem supply_applyAll (changes : List Change) (parser : Parser) :
    (applyAll parser changes).supply = parser.supply.drop (pulled parser changes).length := by
  induction changes generalizing parser with
  | nil => rfl
  | cons change changes ih =>
    rw [applyAll_cons, ih, supply_apply, pulled, List.length_append, Supply.drop_add]

/-- Entering and leaving an expression takes nothing out. -/
theorem pulled_inside (parser : Parser) (changes : List Change) :
    pulled parser (enter :: (changes ++ [leave])) = pulled (enter.apply parser) changes := by
  rw [pulled, pulled_append]
  exact List.append_nil _

end Change

namespace Parser

/-- Two parsers that have read the same tokens ahead and are equally deep. The supply of the second
gives some tokens first, and then `rest`. -/
structure Twins (first : List Token) (rest : Stream' Token) (parser other : Parser) : Prop where
  ahead : other.ahead = parser.ahead
  depth : other.depth = parser.depth
  stream : other.supply.stream = first ++ₛ rest

variable {first : List Token} {rest : Stream' Token} {parser other : Parser} {change : Change}

/-- Both parsers may be set to the same depth. -/
theorem Twins.nest (h : Twins first rest parser other) (depth : Nat) :
    Twins first rest { parser with depth } { other with depth } :=
  ⟨h.ahead, rfl, h.stream⟩

/-- The next token is the same if one supply starts with what the other gives. -/
theorem Twins.token (h : Twins (Change.take.pulls parser ++ first) rest parser other) :
    other.next.1 = parser.next.1 := by
  obtain ⟨supply, _, _⟩ := parser
  obtain ⟨another, ahead, depth⟩ := other
  obtain ⟨rfl, rfl, hstream⟩ := h
  cases ahead with
  | nil =>
    rw [Supply.stream_eq] at hstream
    exact (Stream'.cons_injective2 hstream).1
  | cons token ahead => rfl

/-- A change of both parsers uses up what the first takes out of its supply. -/
theorem Twins.apply (h : Twins (change.pulls parser ++ first) rest parser other) :
    Twins first rest (change.apply parser) (change.apply other) := by
  obtain ⟨supply, _, _⟩ := parser
  obtain ⟨another, ahead, depth⟩ := other
  obtain ⟨rfl, rfl, hstream⟩ := h
  cases change with
  | enter | leave => exact ⟨rfl, rfl, hstream⟩
  | take =>
    cases ahead with
    | nil =>
      rw [Supply.stream_eq] at hstream
      exact ⟨rfl, rfl, (Stream'.cons_injective2 hstream).2⟩
    | cons token ahead => exact ⟨rfl, rfl, hstream⟩
  | look =>
    cases ahead with
    | nil =>
      rw [Supply.stream_eq] at hstream
      obtain ⟨hnext, hrest⟩ := Stream'.cons_injective2 hstream
      exact ⟨congrArg (fun token => [token]) hnext, rfl, hrest⟩
    | cons token ahead => exact ⟨rfl, rfl, hstream⟩

/-- Below the limit an action is run one expression deeper. -/
theorem nested_of_not_full {α : Type} {limit? : Option Nat} (action : ParseM α)
    (h : ¬limit?.any (· ≤ parser.depth) = true) :
    (nested limit? action).run parser = (deeper action).run parser := by
  refine nested_of_lt action fun limit hlimit => ?_
  by_contra hlt
  exact h ((Option.any_eq_true _ _).mpr ⟨limit, hlimit, decide_eq_true (by omega)⟩)

end Parser

namespace Program

variable {limit? : Option Nat} {α : Type} {action : ParseM α} {parser other : Parser}
  {rest : Stream' Token}

/-- A run depends on nothing but the tokens that it takes out of its supply: on a supply that
starts with them it ends in the same way, and leaves what comes after them. -/
theorem run_endsAs (program : Program limit? action) {more : List Token}
    (h : Parser.Twins (Change.pulled parser (program.changes parser) ++ more) rest parser other) :
    (action.run parser).EndsAs (Parser.Twins more rest) (action.run other) := by
  -- What is left over is arbitrary, since the first of two actions leaves what the second takes.
  induction program generalizing parser other more with
  | pure value => exact .ok h
  | stop reason =>
    cases reason with
    | fault fault => exact .fault h
    | endless => exact .endless
  | consume =>
    rw [changes, Change.pulled, Change.pulled, List.append_nil] at h
    rw [Parser.run_consume, Parser.run_consume, h.token]
    exact .ok h.apply
  | peek =>
    rw [changes, Change.pulled, Change.pulled, List.append_nil] at h
    have htoken : other.next.1 = parser.next.1 := Parser.Twins.token h
    rw [Parser.run_peek, Parser.run_peek, ← htoken]
    refine .ok ?_
    have hafter := h.apply
    rwa [Change.apply, Parser.reach, ← htoken] at hafter
  | @bind _ _ first second program next ih ihnext =>
    have hafter := program.after_run parser
    rw [changes, Change.pulled_append, List.append_assoc, ← hafter] at h
    have hfirst := ih h
    rw [ParseM.run_bind, ParseM.run_bind]
    generalize first.run other = given at hfirst
    cases hrun : first.run parser with
    | ok value after =>
      rw [hrun] at hfirst
      cases hfirst with
      | ok hlast => exact ihnext value hlast
    | stop reason after =>
      rw [hrun] at hfirst
      cases hfirst with
      | endless => exact .endless
      | fault hlast => exact .fault hlast
  | @nested _ action inside ih =>
    by_cases hfull : limit?.any (· ≤ parser.depth) = true
    · rw [changes, if_pos hfull, Change.pulled, Change.pulled, List.append_nil] at h
      obtain ⟨limit, rfl, hfull⟩ := (Option.any_eq_true _ _).mp hfull
      have hle : limit ≤ parser.depth := of_decide_eq_true hfull
      have htoken : other.next.1 = parser.next.1 := Parser.Twins.token h
      rw [Parser.run_nested_of_le action hle, Parser.run_nested_of_le action (h.depth ▸ hle),
        ← htoken]
      refine .fault ?_
      have hafter := h.apply
      rwa [Change.apply, Parser.reach, ← htoken] at hafter
    · rw [changes, if_neg hfull, Change.pulled_inside] at h
      rw [Parser.nested_of_not_full action hfull,
        Parser.nested_of_not_full action (h.depth ▸ hfull)]
      have hinside : (action.run { parser with depth := parser.depth + 1 }).EndsAs
          (Parser.Twins more rest) (action.run { other with depth := other.depth + 1 }) := by
        rw [h.depth]
        exact ih (h.nest _)
      refine hinside.deeper fun {after last} hafter => ?_
      rw [hafter.depth]
      exact hafter.nest _

end Program

end Precedence
