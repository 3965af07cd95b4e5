import Mathlib.Data.Stream.Init
import Precedence.Parser.Termination

/-!
# The tokens to come

A parser is about to read the tokens it has read ahead and then those of its supply.
Taking a token removes the first of them, and looking ahead removes none. The other
statements say which tokens the two kinds of supply give.
-/

namespace Precedence

namespace Supply

/-- The tokens that a supply gives, one after the other. -/
def stream : Supply → Stream' Token :=
  Stream'.corec (fun supply => supply.next.1) (fun supply => supply.next.2)

/-- A supply gives its next token, and then what is left of it. -/
theorem stream_eq (supply : Supply) :
    supply.stream = Stream'.cons supply.next.1 supply.next.2.stream :=
  Stream'.corec_eq _ _ supply

/-- A supply that gives one token again and again gives nothing else. -/
theorem stream_eq_const {supply : Supply} (h : supply.next.2.next = supply.next) :
    supply.stream = Stream'.const supply.next.1 := by
  have hget : ∀ n (later : Supply), later.next = supply.next →
      later.stream.get n = supply.next.1 := by
    intro n
    induction n with
    | zero =>
      intro later hlater
      rw [stream_eq, hlater]
      rfl
    | succ n ih =>
      intro later hlater
      rw [stream_eq, Stream'.get_succ_cons, hlater]
      exact ih _ h
  exact Stream'.ext fun n => hget n supply rfl

/-- A list of tokens is followed by its end mark for ever. -/
theorem stream_list (replay : Replay) :
    (list replay).stream =
      replay.tokens ++ₛ Stream'.const (.endMark ⟨replay.stop, replay.stop⟩) := by
  obtain ⟨tokens, stop⟩ := replay
  induction tokens with
  | nil => exact stream_eq_const rfl
  | cons token tokens ih =>
    rw [stream_eq, Stream'.cons_append_stream]
    exact congrArg (Stream'.cons token) ih

/-- What holds of each token that a scanner can give holds of every token of a text. -/
theorem forall_mem_stream_text {P : Token → Prop} (h : ∀ scanner : Scanner, P scanner.next.1)
    (scanner : Scanner) : ∀ token ∈ (text scanner).stream, P token := by
  rintro token ⟨n, rfl⟩
  induction n generalizing scanner with
  | zero => exact h scanner
  | succ n ih =>
    rw [stream_eq, Stream'.get_succ_cons]
    exact ih scanner.next.2

end Supply

namespace Parser

/-- The tokens that a parser is about to read. -/
def pending (parser : Parser) : Stream' Token := parser.ahead ++ₛ parser.supply.stream

/-- A parser that has read nothing is about to read its whole supply. -/
@[simp] theorem pending_ofSupply (supply : Supply) :
    (ofSupply supply).pending = supply.stream := rfl

/-- A token that was put back is about to be read first. -/
@[simp] theorem pending_unread (parser : Parser) (token : Token) :
    (parser.unread token).pending = Stream'.cons token parser.pending := rfl

/-- Putting a token back does not change the depth. -/
@[simp] theorem depth_unread (parser : Parser) (token : Token) :
    (parser.unread token).depth = parser.depth := rfl

/-- The next token is the first of those to come, and the others come after it. -/
theorem pending_eq (parser : Parser) :
    parser.pending = Stream'.cons parser.next.1 parser.next.2.pending := by
  obtain ⟨supply, ahead, depth⟩ := parser
  cases ahead with
  | nil => exact supply.stream_eq
  | cons token ahead => rfl

/-- The next token of a parser, and what comes after it, read off the tokens to come. -/
theorem next_of_pending {parser : Parser} {token : Token} {rest : Stream' Token}
    (h : parser.pending = Stream'.cons token rest) :
    parser.next.1 = token ∧ parser.next.2.pending = rest := by
  rw [pending_eq] at h
  exact Stream'.cons_injective2 h

/-- The first of the tokens to come is the next one. -/
theorem head_pending (parser : Parser) : parser.pending.head = parser.next.1 := by
  rw [pending_eq]
  rfl

/-- Looking at the next token leaves the same tokens to come. -/
@[simp] theorem pending_unread_next (parser : Parser) :
    (parser.next.2.unread parser.next.1).pending = parser.pending := by
  rw [pending_unread, ← pending_eq]

/-- The token some places ahead is that one of the tokens to come. -/
theorem fst_reach (parser : Parser) (distance : Nat) :
    (parser.reach distance).1 = parser.pending.get distance := by
  induction distance generalizing parser with
  | zero => exact parser.head_pending.symm
  | succ distance ih =>
    rw [pending_eq, Stream'.get_succ_cons]
    exact ih parser.next.2

/-- Reading ahead leaves the same tokens to come. -/
@[simp] theorem pending_reach (parser : Parser) (distance : Nat) :
    (parser.reach distance).2.pending = parser.pending := by
  induction distance generalizing parser with
  | zero => exact parser.pending_unread_next
  | succ distance ih =>
    rw [parser.pending_eq, ← ih parser.next.2]
    rfl

/-- Reading ahead does not change the depth. -/
@[simp] theorem depth_reach (parser : Parser) (distance : Nat) :
    (parser.reach distance).2.depth = parser.depth := by
  induction distance generalizing parser with
  | zero => exact parser.depth_next
  | succ distance ih =>
    rw [← parser.depth_next, ← ih parser.next.2]
    rfl

/-- Tokens that come one after the other and are no end marks are all counted as to come. -/
theorem length_le_live {parser : Parser} {read : List Token} {rest : Stream' Token}
    (h : parser.pending = read ++ₛ rest) (hread : ∀ token ∈ read, token.kind ≠ .endOfInput) :
    read.length ≤ parser.live := by
  induction read generalizing parser with
  | nil => exact Nat.zero_le _
  | cons token read ih =>
    obtain ⟨hnext, hrest⟩ := next_of_pending h
    have hlt : parser.next.2.live < parser.live :=
      live_next_lt (by rw [hnext]; exact hread token List.mem_cons_self)
    have hle := ih hrest fun other hother => hread other (List.mem_cons_of_mem _ hother)
    rw [List.length_cons]
    omega

end Parser

end Precedence
