import Precedence.Proofs.RunOfReading

/-!
# Parsers that cannot be told apart

A parser acts on the tokens to come and on its depth. Two parsers that agree on these
give the same results, whatever they have read ahead and wherever their tokens come from,
and they agree again afterwards. Whatever else reading preserves is carried along. The
statements follow the functions of the parser, which may run with different fuels: the
first run is compared with the second unless the first runs out.
-/

namespace Precedence

/-- A mark that a supply can give for ever: it is at the one place where the supply stops. -/
def Token.IsLast (mark : Token) : Prop := ∃ stop : Position, mark = .endMark ⟨stop, stop⟩

/-- The last mark is an end mark. -/
theorem Token.IsLast.kind {mark : Token} (h : mark.IsLast) : mark.kind = .endOfInput := by
  obtain ⟨stop, rfl⟩ := h
  rfl

/-- A stream in which one end mark comes for ever after at most `bound` tokens. -/
def EndsWithin (bound : Nat) (stream : Stream' Token) : Prop :=
  ∃ mark : Token, mark.IsLast ∧ stream.drop bound = Stream'.const mark

namespace EndsWithin

variable {bound more : Nat} {stream : Stream' Token}

/-- Without its first token a stream ends one token sooner. -/
theorem tail (h : EndsWithin bound stream) : EndsWithin (bound - 1) stream.tail := by
  obtain ⟨mark, hmark, hdrop⟩ := h
  refine ⟨mark, hmark, ?_⟩
  cases bound with
  | zero =>
    rw [Stream'.drop_zero] at hdrop
    rw [hdrop, Stream'.tail_const, Stream'.drop_const]
  | succ bound => exact hdrop

/-- A stream that ends within a bound ends within every larger one. -/
theorem mono (h : EndsWithin bound stream) (hle : bound ≤ more) : EndsWithin more stream := by
  obtain ⟨mark, hmark, hdrop⟩ := h
  obtain ⟨extra, rfl⟩ := Nat.exists_eq_add_of_le hle
  refine ⟨mark, hmark, ?_⟩
  rw [← Stream'.drop_drop, hdrop, Stream'.drop_const]

/-- A token before a stream makes it end one token later. -/
theorem cons {token : Token} (h : EndsWithin bound stream) :
    EndsWithin (bound + 1) (Stream'.cons token stream) := h

/-- A stream that has ended goes on with end marks. -/
theorem kind_head (h : EndsWithin 0 stream) : stream.head.kind = .endOfInput := by
  obtain ⟨mark, hmark, hdrop⟩ := h
  rw [Stream'.drop_zero] at hdrop
  rw [hdrop]
  exact hmark.kind

end EndsWithin

/-- An end mark that a scanner has given is its last, and is given again. -/
theorem Scanner.scan_of_end {file : String} {offset : Nat} {text : List Char}
    (h : (scan file offset text).1.kind = .endOfInput) :
    (scan file offset text).1.IsLast ∧
      (scan file offset text).2.next = scan file offset text := by
  fun_induction scan file offset text with
  | case1 => exact ⟨⟨_, rfl⟩, rfl⟩
  | case2 => cases h
  | case3 offset c rest hc stop kind hkind =>
    exact absurd h (Kind.ne_endOfInput_of_ofPunctuator? hkind)
  | case4 offset c rest hc stop hkind ih => exact ih h

/-- A text whose next token is an end mark has nothing but that mark to come. -/
theorem Supply.stream_text_of_end {scanner : Scanner}
    (h : scanner.next.1.kind = .endOfInput) :
    scanner.next.1.IsLast ∧ (text scanner).stream = Stream'.const scanner.next.1 := by
  obtain ⟨hlast, hagain⟩ := Scanner.scan_of_end h
  have hnext : (text scanner).next.2.next = (text scanner).next :=
    congrArg (fun scanned => (scanned.1, text scanned.2)) hagain
  exact ⟨hlast, stream_eq_const hnext⟩

/-- A supply gives end marks for ever after at most as many tokens as its size says. -/
theorem Supply.endsWithin_stream (supply : Supply) : EndsWithin supply.size supply.stream := by
  cases supply with
  | list replay =>
    refine ⟨_, ⟨replay.stop, rfl⟩, ?_⟩
    rw [stream_list]
    exact Stream'.drop_append_stream _ _
  | text scanner =>
    induction hsize : (text scanner).size using Nat.strong_induction_on generalizing scanner with
    | _ size ih =>
      by_cases hend : (text scanner).next.1.kind = .endOfInput
      · have hended : EndsWithin 0 (text scanner).stream := ⟨_, stream_text_of_end hend⟩
        exact hended.mono (Nat.zero_le _)
      · have hlt := size_next_lt hend
        have hrest := ih _ (hsize ▸ hlt) scanner.next.2 rfl
        rw [stream_eq]
        exact hrest.cons.mono (hsize ▸ hlt)

namespace Parser

/-- A parser reads end marks for ever after the tokens it has read ahead and those of its
supply. -/
theorem endsWithin_pending (parser : Parser) :
    EndsWithin (parser.ahead.length + parser.supply.size) parser.pending := by
  obtain ⟨mark, hmark, hdrop⟩ := parser.supply.endsWithin_stream
  refine ⟨mark, hmark, ?_⟩
  rw [← Stream'.drop_drop, pending, Stream'.drop_append_stream, hdrop]

/-- A relation between parsers that is kept when both take a token, read ahead equally far
or are set to the same depth. -/
structure Kept (kept : Parser → Parser → Prop) : Prop where
  next : ∀ {parser other}, kept parser other → kept parser.next.2 other.next.2
  reach : ∀ {parser other} distance, kept parser other →
    kept (parser.reach distance).2 (other.reach distance).2
  nest : ∀ {parser other} depth, kept parser other →
    kept { parser with depth } { other with depth }

/-- Nothing at all is kept. -/
theorem kept_true : Kept fun _ _ => True :=
  ⟨fun _ => trivial, fun _ _ => trivial, fun _ _ => trivial⟩

/-- Equality is kept. -/
theorem kept_eq : Kept Eq := by
  constructor
  · rintro parser _ rfl
    rfl
  · rintro parser _ distance rfl
    rfl
  · rintro parser _ depth rfl
    rfl

/-- Two parsers at the same depth with the same tokens to come. -/
structure Alike (kept : Parser → Parser → Prop) (depth : Nat) (parser other : Parser) : Prop where
  pending : parser.pending = other.pending
  left : parser.depth = depth
  right : other.depth = depth
  kept : kept parser other

/-- Two such parsers that are to read end marks for ever after at most `bound` tokens. -/
structure AlikeWithin (kept : Parser → Parser → Prop) (depth bound : Nat)
    (parser other : Parser) : Prop extends Alike kept depth parser other where
  ends : EndsWithin bound parser.pending

variable {kept : Parser → Parser → Prop} {depth bound : Nat} {parser other : Parser}

/-- Parsers that are alike have the same next token. -/
theorem Alike.token (h : Alike kept depth parser other) : parser.next.1 = other.next.1 := by
  rw [← head_pending, ← head_pending, h.pending]

/-- Taking a token leaves parsers alike. -/
theorem Alike.next (hkept : Kept kept) (h : Alike kept depth parser other) :
    Alike kept depth parser.next.2 other.next.2 := by
  have hpending := h.pending
  rw [parser.pending_eq, other.pending_eq] at hpending
  exact ⟨(Stream'.cons_injective2 hpending).2, by rw [depth_next, h.left],
    by rw [depth_next, h.right], hkept.next h.kept⟩

/-- Reading ahead leaves parsers alike. -/
theorem Alike.reach (hkept : Kept kept) (h : Alike kept depth parser other) (distance : Nat) :
    Alike kept depth (parser.reach distance).2 (other.reach distance).2 :=
  ⟨by rw [pending_reach, pending_reach, h.pending], by rw [depth_reach, h.left],
    by rw [depth_reach, h.right], hkept.reach distance h.kept⟩

/-- Parsers that are alike are alike at every depth they are set to. -/
theorem Alike.nest (hkept : Kept kept) (h : Alike kept depth parser other) (inner : Nat) :
    Alike kept inner { parser with depth := inner } { other with depth := inner } :=
  ⟨h.pending, rfl, rfl, hkept.nest inner h.kept⟩

/-- Within a larger bound parsers are alike as well. -/
theorem AlikeWithin.mono {more : Nat} (h : AlikeWithin kept depth bound parser other)
    (hle : bound ≤ more) : AlikeWithin kept depth more parser other :=
  ⟨h.toAlike, h.ends.mono hle⟩

/-- Taking a token leaves parsers alike, and one token closer to their end. -/
theorem AlikeWithin.next (hkept : Kept kept) (h : AlikeWithin kept depth bound parser other) :
    AlikeWithin kept depth (bound - 1) parser.next.2 other.next.2 := by
  have hends := h.ends.tail
  rw [pending_eq] at hends
  exact ⟨h.toAlike.next hkept, hends⟩

/-- Looking at the next token leaves parsers alike, and as far from their end. -/
theorem AlikeWithin.peek (hkept : Kept kept) (h : AlikeWithin kept depth bound parser other) :
    AlikeWithin kept depth bound (parser.next.2.unread parser.next.1)
      (other.next.2.unread other.next.1) :=
  ⟨h.toAlike.reach hkept 0, by rw [pending_unread_next]; exact h.ends⟩

/-- Parsers that have tokens other than end marks to come are not at their end. -/
theorem AlikeWithin.bound_pos (h : AlikeWithin kept depth bound parser other)
    (hkind : parser.next.1.kind ≠ .endOfInput) : 0 < bound := by
  refine Nat.pos_of_ne_zero fun hzero => hkind ?_
  subst hzero
  rw [← head_pending]
  exact h.ends.kind_head

end Parser

/-- A run that gives the same as another one and leaves a related parser, unless it is
endless. -/
inductive Parsed.EndsAs {α : Type} (related : Parser → Parser → Prop) :
    Parsed α → Parsed α → Prop where
  | endless {after parsed} : EndsAs related (.stop .endless after) parsed
  | ok {value after other} (h : related after other) :
      EndsAs related (.ok value after) (.ok value other)
  | fault {fault after other} (h : related after other) :
      EndsAs related (.stop (.fault fault) after) (.stop (.fault fault) other)

namespace Parsed.EndsAs

variable {α β : Type} {related weaker : Parser → Parser → Prop} {parser other : Parser}

/-- A weaker relation between the parsers that are left holds as well. -/
theorem imp {parsed given : Parsed α} (h : parsed.EndsAs related given)
    (himp : ∀ {after last}, related after last → weaker after last) :
    parsed.EndsAs weaker given := by
  cases h with
  | endless => exact .endless
  | ok hafter => exact .ok (himp hafter)
  | fault hafter => exact .fault (himp hafter)

/-- One action after another ends as another such pair does if each of the two does. -/
theorem bind {first start : ParseM α} {second next : α → ParseM β}
    (hfirst : (first.run parser).EndsAs related (start.run other))
    (hsecond : ∀ {value after last}, related after last →
      ((second value).run after).EndsAs related ((next value).run last)) :
    ((first >>= second).run parser).EndsAs related ((start >>= next).run other) := by
  rw [ParseM.run_bind, ParseM.run_bind]
  generalize first.run parser = parsed at hfirst
  generalize start.run other = given at hfirst
  cases hfirst with
  | endless => exact .endless
  | ok hafter => exact hsecond hafter
  | fault hafter => exact .fault hafter

/-- One expression deeper an action ends as another does if it does so there, and what relates the
parsers there does so again where the expression is left. -/
theorem deeper {action start : ParseM α}
    (h : (action.run { parser with depth := parser.depth + 1 }).EndsAs related
      (start.run { other with depth := other.depth + 1 }))
    (hback : ∀ {after last}, related after last →
      weaker { after with depth := after.depth - 1 } { last with depth := last.depth - 1 }) :
    ((Parser.deeper action).run parser).EndsAs weaker ((Parser.deeper start).run other) := by
  simp only [Parser.deeper]
  generalize action.run { parser with depth := parser.depth + 1 } = parsed at h
  generalize start.run { other with depth := other.depth + 1 } = given at h
  cases h with
  | endless => exact .endless
  | ok hafter => exact .ok (hback hafter)
  | fault hafter => exact .fault (hback hafter)

end Parsed.EndsAs

namespace Parser

variable {kept : Parser → Parser → Prop} {depth bound : Nat} {parser other : Parser}
  {operand another : Operand} {grammar : Grammar}

/-- A token that is needed is taken by both parsers or by neither. -/
theorem expect_endsAs (hkept : Kept kept) (h : AlikeWithin kept depth bound parser other)
    (kind : Kind) :
    ((expect kind).run parser).EndsAs (AlikeWithin kept depth bound) ((expect kind).run other) := by
  have hpeek := h.peek hkept
  rw [run_expect, run_expect]
  rw [h.token] at hpeek ⊢
  by_cases hkind : other.next.1.kind = kind
  · rw [if_pos hkind, if_pos hkind]
    exact .ok ((h.next hkept).mono (Nat.sub_le _ _))
  · rw [if_neg hkind, if_neg hkind]
    exact .fault hpeek

/-- Operands end as others do, from parsers that are alike within a bound. -/
def OperandsEndAs (kept : Parser → Parser → Prop) (depth bound : Nat)
    (operand another : Operand) : Prop :=
  ∀ {within : Nat} {parser other : Parser} (level : Nat), within ≤ bound →
    AlikeWithin kept depth within parser other →
    ((operand level).run parser).EndsAs (AlikeWithin kept depth within) ((another level).run other)

/-- A prefix rule ends as it does with other operands, if the operands do. -/
theorem starting_endsAs (hkept : Kept kept)
    (hoperand : OperandsEndAs kept depth bound operand another)
    (h : AlikeWithin kept depth bound parser other) (rule : PrefixRule) (token : Token) :
    ((rule.parse operand token).run parser).EndsAs (AlikeWithin kept depth bound)
      ((rule.parse another token).run other) := by
  cases rule with
  | name => exact .ok h
  | group =>
    refine (hoperand _ le_rfl h).bind fun {expr after last} hafter => ?_
    exact (expect_endsAs hkept hafter .closeParen).bind fun hlast => .ok hlast
  | operator power => exact (hoperand _ le_rfl h).bind fun hafter => .ok hafter

/-- Arguments end as they do with other operands, if there are turns for them. -/
theorem separated_endsAs (hkept : Kept kept)
    (hoperand : OperandsEndAs kept depth bound operand another) {within turns others : Nat}
    (hwithin : within ≤ bound) (hturns : turns ≤ others ∨ within < others)
    (h : AlikeWithin kept depth within parser other) :
    ((operand.separated turns).run parser).EndsAs (AlikeWithin kept depth within)
      ((another.separated others).run other) := by
  induction turns generalizing within others parser other with
  | zero => exact .endless
  | succ turns ih =>
    obtain ⟨others, rfl⟩ : ∃ less, others = less + 1 := ⟨others - 1, by omega⟩
    refine (hoperand _ hwithin h).bind fun {first after last} hafter => ?_
    have hpeek := hafter.peek hkept
    rw [ParseM.run_bind, ParseM.run_bind, run_accept, run_accept]
    rw [hafter.token] at hpeek ⊢
    by_cases hcomma : last.next.1.kind = .comma
    · -- A comma is no end mark, so there was a token left and one turn fewer is enough.
      have hpos : 0 < within := hafter.bound_pos (by rw [hafter.token, hcomma]; decide)
      have hturns : turns ≤ others ∨ within - 1 < others := by omega
      have hrest := ih (by omega) hturns (hafter.next hkept)
      simp only [hcomma, if_true]
      refine (hrest.imp fun hlast => hlast.mono (Nat.sub_le _ _)).bind fun hlast => .ok hlast
    · simp only [hcomma, if_false]
      exact .ok hpeek

/-- The arguments of a call end as they do with other operands. -/
theorem arguments_endsAs (hkept : Kept kept)
    (hoperand : OperandsEndAs kept depth bound operand another) {within turns others : Nat}
    (hwithin : within ≤ bound) (hturns : turns ≤ others ∨ within < others)
    (h : AlikeWithin kept depth within parser other) :
    ((operand.arguments turns).run parser).EndsAs (AlikeWithin kept depth within)
      ((another.arguments others).run other) := by
  have hpeek := h.peek hkept
  rw [Operand.arguments, Operand.arguments, ParseM.run_bind, ParseM.run_bind, run_accept,
    run_accept]
  rw [h.token] at hpeek ⊢
  by_cases hclosing : other.next.1.kind = .closeParen
  · simp only [hclosing, if_true]
    exact .ok ((h.next hkept).mono (Nat.sub_le _ _))
  · simp only [hclosing, if_false]
    refine (separated_endsAs hkept hoperand hwithin hturns hpeek).bind
      fun {exprs after last} hafter => ?_
    exact (expect_endsAs hkept hafter .closeParen).bind fun hlast => .ok hlast

/-- An infix rule ends as it does with other operands, if there are turns for arguments. -/
theorem extending_endsAs (hkept : Kept kept)
    (hoperand : OperandsEndAs kept depth bound operand another) {within turns others : Nat}
    (hwithin : within ≤ bound) (hturns : turns ≤ others ∨ within < others)
    (h : AlikeWithin kept depth within parser other) (rule : InfixRule) (left : Expr)
    (token : Token) :
    ((rule.parse operand turns left token).run parser).EndsAs (AlikeWithin kept depth within)
      ((rule.parse another others left token).run other) := by
  cases rule with
  | postfixed power => exact .ok h
  | binary power associativity => exact (hoperand _ hwithin h).bind fun hafter => .ok hafter
  | conditional =>
    refine (hoperand _ hwithin h).bind fun {yes after last} hafter => ?_
    refine (expect_endsAs hkept hafter .colon).bind fun {colon middle final} hmiddle => ?_
    exact (hoperand _ hwithin hmiddle).bind fun hlast => .ok hlast
  | call =>
    exact (arguments_endsAs hkept hoperand hwithin hturns h).bind fun hafter => .ok hafter
  | assign =>
    refine (hoperand _ hwithin h).bind fun {value after last} hafter => ?_
    cases left.assignTo value token.start with
    | ok expr => exact .ok hafter
    | error fault => exact .fault hafter

end Parser

end Precedence
