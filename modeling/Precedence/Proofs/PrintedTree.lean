import Precedence.Proofs.RoundTrip

/-!
# The printed text of a tree determines it

A well-formed tree is read from its printed text however deep that text is nested, and the
tokens of a text are read as one tree only. So two trees with the same printed text are the
same, also where the text is nested too deep for a parser.
-/

namespace Precedence

/-- Two ways of reading a stream up to an end mark take the same tokens. -/
theorem eq_of_stream_append {read others : List Token} {following next : Token}
    {rest more : Stream' Token}
    (h : read ++ₛ Stream'.cons following rest = others ++ₛ Stream'.cons next more)
    (hread : ∀ token ∈ read, token.kind ≠ .endOfInput)
    (hothers : ∀ token ∈ others, token.kind ≠ .endOfInput)
    (hfollowing : following.kind = .endOfInput) (hnext : next.kind = .endOfInput) :
    read = others ∧ following = next := by
  obtain ⟨after, rfl, hafter⟩ := exists_append_of_stream h hothers hfollowing
  cases after with
  | nil => exact ⟨List.append_nil _, (Stream'.cons_injective2 hafter).1⟩
  | cons token after =>
    obtain ⟨rfl, -⟩ := Stream'.cons_injective2 hafter
    exact absurd hnext (hread token (by simp))

/-- Well-formed trees with the same printed text are the same. -/
theorem Expr.WellFormed.eq_of_print {first second : Expr} (hfirst : first.WellFormed)
    (hsecond : second.WellFormed) (h : first.print = second.print) : first = second := by
  obtain ⟨read, following, rest, hstream, hend, hreads⟩ := hfirst.reads_print shell
  obtain ⟨others, next, more, hstream', hend', hreads'⟩ := hsecond.reads_print shell
  rw [h, hstream'] at hstream
  obtain ⟨rfl, rfl⟩ := eq_of_stream_append hstream (hreads'.kind_ne_endOfInput rfl rfl)
    (hreads.kind_ne_endOfInput rfl rfl) hend' hend
  exact Except.ok.inj (hreads.unique rfl rfl hreads')

/-- Well-formed trees with the same printed text are the same, however deep it is nested.
So two texts have the same tree exactly if their trees are printed in the same way. -/
theorem print_eq_print_iff :
    (∀ first second : Expr, first.WellFormed → second.WellFormed → first.print = second.print →
      first = second) ∧
    ∀ {text other file place : String} {first second : Expr}, parseText text file = .ok first →
      parseText other place = .ok second → (first = second ↔ first.print = second.print) := by
  refine ⟨fun first second hfirst hsecond h => hfirst.eq_of_print hsecond h, ?_⟩
  intro text other file place first second hfirst hsecond
  refine ⟨congrArg Expr.print, fun h => ?_⟩
  exact (wellFormed_of_parseText hfirst).eq_of_print (wellFormed_of_parseText hsecond) h

/-- Two differences that are grouped from different sides are printed differently. -/
theorem print_eq_print_differences :
    let left : Expr := .binary (.binary (.name "a") .dash (.name "b")) .dash (.name "c")
    let right : Expr := .binary (.name "a") .dash (.binary (.name "b") .dash (.name "c"))
    parseText "a - b - c" = .ok left ∧ parseText "a - (b - c)" = .ok right ∧
      (left = right ↔ left.print = right.print) := by
  intro left right
  have hleft : parseText "a - b - c" = .ok left := by decide +kernel
  have hright : parseText "a - (b - c)" = .ok right := by decide +kernel
  exact ⟨hleft, hright, print_eq_print_iff.2 hleft hright⟩

end Precedence
