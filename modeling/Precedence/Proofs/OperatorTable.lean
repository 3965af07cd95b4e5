import Mathlib.Logic.ExistsUnique
import Precedence.Proofs.WholeInput

/-!
# Chains of operators

A table of operators says how tightly each operator binds and from which side it is
grouped. Each chain of names and operators has exactly one tree that respects the table,
whatever the table is, and that tree is what a parser makes of the chain. It is built
by putting the operators into the tree one after the other: a new operator goes down
the right side of the tree as far as it binds tighter than what it meets.
-/

namespace Precedence

/-- The level above which operators may stand in the right operand of an operator. -/
def Grammar.threshold (grammar : Grammar) (kind : Kind) : Nat :=
  match grammar.infixRule kind with
  | some (.binary power associativity) => associativity.threshold power
  | _ => 0

/-- The threshold of an operator is the one its side and its power give. -/
theorem Grammar.threshold_of_binary {grammar : Grammar} {kind : Kind} {power : Power}
    {associativity : Associativity}
    (h : grammar.infixRule kind = some (.binary power associativity)) :
    grammar.threshold kind = associativity.threshold power := by
  simp [threshold, h]

/-- The lines of a table of operators: identifiers are names, and a kind other than the
end mark is an operator between operands that binds tighter than the lowest level. -/
inductive Entry.Tabular : Entry → Prop where
  /-- Identifiers are names. -/
  | name : Tabular (.starting .identifier .name)
  /-- An operator with its power and its side. -/
  | operator {kind power associativity} (hkind : kind ≠ .endOfInput) (hpower : power ≠ .lowest) :
      Tabular (.extending kind (.binary power associativity))

/-- A grammar with no rules but those of a table of operators. -/
structure Grammar.Tabular (grammar : Grammar) : Prop where
  /-- Only an identifier starts an expression. -/
  start : ∀ kind ≠ .identifier, grammar.prefixRule kind = none
  /-- No expression is extended by an end mark. -/
  extend : grammar.infixRule .endOfInput = none
  /-- Every operator stands between operands and binds tighter than the lowest level. -/
  operator : ∀ kind rule, grammar.infixRule kind = some rule →
    ∃ power associativity, rule = .binary power associativity ∧ power ≠ .lowest
  /-- Nesting is limited as it is by default. -/
  limit : grammar.depthLimit = some Grammar.maxDepth

namespace Grammar

variable {grammar : Grammar} {entry : Entry} {entries : List Entry}

/-- The grammar without rules is a table without operators. -/
theorem tabular_empty : empty.Tabular := by
  constructor
  · intro kind _
    rfl
  · rfl
  · intro kind rule hrule
    cases hrule
  · rfl

/-- A line of a table makes a table of a table. -/
theorem Tabular.add (h : grammar.Tabular) (hentry : entry.Tabular) :
    (grammar.add entry).Tabular := by
  cases hentry with
  | name =>
    refine ⟨fun kind hkind => ?_, h.extend, h.operator, h.limit⟩
    simp only [Grammar.add, hkind, if_false]
    exact h.start kind hkind
  | @operator kind power associativity hkind hpower =>
    refine ⟨h.start, ?_, fun other rule hrule => ?_, h.limit⟩
    · simp only [Grammar.add, hkind.symm, if_false]
      exact h.extend
    · by_cases heq : other = kind
      · simp only [Grammar.add, heq, if_true, Option.some.injEq] at hrule
        exact ⟨power, associativity, hrule.symm, hpower⟩
      · simp only [Grammar.add, heq, if_false] at hrule
        exact h.operator other rule hrule

/-- The lines of a table make a table. -/
theorem Tabular.addAll (h : grammar.Tabular) (hentries : ∀ entry ∈ entries, entry.Tabular) :
    (grammar.addAll entries).Tabular := by
  induction entries generalizing grammar with
  | nil => exact h
  | cons entry entries ih =>
    obtain ⟨hentry, hothers⟩ := List.forall_mem_cons.mp hentries
    exact ih (h.add hentry) hothers

/-- Identifiers are names once a line of a table has said so. -/
theorem prefixRule_addAll (hentries : ∀ entry ∈ entries, entry.Tabular)
    (h : grammar.prefixRule .identifier = some .name ∨ .starting .identifier .name ∈ entries) :
    (grammar.addAll entries).prefixRule .identifier = some .name := by
  induction entries generalizing grammar with
  | nil => exact h.resolve_right List.not_mem_nil
  | cons entry entries ih =>
    obtain ⟨hentry, hothers⟩ := List.forall_mem_cons.mp hentries
    apply ih hothers
    cases hentry with
    | name => exact .inl rfl
    | operator hkind hpower =>
      rcases h with hname | hmem
      · exact .inl hname
      · exact .inr (by simpa using hmem)

/-- An operator binds tighter than the lowest level. -/
theorem Tabular.level_pos (h : grammar.Tabular) {kind : Kind}
    (hkind : grammar.infixRule kind ≠ none) : 0 < grammar.level kind := by
  obtain ⟨rule, hrule⟩ := Option.ne_none_iff_exists'.mp hkind
  obtain ⟨power, associativity, rfl, hpower⟩ := h.operator kind rule hrule
  rw [level_of_infixRule hrule]
  cases power with
  | lowest => exact absurd rfl hpower
  | _ => exact Nat.succ_pos _

/-- The right operand of an operator may hold operators of any tighter level. -/
theorem Tabular.level_le_threshold (h : grammar.Tabular) (kind : Kind) :
    grammar.level kind ≤ grammar.threshold kind + 1 := by
  cases hrule : grammar.infixRule kind with
  | none =>
    rw [level_of_none hrule]
    exact Nat.zero_le _
  | some rule =>
    obtain ⟨power, associativity, rfl, -⟩ := h.operator kind rule hrule
    have hlevel : grammar.level kind = power.level := level_of_infixRule hrule
    rw [hlevel, threshold_of_binary hrule]
    cases associativity <;> simp only [Associativity.threshold] <;> omega

end Grammar

namespace Expr

/-- The operators down the left side of a tree. -/
def leftSpine : Expr → List Kind
  | binary left operator _ => operator :: left.leftSpine
  | _ => []

/-- The operators down the right side of a tree. -/
def rightSpine : Expr → List Kind
  | binary _ operator right => operator :: right.rightSpine
  | _ => []

/-- The largest number of steps to a right operand on a path in a tree. -/
def rightSteps : Expr → Nat
  | binary left _ right => max left.rightSteps (right.rightSteps + 1)
  | _ => 0

/-- A tree of names and operators whose tokens from left to right are the given ones. -/
inductive InOrder : Expr → List Token → Prop where
  /-- A name is one token. -/
  | name {token} : InOrder (.name token.value) [token]
  /-- An operator stands between the tokens of its operands. -/
  | binary {left right before token after} (hleft : InOrder left before)
      (hright : InOrder right after) :
      InOrder (.binary left token.kind right) (before ++ token :: after)

/-- A tree that respects a table: at each node, the operators down the left side of the
right operand bind tighter than the operator of the node lets them, and those down the
right side of the left operand do not let the operator of the node into their operands. -/
def Respects (grammar : Grammar) : Expr → Prop
  | binary left operator right =>
    (∀ inner ∈ right.leftSpine, grammar.threshold operator < grammar.level inner) ∧
    (∀ inner ∈ left.rightSpine, grammar.level operator ≤ grammar.threshold inner) ∧
    left.Respects grammar ∧ right.Respects grammar
  | _ => True

/-- Puts an operator and its right operand at the end of a tree. -/
def snoc (grammar : Grammar) (operator : Kind) (operand : Expr) : Expr → Expr
  | binary left other right =>
    if grammar.level operator ≤ grammar.threshold other then
      binary (binary left other right) operator operand
    else
      binary left other (snoc grammar operator operand right)
  | expr => binary expr operator operand

variable {grammar : Grammar} {expr : Expr} {operator : Kind} {tokens : List Token}

/-- The operators down the right side of an operand let less and less into their operands. -/
theorem le_threshold_of_leftSpine (htable : grammar.Tabular) (h : expr.Respects grammar)
    {bound : Nat} (hbound : ∀ inner ∈ expr.leftSpine, bound < grammar.level inner) :
    ∀ inner ∈ expr.rightSpine, bound ≤ grammar.threshold inner := by
  fun_induction rightSpine expr generalizing bound with
  | case1 left other right ih =>
    obtain ⟨hright, -, -, hrespects⟩ := h
    have hother : bound ≤ grammar.threshold other := by
      have hlt := hbound other List.mem_cons_self
      have hle := htable.level_le_threshold other
      omega
    refine List.forall_mem_cons.mpr ⟨hother, ih hrespects fun inner hinner => ?_⟩
    exact Nat.lt_of_le_of_lt hother (hright inner hinner)
  | case2 => simp

/-- A new operator may be added to the left side of a tree, and nothing else. -/
theorem mem_leftSpine_snoc {operand : Expr} {inner : Kind}
    (h : inner ∈ (snoc grammar operator operand expr).leftSpine) :
    inner = operator ∨ inner ∈ expr.leftSpine := by
  cases expr with
  | binary left other right =>
    unfold snoc at h
    split at h
    · exact List.mem_cons.mp h
    · exact .inr h
  | _ => exact List.mem_cons.mp h

/-- A new operator at the end of a tree is the last of its operators. -/
theorem InOrder.snoc (h : InOrder expr tokens) {token operand : Token} :
    InOrder (snoc grammar token.kind (.name operand.value) expr) (tokens ++ [token, operand]) := by
  induction h with
  | name => exact .binary .name .name
  | @binary left right before other after hleft hright _ ih =>
    unfold Expr.snoc
    split
    · exact .binary (.binary hleft hright) .name
    · rw [List.append_assoc]
      exact .binary hleft ih

/-- A new operator is put where the table wants it. -/
theorem Respects.snoc (htable : grammar.Tabular) (h : expr.Respects grammar) {text : String} :
    (snoc grammar operator (.name text) expr).Respects grammar := by
  fun_induction Expr.snoc grammar operator (.name text) expr with
  | case1 left other right hle =>
    -- The operator goes on top, so all down the right side must let it pass.
    have hpass : ∀ inner ∈ right.rightSpine, grammar.level operator ≤ grammar.threshold inner := by
      obtain ⟨hright, -, -, hrespectsRight⟩ := h
      intro inner hinner
      have hdown := le_threshold_of_leftSpine htable hrespectsRight hright inner hinner
      exact Nat.le_trans hle hdown
    exact ⟨by simp [leftSpine], List.forall_mem_cons.mpr ⟨hle, hpass⟩, h, trivial⟩
  | case2 left other right hlt ih =>
    obtain ⟨hright, hleft, hrespectsLeft, hrespectsRight⟩ := h
    refine ⟨fun inner hinner => ?_, hleft, hrespectsLeft, ih hrespectsRight⟩
    rcases mem_leftSpine_snoc hinner with rfl | hold
    · omega
    · exact hright inner hold
  | case3 expr hleaf =>
    refine ⟨by simp [leftSpine], ?_, h, trivial⟩
    cases expr with
    | binary left other right => exact absurd rfl (hleaf left other right)
    | _ => simp [rightSpine]

end Expr

mutual

/-- Names with operators between them. -/
def IsChain (grammar : Grammar) : List Token → Prop
  | [] => False
  | operand :: rest => operand.kind = .identifier ∧ IsTail grammar rest

/-- What may follow a name in a chain. -/
def IsTail (grammar : Grammar) : List Token → Prop
  | [] => True
  | operator :: rest => grammar.infixRule operator.kind ≠ none ∧ IsChain grammar rest

end

namespace Expr

variable {grammar : Grammar} {expr : Expr} {tokens : List Token}

/-- A tree of the first tokens of a chain can be made into one of the whole chain. -/
theorem exists_respects (htable : grammar.Tabular) : ∀ {rest tokens : List Token} {expr : Expr},
    IsTail grammar rest → InOrder expr tokens → expr.Respects grammar →
    ∃ tree, InOrder tree (tokens ++ rest) ∧ tree.Respects grammar
  | [], tokens, expr, _, horder, hrespects => ⟨expr, by rwa [List.append_nil], hrespects⟩
  | [_], _, _, htail, _, _ => htail.2.elim
  | token :: operand :: rest, tokens, expr, htail, horder, hrespects => by
    obtain ⟨-, -, hrest⟩ := htail
    obtain ⟨tree, htree, hrespectsTree⟩ :=
      exists_respects htable hrest (horder.snoc : InOrder _ (tokens ++ [token, operand]))
        (hrespects.snoc htable)
    rw [List.append_assoc] at htree
    exact ⟨tree, htree, hrespectsTree⟩

/-- After the tokens of a tree a chain goes on with an operator or ends. -/
theorem InOrder.isTail (h : InOrder expr tokens) {rest : List Token}
    (hchain : IsChain grammar (tokens ++ rest)) : IsTail grammar rest := by
  induction h generalizing rest with
  | name => exact hchain.2
  | binary _ _ ihleft ihright =>
    rw [List.append_assoc] at hchain
    exact ihright (ihleft hchain).2

/-- The operators of a tree of a chain are those of the table. -/
theorem InOrder.infixRule_ne_none (h : InOrder expr tokens) {rest : List Token}
    (hchain : IsChain grammar (tokens ++ rest)) :
    ∀ inner ∈ expr.leftSpine, grammar.infixRule inner ≠ none := by
  induction h generalizing rest with
  | name => simp [leftSpine]
  | binary hleft _ ihleft _ =>
    rw [List.append_assoc] at hchain
    exact List.forall_mem_cons.mpr ⟨(hleft.isTail hchain).1, ihleft hchain⟩

/-- A tree that respects the table is what is read from its tokens. -/
theorem InOrder.reads (htable : grammar.Tabular)
    (hname : grammar.prefixRule .identifier = some .name) (h : InOrder expr tokens)
    (hrespects : expr.Respects grammar) {rest : List Token}
    (hchain : IsChain grammar (tokens ++ rest)) {level : Nat} {following : Token}
    (hlevel : ∀ inner ∈ expr.leftSpine, level < grammar.level inner)
    (hfollowing : ∀ inner ∈ expr.rightSpine,
      grammar.level following.kind ≤ grammar.threshold inner) :
    Reads grammar (.beginning level) tokens following (.ok expr) expr.rightSteps := by
  induction h generalizing rest level following with
  | name =>
    have hkind := hchain.1
    exact .start (by rw [hkind]; exact hname) .name
  | @binary left right before token after hleft hright ihleft ihright =>
    obtain ⟨hinright, hinleft, hrespectsLeft, hrespectsRight⟩ := hrespects
    rw [List.append_assoc] at hchain
    obtain ⟨hoperator, hafter⟩ := hleft.isTail hchain
    obtain ⟨rule, hrule⟩ := Option.ne_none_iff_exists'.mp hoperator
    obtain ⟨power, associativity, rfl, -⟩ := htable.operator _ rule hrule
    obtain ⟨htoken, hlevelLeft⟩ := List.forall_mem_cons.mp hlevel
    obtain ⟨hend, hfollowingRight⟩ := List.forall_mem_cons.mp hfollowing
    have hreadLeft := ihleft hrespectsLeft hchain hlevelLeft hinleft
    have hreadRight := ihright hrespectsRight hafter hinright hfollowingRight
    rw [Grammar.threshold_of_binary hrule] at hreadRight hend
    rw [Grammar.level_of_infixRule hrule] at htoken
    exact .extend hreadLeft hrule htoken (.binary (.finish hreadRight hend))

/-- A tree that respects the table is what is read from a chain up to an end mark. -/
theorem InOrder.reads_chain (htable : grammar.Tabular)
    (hname : grammar.prefixRule .identifier = some .name) (h : InOrder expr tokens)
    (hrespects : expr.Respects grammar) (hchain : IsChain grammar tokens) {mark : Token}
    (hmark : mark.kind = .endOfInput) :
    Reads grammar (.expression Power.lowest.level) tokens mark (.ok expr)
      (expr.rightSteps + 1) := by
  have hwhole : IsChain grammar (tokens ++ []) := by rwa [List.append_nil]
  have hlevel : ∀ inner ∈ expr.leftSpine, Power.lowest.level < grammar.level inner := by
    intro inner hinner
    exact htable.level_pos (h.infixRule_ne_none hwhole inner hinner)
  have hzero : grammar.level mark.kind = 0 := by
    apply Grammar.level_of_none
    rw [hmark]
    exact htable.extend
  have hbeginning : Reads grammar (.beginning Power.lowest.level) tokens mark (.ok expr)
      expr.rightSteps := by
    apply h.reads htable hname hrespects hwhole hlevel
    intro inner _
    omega
  exact .finish hbeginning (Nat.le_of_eq hzero)

/-- No two trees of a chain respect the table. -/
theorem InOrder.unique (htable : grammar.Tabular)
    (hname : grammar.prefixRule .identifier = some .name) (hchain : IsChain grammar tokens)
    {other : Expr} (h : InOrder expr tokens) (hrespects : expr.Respects grammar)
    (hother : InOrder other tokens) (hrespectsOther : other.Respects grammar) : expr = other := by
  -- Both are what is read from the chain, with whichever end mark after it.
  have hmark : (Token.endMark default).kind = .endOfInput := rfl
  have hreads := h.reads_chain htable hname hrespects hchain hmark
  have hreadsOther := hother.reads_chain htable hname hrespectsOther hchain hmark
  have hstart : grammar.prefixRule .endOfInput = none := htable.start _ (by decide)
  exact Except.ok.inj (Reads.unique hstart htable.extend hreads hreadsOther)

end Expr

/-- Each chain has a tree that respects the table. -/
theorem IsChain.exists_tree {grammar : Grammar} (htable : grammar.Tabular) {tokens : List Token}
    (h : IsChain grammar tokens) :
    ∃ tree : Expr, tree.InOrder tokens ∧ tree.Respects grammar := by
  cases tokens with
  | nil => exact h.elim
  | cons first rest =>
    have hfirst : Expr.InOrder (.name first.value) [first] := .name
    exact Expr.exists_respects htable h.2 hfirst trivial

/-- Each chain of names and operators of a table, of any length, has exactly one tree that
respects the table. A parser with that table reads the chain up to the end mark that
follows it and gives that tree, unless more than 255 steps to a right operand are on a
path in it: then it is nested too deep. -/
theorem parseExpr_chain {entries : List Entry} (hentries : ∀ entry ∈ entries, entry.Tabular)
    (hname : .starting .identifier .name ∈ entries) {tokens : List Token}
    (hchain : IsChain (Grammar.empty.addAll entries) tokens) :
    (∃! tree : Expr, tree.InOrder tokens ∧ tree.Respects (Grammar.empty.addAll entries)) ∧
    ∀ tree : Expr, tree.InOrder tokens → tree.Respects (Grammar.empty.addAll entries) →
      ∀ {parser : Parser} {mark : Token} {rest : Stream' Token}, parser.depth = 0 →
        mark.kind = .endOfInput → parser.pending = tokens ++ₛ Stream'.cons mark rest →
        (tree.rightSteps ≤ 255 → ∃ after,
          (Parser.parseExpr (Grammar.empty.addAll entries) Power.lowest.level).run parser =
            .ok tree after ∧ after.pending = Stream'.cons mark rest) ∧
        (255 < tree.rightSteps → ∃ position after,
          (Parser.parseExpr (Grammar.empty.addAll entries) Power.lowest.level).run parser =
            .stop (.fault ⟨.nestingTooDeep 256, position⟩) after) := by
  have htable : (Grammar.empty.addAll entries).Tabular := Grammar.tabular_empty.addAll hentries
  have hrule : (Grammar.empty.addAll entries).prefixRule .identifier = some .name :=
    Grammar.prefixRule_addAll hentries (.inr hname)
  generalize Grammar.empty.addAll entries = grammar at htable hrule hchain ⊢
  constructor
  · obtain ⟨tree, horder, hrespects⟩ := hchain.exists_tree htable
    refine ⟨tree, ⟨horder, hrespects⟩, ?_⟩
    rintro other ⟨horderOther, hrespectsOther⟩
    exact horderOther.unique htable hrule hchain hrespectsOther horder hrespects
  · intro tree horder hrespects parser mark rest hdepth hmark hpending
    have hstart : grammar.prefixRule .endOfInput = none := htable.start _ (by decide)
    have hreads := horder.reads_chain htable hrule hrespects hchain hmark
    have hmeets := Parser.parseExpr_meets hstart htable.extend hreads hpending (by simp [hdepth])
    rw [htable.limit, hdepth] at hmeets
    obtain ⟨hgives, hdeep⟩ := hmeets
    constructor
    · intro hsteps
      have hfits : ∀ limit ∈ some Grammar.maxDepth, 0 + (tree.rightSteps + 1) ≤ limit := by
        rintro limit ⟨⟩
        unfold Grammar.maxDepth
        omega
      obtain ⟨after, hrun, hafter, -⟩ := hgives hfits
      exact ⟨after, hrun, hafter⟩
    · intro hsteps
      apply hdeep Grammar.maxDepth rfl
      unfold Grammar.maxDepth
      omega

/-- With a plus sign that is grouped from the left and a minus sign of the same power that
is grouped from the right, `a - b + c` is a difference. -/
theorem parseExpr_chain_mixed :
    let entries : List Entry := [.extending .plus (.binary .sum .left),
      .starting .identifier .name, .extending .dash (.binary .sum .right)]
    let token : Kind → String → Token := fun kind value => ⟨kind, value, default⟩
    let tokens := [token .identifier "a", token .dash "-", token .identifier "b", token .plus "+",
      token .identifier "c"]
    let tree : Expr := .binary (.name "a") .dash (.binary (.name "b") .plus (.name "c"))
    (∀ entry ∈ entries, entry.Tabular) ∧ IsChain (Grammar.empty.addAll entries) tokens ∧
      ∃ after, (Parser.parseExpr (Grammar.empty.addAll entries) Power.lowest.level).run
        (.ofSupply (.list (.ofList tokens))) = .ok tree after := by
  intro entries token tokens tree
  have hentries : ∀ entry ∈ entries, entry.Tabular := by
    simp only [entries, List.forall_mem_cons]
    exact ⟨.operator (by decide) (by decide), .name, .operator (by decide) (by decide), by simp⟩
  have hname : .starting .identifier .name ∈ entries := by decide
  have hchain : IsChain (Grammar.empty.addAll entries) tokens :=
    ⟨rfl, by decide, rfl, by decide, rfl, trivial⟩
  have hleaf : ∀ text, (Expr.name text).InOrder [token .identifier text] :=
    fun text => @Expr.InOrder.name (token .identifier text)
  have hnode : ∀ {left right : Expr} {before after : List Token} (kind : Kind) (text : String),
      left.InOrder before → right.InOrder after →
      (Expr.binary left kind right).InOrder (before ++ token kind text :: after) :=
    fun kind text hleft hright => @Expr.InOrder.binary _ _ _ (token kind text) _ hleft hright
  have horder : tree.InOrder tokens :=
    hnode .dash "-" (hleaf "a") (hnode .plus "+" (hleaf "b") (hleaf "c"))
  have hrespects : tree.Respects (Grammar.empty.addAll entries) :=
    ⟨by decide, by decide, trivial, by decide, by decide, trivial, trivial⟩
  have hpending : (Parser.ofSupply (.list (.ofList tokens))).pending = _ := stream_ofList tokens
  obtain ⟨hgives, -⟩ := (parseExpr_chain hentries hname hchain).2 tree horder hrespects rfl
    (show (endMarkAfter tokens).kind = _ from rfl) hpending
  obtain ⟨after, hrun, -⟩ := hgives (by decide)
  exact ⟨hentries, hchain, after, hrun⟩

end Precedence
