import Mathlib
import Lox.Proofs.Grammar.Concatenation
import Lox.Proofs.Syntax.Arena
import Lox.Proofs.Token.Joining

/-!
# The tables of kept expressions

Every expression that is kept of a list of tokens, whether or not there were errors, is the table of
a phrase that stands in the tokens, or the `true` that a `for` loop without a condition is given. So
its table is a tree over the root, beside which lie the targets of assignments and the values that
were dropped, and it has no more nodes than tokens were read for it.
-/

namespace Lox

/-! ### Phrases that stand in the tokens -/

/-- The expression was read somewhere in the tokens, of a phrase that stands there. -/
def Expression.ReadIn (tokens : List Token) (expression : Expression) : Prop :=
  ∃ (levels : Nat) (before after : Grammar.State) (phrase : Phrase),
    Grammar.expression levels before = .ok expression after ∧ before.rest <:+ tokens ∧
      before.rest = phrase.tokens ++ after.rest ∧ phrase.Legal 0 levels ∧
      expression = phrase.expression

namespace Grammar

variable {α β : Type} {tokens : List Token} {good : α → Prop} {fine : β → Prop}

/-- Wherever the rule is run in the tokens, what it yields is good. -/
structure Gives (tokens : List Token) (rule : Rule α) (good : α → Prop) : Prop where
  steady : Steady rule
  good_of_ok : ∀ {before after : State} {value : α}, rule before = .ok value after →
    before.ending.kind = .eof → before.rest <:+ tokens → good value

theorem Gives.bind {rule : Rule α} {next : α → Rule β} (first : Gives tokens rule good)
    (second : ∀ value, Gives tokens (next value) fun result => good value → fine result) :
    Gives tokens (rule >>= next) fine where
  steady := first.steady.bind fun value => (second value).steady
  good_of_ok hrun hending hsuffix := by
    obtain ⟨value, between, hfirst, hsecond⟩ := bind_eq_ok.1 hrun
    have hcontinues := first.steady.of_ok hfirst
    exact (second value).good_of_ok hsecond (hcontinues.ending ▸ hending)
      (hcontinues.rest.trans hsuffix) (first.good_of_ok hfirst hending hsuffix)

theorem Gives.nested {rule : Rule α} (h : Gives tokens rule good) :
    Gives tokens (nested rule) good where
  steady := h.steady.nested
  good_of_ok hrun hending hsuffix := by
    obtain ⟨inner, hinner, -⟩ := nested_eq_ok hrun
    exact h.good_of_ok hinner hending hsuffix

theorem Gives.inFunction {rule : Rule α} (h : Gives tokens rule good) :
    Gives tokens (inFunction rule) good where
  steady := h.steady.inFunction
  good_of_ok hrun hending hsuffix := by
    rw [Grammar.inFunction] at hrun
    split at hrun
    case h_2 => cases hrun
    case h_1 inner hinner =>
      cases hrun
      exact h.good_of_ok hinner hending hsuffix

theorem Gives.recovering {rule : Rule α} (h : Gives tokens rule good) :
    Gives tokens (recovering rule) fun found => ∀ value ∈ found, good value where
  steady := h.steady.recovering
  good_of_ok hrun hending hsuffix := by
    rw [Grammar.recovering] at hrun
    split at hrun
    case h_1 value after hvalue =>
      cases hrun
      intro found hfound
      exact Option.some.inj hfound ▸ h.good_of_ok hvalue hending hsuffix
    case h_2 =>
      cases hrun
      simp
    case h_3 => cases hrun

theorem conveyed_gives (tokens : List Token) : Conveyed (Gives tokens) where
  pure {α value good} h := ⟨steady_pure value, fun hrun _ _ => by
    cases hrun
    exact h⟩
  reject cause := ⟨steady_reject cause, fun hrun _ _ => by cases hrun⟩
  steady h := ⟨h, fun _ _ _ => trivial⟩
  mono h hle := ⟨h.steady, fun hrun hending hsuffix => hle _ (h.good_of_ok hrun hending hsuffix)⟩
  bind := .bind
  nested := .nested
  recovering := .recovering

theorem gives_expression (levels : Nat) :
    Gives tokens (expression levels) (Expression.ReadIn tokens) where
  steady := steady_expression levels
  good_of_ok {before after parsed} hrun hending hsuffix := by
    obtain ⟨phrase, tail, hlegal, hrest, rfl, rfl⟩ := expression_eq_ok hrun hending
    exact ⟨levels, before, _, phrase, hrun, hsuffix, hrest, hlegal, rfl⟩

end Grammar

open Grammar

theorem Expression.Kept.readIn {tokens : List Token} {expression : Expression}
    (h : Kept tokens expression) : expression = .ofLiteral (.bool true) ∨
      expression.ReadIn (State.ofTokens tokens).rest := by
  cases h with
  | alone h =>
    unfold Expression.ofTokens at h
    split at h
    case h_1 parsed after heq =>
      split at h
      case isTrue =>
        cases h
        obtain ⟨first, between, hfirst, hlast⟩ := bind_eq_ok.1 heq
        obtain ⟨last, final, -, hdone⟩ := bind_eq_ok.1 hlast
        cases hdone
        exact .inr ((gives_expression maxNesting).good_of_ok hfirst
          (State.ending_kind_ofTokens tokens) List.suffix_rfl)
      case isFalse => cases h
    case h_2 => cases h
    case h_3 => cases h
  | @within program _ h hmem =>
    let good (expression : Expression) : Prop := expression = .ofLiteral (.bool true) ∨
      expression.ReadIn (State.ofTokens tokens).rest
    have hconveyed := conveyedByAll_of_closed (conveyed_gives (State.ofTokens tokens).rest)
      .inFunction (Statement.closed_keeps good) (.inl rfl)
    have hgood (levels : Nat) : Gives (State.ofTokens tokens).rest (Grammar.expression levels)
        good := (conveyed_gives _).mono (gives_expression levels) fun _ => .inr
    have hdeclarations := hconveyed.declarations (fun levels _ => hgood levels) tokens #[]
    obtain ⟨after, hrun, -⟩ := Program.eq_of_ofTokens h
    have hall := hdeclarations.good_of_ok hrun (State.ending_kind_ofTokens tokens) List.suffix_rfl
    obtain ⟨statement, hstatement, hexpression⟩ := List.mem_flatMap.1 hmem
    obtain ⟨found, hfound, rfl⟩ := List.mem_filterMap.1 hstatement
    exact hall (by simp) _ hfound statement rfl expression hexpression

/-! ### Texts -/

theorem Scanner.length_take_le (count : Nat) (scanner : Scanner) :
    (scanner.take count).length ≤ count := by
  induction count generalizing scanner with
  | zero => exact Nat.le_refl 0
  | succ count ih =>
    rw [take]
    split
    case h_1 item rest _ => exact Nat.succ_le_succ (ih rest)
    case h_2 => exact Nat.zero_le _

/-- The end of a text aside, it has no more tokens than bytes. -/
theorem Scan.length_rest_le (text : String) :
    (State.ofTokens (Scan.ofText text).tokens).rest.length ≤ text.utf8ByteSize := by
  obtain ⟨tokens, ending, htokens, hending, hopen⟩ := Scan.exists_ending text
  have hitems : (Scan.ofText text).tokens.length ≤ text.length + 1 :=
    (List.length_filterMap_le _ _).trans (Scanner.length_take_le _ _)
  have hkind : ending.kind = .eof := by simpa [Token.isEnd] using hending
  have hkinds : ∀ token ∈ tokens, token.kind ≠ .eof := by simpa [Token.isEnd] using hopen
  have hsize : text.utf8ByteSize = Text.byteSize text.toList := by
    rw [← utf8ByteSize_ofList, String.ofList_toList]
  have hbytes := Text.length_le_byteSize text.toList
  rw [String.length_toList] at hbytes
  rw [htokens, List.length_append, List.length_singleton] at hitems
  rw [htokens, State.ofTokens_append hkind hkinds, hsize]
  show tokens.length ≤ _
  omega

/-! ### Tables -/

/-- The table is a tree over the root: nodes refer only to nodes before them, nothing is referred to
twice, and the root is not referred to. -/
structure Expression.Rooted (expression : Expression) : Prop where
  root_lt : expression.root < expression.nodes.size
  lt_of_refers : ∀ parent child, Refers expression.nodes parent child → child < parent
  parent_unique : ∀ child first second, Refers expression.nodes first child →
    Refers expression.nodes second child → first = second
  nodup_references : (references expression.nodes).Nodup
  root_free : ∀ parent, ¬ Refers expression.nodes parent expression.root

theorem Forest.rooted {expression : Expression} {others : List Nat}
    (h : Forest expression.nodes (expression.root :: others)) : expression.Rooted where
  root_lt := h.lt_size_of_mem List.mem_cons_self
  lt_of_refers _ _ := h.lt_of_refers
  parent_unique _ _ _ := h.parent_unique
  nodup_references := h.nodup_references
  root_free parent hrefers :=
    h.notMem_references_of_mem List.mem_cons_self (mem_references.2 ⟨parent, hrefers⟩)

theorem Expression.rooted_ofLiteral (value : Literal) : (ofLiteral value).Rooted := by
  have hempty : Forest #[] ((Node.literal value).operands ++ []) := Forest.empty
  have hforest : Forest (ofLiteral value).nodes [(ofLiteral value).root] := hempty.push
  exact hforest.rooted

/-- The table of each expression that is kept is a tree over its root. If it was read at all, it was
read of a phrase, it has no more nodes than the phrase has tokens, and what is not reached from the
root is the target of an assignment or part of a value that was dropped. So there are fewer indices
than a word of 32 bits has values, if that is so for the bytes of the text. -/
theorem kept_tables_are_trees {tokens : List Token} {expression : Expression}
    (h : Expression.Kept tokens expression) :
    expression.Rooted ∧
      (expression = .ofLiteral (.bool true) ∨
        ∃ (levels : Nat) (before after : State) (phrase : Phrase),
          Grammar.expression levels before = .ok expression after ∧
          before.rest <:+ (State.ofTokens tokens).rest ∧
          before.rest = phrase.tokens ++ after.rest ∧ expression = phrase.expression ∧
          expression.nodes.size ≤ phrase.tokens.length ∧
          (∀ target ∈ phrase.targets #[], ∃ name, expression.nodes[target]? = some (.var name)) ∧
          ∀ index < expression.nodes.size,
            ¬ Reaches expression.nodes expression.root index ↔
              index ∈ phrase.targets #[] ∨
                ∃ value ∈ phrase.dropped #[], Reaches expression.nodes value index) ∧
      ∀ text : String, tokens = (Scan.ofText text).tokens → text.utf8ByteSize < 2 ^ 32 →
        expression.nodes.size < 2 ^ 32 := by
  obtain rfl | ⟨levels, before, after, phrase, hrun, hsuffix, hrest, hlegal, rfl⟩ := h.readIn
  · exact ⟨Expression.rooted_ofLiteral _, .inl rfl, fun _ _ _ => by decide⟩
  · have hsize : phrase.expression.nodes.size ≤ phrase.tokens.length := by
      have hle := phrase.size_lay_le #[] hlegal.ordered
      rwa [Array.size_empty, Nat.zero_add] at hle
    refine ⟨phrase.forest_expression.rooted, .inr ⟨levels, before, after, phrase, hrun, hsuffix,
      hrest, rfl, hsize, fun _ => phrase.exists_var_of_mem_targets,
      fun _ => phrase.not_reaches_root_iff⟩, ?_⟩
    rintro text rfl htext
    have hread := hsuffix.length_le
    have hbytes := Scan.length_rest_le text
    rw [hrest, List.length_append] at hread
    omega

/-- The tokens of `nil = a = b;`, with an assignment behind something that is no variable. -/
private def unassignable : List Token :=
  [(Mark.plain (.keyword .nilWord) "nil" 1).token, (Mark.plain .equal "=" 2).token,
    (Mark.plain .identifier "a" 3).token, (Mark.plain .equal "=" 4).token,
    (Mark.plain .identifier "b" 5).token, (Mark.plain .semicolon ";" 6).token]

set_option maxRecDepth 4000 in
theorem kept_tables_are_trees_unassignable : ∃ expression : Expression,
    Program.ofTokens unassignable = .ok ⟨[some (.expression expression)],
        [⟨.notAssignable, (Mark.plain .equal "=" 2).token⟩]⟩ ∧
      expression = ⟨#[.literal .nil, .var ⟨"a", 3⟩, .var ⟨"b", 5⟩, .assign ⟨"a", 3⟩ 2], 0⟩ ∧
      Expression.Kept unassignable expression ∧ expression.Rooted := by
  have hrun : Program.ofTokens unassignable = .ok ⟨[some (.expression
      ⟨#[.literal .nil, .var ⟨"a", 3⟩, .var ⟨"b", 5⟩, .assign ⟨"a", 3⟩ 2], 0⟩)],
        [⟨.notAssignable, (Mark.plain .equal "=" 2).token⟩]⟩ := by cbv
  have hkept : Expression.Kept unassignable _ := .within hrun (List.mem_singleton.2 rfl)
  exact ⟨_, hrun, rfl, hkept, (kept_tables_are_trees hkept).1⟩

end Lox
