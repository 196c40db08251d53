import Lox.Proofs.Grammar.Inverse
import Lox.Proofs.Syntax.Legible
import Lox.Proofs.Token.Tiling

/-!
# Rendered expressions show their trees

The names in a tree are lexemes of the tokens that it was read from, and the scanner takes no reserved
word for a name. So two expressions that were read without an error, and in which there are neither
texts nor numbers that are not finite, are rendered alike just if their trees are the same but for
the lines.
-/

namespace Lox

namespace Tree

/-- No literal is a text, and all numbers are finite. -/
abbrev Plain (tree : Tree) : Prop :=
  tree.Leaves Literal.Plain fun _ => True

/-! ### Lines do not show -/

mutual

theorem render_mapLines (line : Nat → Nat) : (tree : Tree) → (tree.mapLines line).render = tree.render
  | literal _ | var _ => rfl
  | group inner | unary _ inner _ | assign _ inner => by
    simp [mapLines, render, Identifier.mapLines, render_mapLines line inner]
  | binary _ left right _ | logical _ left right => by
    simp [mapLines, render, render_mapLines line left, render_mapLines line right]
  | call callee arguments _ => by
    simp [mapLines, render, render_mapLines line callee, renderArguments_mapAllLines line arguments]

theorem renderArguments_mapAllLines (line : Nat → Nat) : (trees : List Tree) →
    renderArguments (mapAllLines line trees) = renderArguments trees
  | [] => rfl
  | tree :: rest => by
    simp [mapAllLines, renderArguments, render_mapLines line tree,
      renderArguments_mapAllLines line rest]

end

/-! ### Names are lexemes -/

section
variable {good : Literal → Prop} {fine : Identifier → Prop}

mutual

/-- What holds of the identifiers among the tokens holds of the names in a tree. -/
theorem Written.leaves : (tree : Tree) → {tokens : List Token} → tree.Written tokens →
    (∀ token ∈ tokens, token.kind = .identifier → fine (.ofToken token)) →
    (tree.Leaves good fun _ => True) → tree.Leaves good fine
  | literal _, _, _, _, hgood => hgood
  | var _, _, hwritten, hfine, _ => by
    cases hwritten with
    | var name => exact hfine _ (by simp) name.isKind
  | group inner, _, hwritten, hfine, hgood => by
    cases hwritten with
    | group opening hinner closing =>
      exact Written.leaves inner hinner (fun token hmem => hfine token (by simp [hmem])) hgood
  | unary _ operand _, _, hwritten, hfine, hgood => by
    cases hwritten with
    | unary reads hoperand =>
      exact Written.leaves operand hoperand (fun token hmem => hfine token (by simp [hmem])) hgood
  | binary _ left right _, _, hwritten, hfine, ⟨hleft, hright⟩ => by
    cases hwritten with
    | binary writtenLeft reads writtenRight =>
      exact ⟨Written.leaves left writtenLeft (fun token hmem => hfine token (by simp [hmem])) hleft,
        Written.leaves right writtenRight (fun token hmem => hfine token (by simp [hmem])) hright⟩
  | logical _ left right, _, hwritten, hfine, ⟨hleft, hright⟩ => by
    cases hwritten with
    | logical writtenLeft sign writtenRight =>
      exact ⟨Written.leaves left writtenLeft (fun token hmem => hfine token (by simp [hmem])) hleft,
        Written.leaves right writtenRight (fun token hmem => hfine token (by simp [hmem])) hright⟩
  | assign _ value, _, hwritten, hfine, ⟨_, hvalue⟩ => by
    cases hwritten with
    | assign target equals writtenValue =>
      exact ⟨hfine _ (by simp) target.isKind,
        Written.leaves value writtenValue (fun token hmem => hfine token (by simp [hmem])) hvalue⟩
  | call callee arguments _, _, hwritten, hfine, ⟨hcallee, harguments⟩ => by
    cases hwritten with
    | call writtenCallee opening writtenArguments closing =>
      exact ⟨Written.leaves callee writtenCallee (fun token hmem => hfine token (by simp [hmem]))
        hcallee, WrittenArguments.leaves arguments writtenArguments
          (fun token hmem => hfine token (by simp [hmem])) harguments⟩

theorem WrittenArguments.leaves : (trees : List Tree) → {inside : List Token} →
    WrittenArguments trees inside →
    (∀ token ∈ inside, token.kind = .identifier → fine (.ofToken token)) →
    AllLeaves good (fun _ => True) trees → AllLeaves good fine trees
  | [], _, _, _, _ => trivial
  | tree :: rest, _, hwritten, hfine, ⟨htree, hrest⟩ => by
    cases hwritten with
    | last written => exact ⟨Written.leaves tree written hfine htree, trivial⟩
    | more written comma writtenRest =>
      exact ⟨Written.leaves tree written (fun token hmem => hfine token (by simp [hmem])) htree,
        WrittenArguments.leaves _ writtenRest (fun token hmem => hfine token (by simp [hmem])) hrest⟩

end

end

end Tree

/-- The scanner takes no reserved word for a name. -/
theorem Scan.freeWord_of_mem_tokens {text : String} {token : Token}
    (hmem : token ∈ (ofText text).tokens) (hkind : token.kind = .identifier) :
    FreeWord token.lexeme := by
  have hlexeme := lexeme_of_mem_tokens hmem (by simp [Token.isEnd, hkind])
  rw [hkind] at hlexeme
  cases hlexeme with
  | symbol h =>
    unfold TokenKind.ofSymbol at h
    split at h <;> cases h
  | identifier hword free =>
    exact ⟨hword, fun keyword => by simpa using free keyword⟩

/-- An expression that was read from a text stands for a tree, whose names are not reserved. -/
theorem Scan.exists_tree {text : String} {expression : Expression}
    (h : Expression.ofTokens (ofText text).tokens = .ok (.ok expression)) :
    ∃ tree, expression.tree? = some tree ∧ (tree.Plain → tree.Legible) := by
  obtain ⟨tokens, ending, htokens, hending, hopen⟩ := exists_ending text
  rw [htokens] at h
  obtain ⟨tree, hspelled, rfl⟩ := spelled_of_ofTokens (by simpa [Token.isEnd] using hending)
    (by simpa [Token.isEnd] using hopen) h
  refine ⟨tree, hspelled.tree?_expression, Tree.Written.leaves tree hspelled.written ?_⟩
  exact fun token hmem => freeWord_of_mem_tokens (htokens ▸ List.mem_append_left _ hmem)

/-- Expressions that were read from two texts without an error stand for a tree each, and where these
have neither texts nor numbers that are not finite in them, they are rendered alike just if they are
the same up to the lines that they store. -/
theorem rendering_shows_tree {text other : String} {first second : Expression}
    (hfirst : Expression.ofTokens (Scan.ofText text).tokens = .ok (.ok first))
    (hsecond : Expression.ofTokens (Scan.ofText other).tokens = .ok (.ok second)) :
    ∃ tree tree', first.tree? = some tree ∧ second.tree? = some tree' ∧
      (tree.Plain → tree'.Plain → (tree.render = tree'.render ↔
        tree.mapLines (fun _ => 0) = tree'.mapLines fun _ => 0)) := by
  obtain ⟨tree, htree, hlegible⟩ := Scan.exists_tree hfirst
  obtain ⟨tree', htree', hlegible'⟩ := Scan.exists_tree hsecond
  refine ⟨tree, tree', htree, htree', fun hplain hplain' => ⟨fun h => ?_, fun h => ?_⟩⟩
  · exact Tree.render_unique (hlegible hplain) (hlegible' hplain') h
  · rw [← tree.render_mapLines fun _ => 0, h, Tree.render_mapLines]

set_option maxRecDepth 20000 in
/-- A minus sign with one operand and one with two, on one line and on two. -/
theorem rendering_shows_tree_spaced : ∃ first second tree tree',
    Expression.ofTokens (Scan.ofText "-f(nil) - a").tokens = .ok (.ok first) ∧
      Expression.ofTokens (Scan.ofText "- f ( nil )\n- a").tokens = .ok (.ok second) ∧
      first.tree? = some tree ∧ second.tree? = some tree' ∧ tree.Plain ∧ tree'.Plain ∧
      tree.render = "(- (- (call f nil)) a)" ∧ tree'.render = "(- (- (call f nil)) a)" ∧
      tree.mapLines (fun _ => 0) = tree'.mapLines fun _ => 0 := by
  have hfirst : Expression.ofTokens (Scan.ofText "-f(nil) - a").tokens =
      .ok (.ok ⟨#[.var ⟨"f", 1⟩, .literal .nil, .call 0 [1] 1, .unary .negate 2 1, .var ⟨"a", 1⟩,
        .binary .subtract 3 4 1], 5⟩) := by cbv
  have hsecond : Expression.ofTokens (Scan.ofText "- f ( nil )\n- a").tokens =
      .ok (.ok ⟨#[.var ⟨"f", 1⟩, .literal .nil, .call 0 [1] 1, .unary .negate 2 1, .var ⟨"a", 2⟩,
        .binary .subtract 3 4 2], 5⟩) := by cbv
  obtain ⟨tree, tree', htree, htree', hshows⟩ := rendering_shows_tree hfirst hsecond
  refine ⟨_, _, tree, tree', hfirst, hsecond, htree, htree', ?_⟩
  cases htree
  cases htree'
  have hplain (line : Nat) : (Tree.binary .subtract (.unary .negate (.call (.var ⟨"f", 1⟩)
      [.literal .nil] 1) 1) (.var ⟨"a", line⟩) line).Plain :=
    ⟨⟨trivial, trivial, trivial⟩, trivial⟩
  exact ⟨hplain 1, hplain 2, rfl, rfl, (hshows (hplain 1) (hplain 2)).1 rfl⟩

end Lox
