import Lox.Proofs.Grammar.Yields
import Lox.Proofs.Syntax.Height

/-!
# The expressions that are kept

Every expression that is kept of a list of tokens is an ordered tree in which no more levels are open
than the grammar allows, whether or not the tokens were read without errors. So the height of a kept
expression is bounded by its longest spine. By nothing else: the limit on levels counts no link of a
spine, and sums of any length are kept.
-/

namespace Lox

namespace Grammar

/-- The end of a list of tokens is always one, if need be one that is made up. -/
theorem State.ending_kind_ofTokens (tokens : List Token) :
    (State.ofTokens tokens).ending.kind = .eof := by
  rw [ofTokens]
  cases hfind : tokens.find? Token.isEnd with
  | some token => simpa [Token.isEnd] using List.find?_some hfind
  | none =>
    rw [Option.getD_none, endOf]
    cases hlast : tokens.getLast? with
    | none => rfl
    | some last =>
      have hopen := List.find?_eq_none.1 hfind last (List.mem_of_getLast? hlast)
      simp [hopen, Token.atEnd]

/-- A list of tokens is read from the front, up to the first end. -/
theorem State.leftOf_ofTokens (tokens : List Token) : (State.ofTokens tokens).LeftOf tokens :=
  ⟨State.ending_kind_ofTokens tokens, (List.takeWhile_prefix _).subset⟩

/-- The expression stands for an ordered tree in which fewer levels are open than are free. -/
def Sound (levels : Nat) (expression : Expression) : Prop :=
  ∃ tree : Tree, expression.tree? = some tree ∧ tree.Ordered ∧ tree.depth < levels

theorem yields_expression {tokens : List Token} {levels most : Nat} (hle : levels ≤ most) :
    Yields tokens (expression levels) (Sound most) := by
  refine (steady_expression levels).yields fun hrun hleft => ?_
  obtain ⟨phrase, tail, hlegal, -, rfl, -⟩ := expression_eq_ok hrun hleft.ending_kind
  have htree := phrase.admits hlegal.ordered
  exact ⟨phrase.tree, phrase.tree?_expression, htree.ordered,
    Nat.lt_of_le_of_lt htree.depth_le (Nat.lt_of_lt_of_le hlegal.depth_lt hle)⟩

theorem sound_ofLiteral (value : Literal) : Sound maxNesting (.ofLiteral value) :=
  ⟨.literal value, rfl, trivial, Nat.zero_lt_succ _⟩

end Grammar

open Grammar

/-- The expressions that are kept of a list of tokens: the only one, or those of a program. -/
inductive Expression.Kept (tokens : List Token) : Expression → Prop where
  | alone {expression : Expression} (h : Expression.ofTokens tokens = .ok (.ok expression)) :
    Kept tokens expression
  | within {program : Program} {expression : Expression} (h : Program.ofTokens tokens = .ok program)
      (hmem : expression ∈ program.expressions) : Kept tokens expression

/-- What is passed on from the parts of statements holds of all statements of a program. -/
theorem Program.forall_mem_statements {good : Expression → Prop} {plain entry : Statement → Prop}
    (closed : Statement.Closed good plain entry) (hholds : good (.ofLiteral (.bool true)))
    {tokens : List Token} (hexpression : ∀ levels ≤ maxNesting, Yields tokens (expression levels) good)
    {program : Program} (h : Program.ofTokens tokens = .ok program) :
    ∀ statement ∈ program.statements, entry statement := by
  intro statement hstatement
  obtain ⟨found, hfound, rfl⟩ := List.mem_filterMap.1 hstatement
  unfold Program.ofTokens at h
  have hyields : Yields tokens (Grammar.declarations tokens #[]) _ :=
    (conveyedByAll_yields closed hholds tokens).declarations hexpression tokens #[]
  split at h
  case h_1 values after heq =>
    cases h
    have hvalues := (hyields.of_ok heq (State.leftOf_ofTokens tokens)).1
    exact hvalues (by simp) _ hfound statement rfl
  case h_2 =>
    cases h
    simp at hfound
  case h_3 => cases h

theorem Program.sound_of_mem_expressions {tokens : List Token} {program : Program}
    (h : Program.ofTokens tokens = .ok program) :
    ∀ expression ∈ program.expressions, Sound maxNesting expression := by
  intro expression hmem
  obtain ⟨statement, hstatement, hexpression⟩ := List.mem_flatMap.1 hmem
  exact Program.forall_mem_statements (Statement.closed_keeps _) (sound_ofLiteral _)
    (fun _ => yields_expression) h statement hstatement expression hexpression

theorem Expression.sound_of_ofTokens {tokens : List Token} {expression : Expression}
    (h : Expression.ofTokens tokens = .ok (.ok expression)) : Sound maxNesting expression := by
  unfold Expression.ofTokens at h
  have hyields : Yields tokens onlyExpression (Sound maxNesting) :=
    (yields_expression (Nat.le_refl _)).bind fun _ hsound =>
      (steady_expect _ _).before fun _ => yields_pure hsound
  split at h
  case h_1 parsed after heq =>
    have hsound := (hyields.of_ok heq (State.leftOf_ofTokens tokens)).1
    split at h
    case isTrue =>
      cases h
      exact hsound
    case isFalse => cases h
  case h_2 => cases h
  case h_3 => cases h

theorem Expression.Kept.sound {tokens : List Token} {expression : Expression}
    (h : Kept tokens expression) : Sound maxNesting expression := by
  cases h with
  | alone h => exact sound_of_ofTokens h
  | within h hmem => exact Program.sound_of_mem_expressions h expression hmem

/-- Whatever is kept of any tokens, its tree is as high as its longest spine at least, and exceeds it
by a factor at most that the limit on levels determines. So heights are bounded where the numbers of
operators and calls in a row are, and only there. -/
theorem height_of_kept {tokens : List Token} {expression : Expression}
    (h : Expression.Kept tokens expression) :
    ∃ tree : Tree, expression.tree? = some tree ∧ tree.longestSpine ≤ tree.height ∧
      tree.height < 7 * maxNesting * (tree.longestSpine + 1) := by
  obtain ⟨tree, htree, hordered, hdepth⟩ := h.sound
  exact ⟨tree, htree, tree.longestSpine_le_height, tree.height_lt hordered hdepth⟩

/-! ### Sums -/

/-- The tree of `a + a + … + a` with so many operators. -/
def Tree.sum : Nat → Tree
  | 0 => .var ⟨"a", 1⟩
  | count + 1 => .binary .add (sum count) (.var ⟨"a", 1⟩) 1

def Tree.sumTokens : Nat → List Token
  | 0 => [(Mark.plain .identifier "a" 1).token]
  | count + 1 =>
    sumTokens count ++ [(Mark.plain .plus "+" 1).token, (Mark.plain .identifier "a" 1).token]

namespace Tree

theorem spelled_sum {levels : Nat} (hpos : 0 < levels) (count : Nat) :
    (sum count).Spelled levels (sumTokens count) := by
  have hname := Written.var (.plain .identifier "a" 1)
  induction count with
  | zero => exact ⟨hname, trivial, trivial, hpos⟩
  | succ count ih =>
    have hplace : 5 ≤ (sum count).place := by
      cases count with
      | zero => decide
      | succ count => exact Nat.le_refl 5
    have hplus : BinaryOperator.ofToken? (Mark.plain .plus "+" 1).token.kind = some .add := rfl
    refine ⟨.binary ih.written hplus hname, ⟨hplace, by decide, ih.ordered, trivial⟩,
      ⟨ih.arity, trivial⟩, ?_⟩
    simpa [sum, depth] using ih.depth_lt

theorem height_sum (count : Nat) : (sum count).height = count := by
  induction count with
  | zero => rfl
  | succ count ih => simp [sum, height, ih]

theorem kind_ne_eof_of_mem_sumTokens (count : Nat) :
    ∀ token ∈ sumTokens count, token.kind ≠ .eof := by
  induction count with
  | zero => decide
  | succ count ih => exact List.forall_mem_append.2 ⟨ih, by decide⟩

end Tree

theorem Expression.kept_sum (count : Nat) :
    Kept (Tree.sumTokens count ++ [.atEnd 0 1]) (Tree.sum count).expression :=
  .alone (ofTokens_of_spelled rfl (Tree.kind_ne_eof_of_mem_sumTokens count)
    (Tree.spelled_sum (by decide) count))

theorem height_of_kept_sum : ∃ expression : Expression,
    Expression.Kept (Tree.sumTokens 2 ++ [.atEnd 0 1]) expression ∧
      ∃ tree : Tree, expression.tree? = some tree ∧ tree.longestSpine ≤ tree.height ∧
        tree.height < 7 * maxNesting * (tree.longestSpine + 1) :=
  ⟨_, Expression.kept_sum 2, height_of_kept (Expression.kept_sum 2)⟩

/-- No limit on levels bounds the height of what is kept. -/
theorem height_of_kept_unbounded : ¬ ∃ bound : Nat, ∀ (tokens : List Token)
    (expression : Expression) (tree : Tree), Expression.Kept tokens expression →
      expression.tree? = some tree → tree.height ≤ bound := by
  rintro ⟨bound, hbound⟩
  have htree := (Tree.spelled_sum Nat.one_pos (bound + 1)).tree?_expression
  have hheight := hbound _ _ _ (Expression.kept_sum (bound + 1)) htree
  rw [Tree.height_sum] at hheight
  omega

end Lox
