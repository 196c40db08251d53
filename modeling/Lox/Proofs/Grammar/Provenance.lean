import Lox.Proofs.Grammar.Kept

/-!
# Where the lines of nodes come from

A node that may raise an error is laid down with the line of the token that the error is raised at: a
name, an operator, or the parenthesis that closes a call. So what holds of the lines of such tokens
holds of the lines in all expressions that are kept of a list of tokens.
-/

namespace Lox

/-- The tokens that an error may be raised at. -/
def TokenKind.mayRaise : TokenKind → Bool
  | .identifier | .rightParen => true
  | kind => (UnaryOperator.ofToken? kind).isSome || (BinaryOperator.ofToken? kind).isSome

theorem TokenKind.mayRaise_of_unary {kind : TokenKind} {operator : UnaryOperator}
    (h : UnaryOperator.ofToken? kind = some operator) : kind.mayRaise = true := by
  cases kind <;> first | rfl | cases h

theorem TokenKind.mayRaise_of_binary {kind : TokenKind} {operator : BinaryOperator}
    (h : BinaryOperator.ofToken? kind = some operator) : kind.mayRaise = true := by
  cases kind <;> first | rfl | cases h

theorem Connective.binary_of_ofToken? {kind : TokenKind} {operator : BinaryOperator}
    (h : ofToken? kind = some (.binary operator)) :
    BinaryOperator.ofToken? kind = some operator := by
  unfold ofToken? at h
  split at h
  · cases h
  · cases h
  · obtain ⟨found, hfound, heq⟩ := Option.map_eq_some_iff.1 h
    cases heq
    exact hfound

/-- The line that the node itself raises its errors on. -/
def Node.site? : Node → Option Nat
  | literal _ | group _ | logical .. => none
  | var name | assign name _ => some name.line
  | unary _ _ line | binary _ _ _ line | call _ _ line => some line

section
variable (placed : Nat → Prop)

def Node.Placed (node : Node) : Prop :=
  ∀ line ∈ node.site?, placed line

def Expression.Placed (expression : Expression) : Prop :=
  ∀ node ∈ expression.nodes.toList, node.Placed placed

/-- All tokens that an error may be raised at are on such lines. -/
def Token.AllPlaced (tokens : List Token) : Prop :=
  ∀ token ∈ tokens, token.kind.mayRaise = true → placed token.line

end

variable {placed : Nat → Prop}

theorem Token.AllPlaced.mono {some all : List Token} (h : AllPlaced placed all)
    (hsubset : some ⊆ all) : AllPlaced placed some :=
  fun token hmem => h token (hsubset hmem)

theorem Token.allPlaced_append {first second : List Token} :
    AllPlaced placed (first ++ second) ↔ AllPlaced placed first ∧ AllPlaced placed second :=
  List.forall_mem_append

theorem Token.allPlaced_cons {token : Token} {tokens : List Token} :
    AllPlaced placed (token :: tokens) ↔
      (token.kind.mayRaise = true → placed token.line) ∧ AllPlaced placed tokens :=
  List.forall_mem_cons

theorem Mark.placed_line {kind : TokenKind} (mark : Mark kind) (hkind : kind.mayRaise = true)
    (h : mark.token.kind.mayRaise = true → placed mark.token.line) : placed mark.token.line :=
  h (mark.isKind.symm ▸ hkind)

theorem Expression.placed_push {nodes : Array Node} (h : ∀ node ∈ nodes.toList, node.Placed placed)
    {node : Node} (hnode : node.Placed placed) : (Expression.push nodes node).Placed placed := by
  rw [Expression.Placed, Expression.push, Array.toList_push]
  exact List.forall_mem_append.2 ⟨h, List.forall_mem_singleton.2 hnode⟩

theorem Node.placed_none {node : Node} (h : node.site? = none) : node.Placed placed := by
  intro line hline
  rw [h] at hline
  cases hline

theorem Node.placed_some {node : Node} {line : Nat} (h : node.site? = some line)
    (hline : placed line) : node.Placed placed := by
  intro other hother
  rw [h] at hother
  cases hother
  exact hline

namespace Phrase

mutual

theorem placed_lay : (phrase : Phrase) → phrase.Ordered → Token.AllPlaced placed phrase.tokens →
    {nodes : Array Node} → (∀ node ∈ nodes.toList, node.Placed placed) →
    (phrase.lay nodes).Placed placed
  | literal .., _, _, _, hnodes => Expression.placed_push hnodes (Node.placed_none rfl)
  | var name, _, h, _, hnodes => Expression.placed_push hnodes
      (Node.placed_some rfl (name.placed_line rfl (Token.allPlaced_cons.1 h).1))
  | group _ inner _, hordered, h, _, hnodes => by
    have hinner := (Token.allPlaced_append.1 (Token.allPlaced_cons.1 h).2).1
    exact Expression.placed_push (placed_lay inner hordered hinner hnodes) (Node.placed_none rfl)
  | unary sign _ reads operand, hordered, h, _, hnodes => by
    obtain ⟨hsign, hoperand⟩ := Token.allPlaced_cons.1 h
    exact Expression.placed_push (placed_lay operand hordered.2 hoperand hnodes)
      (Node.placed_some rfl (hsign (TokenKind.mayRaise_of_unary reads)))
  | infixed left sign connective reads right, hordered, h, _, hnodes => by
    obtain ⟨hleft, hbehind⟩ := Token.allPlaced_append.1 h
    obtain ⟨hsign, hright⟩ := Token.allPlaced_cons.1 hbehind
    apply Expression.placed_push (placed_lay right hordered.2.2.2 hright
      (placed_lay left hordered.2.2.1 hleft hnodes))
    cases connective with
    | binary operator =>
      have hreads := Connective.binary_of_ofToken? reads
      exact Node.placed_some rfl (hsign (TokenKind.mayRaise_of_binary hreads))
    | logical operator => exact Node.placed_none rfl
  | assign target _ value, hordered, h, _, hnodes => by
    obtain ⟨htarget, hbehind⟩ := Token.allPlaced_cons.1 h
    have hname := target.placed_line rfl htarget
    exact Expression.placed_push (placed_lay value hordered (Token.allPlaced_cons.1 hbehind).2
      (Expression.placed_push hnodes (Node.placed_some rfl hname))) (Node.placed_some rfl hname)
  | stray target _ value, hordered, h, _, hnodes => by
    obtain ⟨htarget, hbehind⟩ := Token.allPlaced_append.1 h
    exact placed_lay value hordered.2.2.2 (Token.allPlaced_cons.1 hbehind).2
      (placed_lay target hordered.2.2.1 htarget hnodes)
  | call callee _ arguments inside closing, ⟨_, hcallee, hseparated, hall⟩, h, _, hnodes => by
    obtain ⟨hfront, hclosing⟩ := Token.allPlaced_append.1 h
    obtain ⟨hfirst, hbehind⟩ := Token.allPlaced_append.1 hfront
    have hinside := (Token.allPlaced_cons.1 hbehind).2
    exact Expression.placed_push (placed_layAll arguments hall hseparated hinside
      (placed_lay callee hcallee hfirst hnodes))
      (Node.placed_some rfl (closing.placed_line rfl (Token.allPlaced_cons.1 hclosing).1))

theorem placed_layAll : (phrases : List Phrase) → AllOrdered phrases → {inside : List Token} →
    Separated (pieces phrases) inside → Token.AllPlaced placed inside → {nodes : Array Node} →
    (∀ node ∈ nodes.toList, node.Placed placed) →
    ∀ node ∈ (layAll nodes phrases).1.toList, node.Placed placed
  | [], _, _, _, _, _, hnodes => hnodes
  | [phrase], hordered, _, hseparated, h, _, hnodes => by
    obtain rfl := hseparated.eq_piece
    exact placed_lay phrase hordered.1 h hnodes
  | phrase :: next :: rest, hordered, _, hseparated, h, _, hnodes => by
    obtain ⟨comma, others, hothers, rfl⟩ := hseparated.exists_comma
    obtain ⟨hphrase, hbehind⟩ := Token.allPlaced_append.1 h
    exact placed_layAll (next :: rest) hordered.2 hothers (Token.allPlaced_cons.1 hbehind).2
      (placed_lay phrase hordered.1 hphrase hnodes)

end

end Phrase

namespace Grammar

theorem yields_placed {tokens : List Token} (h : Token.AllPlaced placed tokens) (levels : Nat) :
    Yields tokens (expression levels) (Expression.Placed placed) := by
  refine (steady_expression levels).yields fun {before _ _} hrun hleft => ?_
  obtain ⟨phrase, tail, hlegal, hrest, rfl, -⟩ := expression_eq_ok hrun hleft.ending_kind
  have htokens : phrase.tokens ⊆ tokens :=
    List.Subset.trans (List.subset_append_left _ tail) (hrest ▸ hleft.subset)
  exact phrase.placed_lay hlegal.ordered (h.mono htokens) fun _ hmem => by cases hmem

end Grammar

/-- In a parsed program, errors may be raised on lines of such tokens only. -/
theorem Program.allKeep_placed {tokens : List Token} {program : Program}
    (hprogram : Program.ofTokens tokens = .ok program) (h : Token.AllPlaced placed tokens) :
    Statement.AllKeep (Expression.Placed placed) program.statements :=
  forall_mem_statements (Statement.closed_keeps _)
    (List.forall_mem_singleton.2 (Node.placed_none rfl))
    (fun levels _ => Grammar.yields_placed h levels) hprogram

end Lox
