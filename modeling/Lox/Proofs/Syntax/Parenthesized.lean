import Lox.Proofs.Syntax.Lines
import Lox.Syntax.Tree
import Mathlib.Data.List.TakeWhile

/-!
# Texts in parentheses

A rendered tree is a word, or parentheses around a word and around further texts of this form, each
behind a space. Such a text is read in one way only, whatever follows it, as long as its words have
neither spaces nor parentheses in them: a word goes on up to the first of these characters, and a
pair of parentheses up to the one that closes it.

From what is in the parentheses one sees what node stands there: the word says it, except for the
minus sign, which has one operand or two.
-/

namespace Lox

/-- Words, and words in front of parts in parentheses. -/
inductive Parenthesized where
  | atom (word : String)
  | list (head : String) (parts : List Parenthesized)

/-- The characters that end a word. -/
def endsWord (c : Char) : Bool :=
  c = ' ' || c = '(' || c = ')'

/-- One character or more, none of which ends a word. -/
def Unbroken (word : String) : Prop :=
  word.toList ≠ [] ∧ ∀ c ∈ word.toList, endsWord c = false

instance (word : String) : Decidable (Unbroken word) :=
  @instDecidableAnd _ _ inferInstance (List.decidableBAll _ _)

namespace Parenthesized

mutual

def characters : Parenthesized → List Char
  | atom word => word.toList
  | list head parts => '(' :: head.toList ++ partsCharacters parts ++ [')']

/-- Each part behind a space. -/
def partsCharacters : List Parenthesized → List Char
  | [] => []
  | part :: rest => ' ' :: part.characters ++ partsCharacters rest

end

mutual

/-- All words are unbroken. -/
def Sound : Parenthesized → Prop
  | atom word => Unbroken word
  | list head parts => Unbroken head ∧ AllSound parts

def AllSound : List Parenthesized → Prop
  | [] => True
  | part :: rest => part.Sound ∧ AllSound rest

end

/-- Nothing follows, or a character that ends a word. -/
def Ends (rest : List Char) : Prop :=
  ∀ c ∈ rest.head?, endsWord c = true

theorem ends_parts (parts : List Parenthesized) (rest : List Char) :
    Ends (partsCharacters parts ++ ')' :: rest) := by
  cases parts with
  | nil => rintro c ⟨⟩; rfl
  | cons part others => rintro c ⟨⟩; rfl

section
variable {rest others : List Char} (hrest : Ends rest) (hothers : Ends others)
include hrest hothers

/-- A word goes on up to the first character that ends one. -/
theorem word_unique {first second : String} (hfirst : Unbroken first) (hsecond : Unbroken second)
    (h : first.toList ++ rest = second.toList ++ others) : first = second ∧ rest = others := by
  have htake {word : String} {rest : List Char} (hword : Unbroken word) (hrest : Ends rest) :
      (word.toList ++ rest).takeWhile (!endsWord ·) = word.toList := by
    rw [List.takeWhile_append_of_pos fun c hc => by simp [hword.2 c hc]]
    cases rest with
    | nil => simp
    | cons c rest => simp [hrest c rfl]
  have hword : first.toList = second.toList := by
    rw [← htake hfirst hrest, ← htake hsecond hothers, h]
  rw [hword] at h
  exact ⟨String.toList_inj.1 hword, List.append_cancel_left h⟩

end

/-- A word does not begin with a parenthesis. -/
theorem word_ne_parenthesis {word : String} (hword : Unbroken word) (rest others : List Char) :
    word.toList ++ rest ≠ '(' :: others := by
  obtain ⟨c, chars, hchars⟩ := List.exists_cons_of_ne_nil hword.1
  have hc := hword.2 c (by simp [hchars])
  rw [hchars, List.cons_append]
  rintro heq
  rw [(List.cons.inj heq).1] at hc
  cases hc

mutual

/-- What is read up to the end of a text in parentheses is that text. -/
theorem characters_unique : (first second : Parenthesized) → {rest others : List Char} →
    first.Sound → second.Sound → Ends rest → Ends others →
    first.characters ++ rest = second.characters ++ others → first = second ∧ rest = others
  | atom word, atom other, _, _, hfirst, hsecond, hrest, hothers, h => by
    obtain ⟨rfl, hrest⟩ := word_unique hrest hothers hfirst hsecond h
    exact ⟨rfl, hrest⟩
  | atom word, list head parts, _, _, hfirst, _, _, _, h =>
    absurd h (word_ne_parenthesis hfirst _ _)
  | list head parts, atom word, _, _, _, hsecond, _, _, h =>
    absurd h.symm (word_ne_parenthesis hsecond _ _)
  | list head parts, list head' parts', rest, others, ⟨hhead, hparts⟩, ⟨hhead', hparts'⟩, _, _,
    h => by
    simp only [characters, List.cons_append, List.append_assoc, List.cons.injEq, true_and,
      List.nil_append] at h
    obtain ⟨rfl, hbehind⟩ :=
      word_unique (ends_parts parts rest) (ends_parts parts' others) hhead hhead' h
    obtain ⟨rfl, hrest⟩ := parts_unique parts parts' hparts hparts' hbehind
    exact ⟨rfl, hrest⟩

/-- The parts up to a closing parenthesis are those in front of it. -/
theorem parts_unique : (first second : List Parenthesized) → {rest others : List Char} →
    AllSound first → AllSound second →
    partsCharacters first ++ ')' :: rest = partsCharacters second ++ ')' :: others →
    first = second ∧ rest = others
  | [], [], _, _, _, _, h => ⟨rfl, (List.cons.inj h).2⟩
  | [], part :: parts, _, _, _, _, h => by cases (List.cons.inj h).1
  | part :: parts, [], _, _, _, _, h => by cases (List.cons.inj h).1
  | part :: parts, part' :: parts', rest, others, ⟨hpart, hparts⟩, ⟨hpart', hparts'⟩, h => by
    simp only [partsCharacters, List.cons_append, List.append_assoc, List.cons.injEq, true_and] at h
    obtain ⟨rfl, hbehind⟩ := characters_unique part part' hpart hpart' (ends_parts parts rest)
      (ends_parts parts' others) h
    obtain ⟨rfl, hrest⟩ := parts_unique parts parts' hparts hparts' hbehind
    exact ⟨rfl, hrest⟩

end

end Parenthesized

/-! ### Trees as texts in parentheses -/

namespace Tree

mutual

/-- The text in parentheses that a tree is rendered as. -/
def parenthesized : Tree → Parenthesized
  | literal value => .atom value.render
  | var name => .atom name.name
  | group inner => .list "group" [inner.parenthesized]
  | unary operator operand _ => .list operator.symbol [operand.parenthesized]
  | binary operator left right _ =>
    .list operator.symbol [left.parenthesized, right.parenthesized]
  | logical operator left right =>
    .list operator.symbol [left.parenthesized, right.parenthesized]
  | assign name value => .list "=" [.atom name.name, value.parenthesized]
  | call callee arguments _ => .list "call" (callee.parenthesized :: allParenthesized arguments)

def allParenthesized : List Tree → List Parenthesized
  | [] => []
  | tree :: rest => tree.parenthesized :: allParenthesized rest

end

mutual

theorem toList_render : (tree : Tree) → tree.render.toList = tree.parenthesized.characters
  | literal value | var name => rfl
  | group inner | assign name inner | unary operator inner _ => by
    simp [render, parenthesized, Parenthesized.characters, Parenthesized.partsCharacters,
      toList_render inner]
  | binary operator left right _ | logical operator left right => by
    simp [render, parenthesized, Parenthesized.characters, Parenthesized.partsCharacters,
      toList_render left, toList_render right]
  | call callee arguments _ => by
    simp [render, parenthesized, Parenthesized.characters, Parenthesized.partsCharacters,
      toList_render callee, toList_renderArguments arguments]

theorem toList_renderArguments : (trees : List Tree) →
    (renderArguments trees).toList = Parenthesized.partsCharacters (allParenthesized trees)
  | [] => rfl
  | tree :: rest => by
    simp [renderArguments, allParenthesized, Parenthesized.partsCharacters, toList_render tree,
      toList_renderArguments rest]

end

/-- The forms of trees that a text in parentheses shows. -/
inductive Form where
  | leaf | group | unary | binary | logical | assign | call

def form : Tree → Form
  | literal _ | var _ => .leaf
  | group _ => .group
  | unary .. => .unary
  | binary .. => .binary
  | logical .. => .logical
  | assign .. => .assign
  | call .. => .call

end Tree

/-- The form of the tree that is rendered as a text. The minus sign has one operand or two. -/
def Parenthesized.form : Parenthesized → Tree.Form
  | atom _ => .leaf
  | list "group" _ => .group
  | list "call" _ => .call
  | list "=" _ => .assign
  | list "and" _ => .logical
  | list "or" _ => .logical
  | list _ [_] => .unary
  | list _ _ => .binary

theorem Tree.form_parenthesized (tree : Tree) : tree.parenthesized.form = tree.form := by
  cases tree with
  | literal value | var name | group inner | assign name value => rfl
  | unary operator | binary operator | logical operator => cases operator <;> rfl
  | call callee arguments => rfl

end Lox
