import Lox.Proofs.Number.Plain
import Lox.Proofs.Syntax.Parenthesized

/-!
# Trees that are read off what they are rendered as

Where no literal is a text, all numbers are finite and all names are words that are not reserved, a
rendered tree shows the tree, up to its lines. No two literals are rendered alike, and none is
rendered as a name: the other words of literals are reserved, and a number begins with a digit or a
minus sign, as no word does.
-/

namespace Lox

/-- A word that is not reserved. -/
def FreeWord (word : String) : Prop :=
  Word word.toList ∧ ∀ keyword : Keyword, keyword.spelling ≠ word

/-- Not a text, and as a number finite. -/
def Literal.Plain : Literal → Prop
  | .nil | .bool _ => True
  | .number value => Number.Finite value
  | .text _ => False

namespace Tree

mutual

/-- The tree with its lines changed. -/
def mapLines (line : Nat → Nat) : Tree → Tree
  | literal value => literal value
  | var name => var (name.mapLines line)
  | group inner => group (inner.mapLines line)
  | unary operator operand place => unary operator (operand.mapLines line) (line place)
  | binary operator left right place =>
    binary operator (left.mapLines line) (right.mapLines line) (line place)
  | logical operator left right => logical operator (left.mapLines line) (right.mapLines line)
  | assign name value => assign (name.mapLines line) (value.mapLines line)
  | call callee arguments place =>
    call (callee.mapLines line) (mapAllLines line arguments) (line place)

def mapAllLines (line : Nat → Nat) : List Tree → List Tree
  | [] => []
  | tree :: rest => tree.mapLines line :: mapAllLines line rest

end

mutual

/-- All literals and all names of a tree are of these kinds. -/
def Leaves (good : Literal → Prop) (fine : Identifier → Prop) : Tree → Prop
  | literal value => good value
  | var name => fine name
  | group inner => inner.Leaves good fine
  | unary _ operand _ => operand.Leaves good fine
  | binary _ left right _ | logical _ left right => left.Leaves good fine ∧ right.Leaves good fine
  | assign name value => fine name ∧ value.Leaves good fine
  | call callee arguments _ => callee.Leaves good fine ∧ AllLeaves good fine arguments

def AllLeaves (good : Literal → Prop) (fine : Identifier → Prop) : List Tree → Prop
  | [] => True
  | tree :: rest => tree.Leaves good fine ∧ AllLeaves good fine rest

end

end Tree

/-! ### Words -/

theorem FreeWord.exists_cons {word : String} (h : FreeWord word) : ∃ c rest,
    word.toList = c :: rest ∧ isWordStart c = true ∧ ∀ d ∈ rest, isWordPart d = true := by
  obtain ⟨hword, -⟩ := h
  cases hchars : word.toList with
  | nil => rw [hchars] at hword; cases hword
  | cons c rest =>
    rw [hchars] at hword
    cases hword with
    | of starts parts => exact ⟨c, rest, rfl, starts, parts⟩

theorem endsWord_of_isWordPart {c : Char} (h : isWordPart c = true) : endsWord c = false := by
  by_contra hends
  simp only [endsWord, Bool.not_eq_false, Bool.or_eq_true, decide_eq_true_iff] at hends
  obtain (rfl | rfl) | rfl := hends <;> cases h

theorem FreeWord.unbroken {word : String} (h : FreeWord word) : Unbroken word := by
  obtain ⟨c, rest, hchars, hstart, hparts⟩ := h.exists_cons
  rw [Unbroken, hchars]
  refine ⟨List.cons_ne_nil _ _, List.forall_mem_cons.2 ⟨?_, fun d hd => ?_⟩⟩
  · exact endsWord_of_isWordPart (isWordPart_of_isWordStart hstart)
  · exact endsWord_of_isWordPart (hparts d hd)

theorem Keyword.exists_cons (keyword : Keyword) :
    ∃ c rest, keyword.spelling.toList = c :: rest ∧ isWordStart c = true := by
  cases keyword <;> exact ⟨_, _, rfl, rfl⟩

namespace Number

variable {x : Float} (hx : Finite x)
include hx

theorem unbroken_plain : Unbroken (plain x) := by
  obtain ⟨c, rest, hchars, hfirst, hrest⟩ := exists_cons_plain hx
  have hdigit {d : Char} (h : d.isDigit = true) : endsWord d = false :=
    endsWord_of_isWordPart (isWordPart_of_isDigit h)
  rw [Unbroken, hchars]
  refine ⟨List.cons_ne_nil _ _, List.forall_mem_cons.2 ⟨?_, fun d hd => ?_⟩⟩
  · obtain hc | rfl := hfirst
    · exact hdigit hc
    · rfl
  · obtain hd | rfl := hrest d hd
    · exact hdigit hd
    · rfl

/-- Neither a digit nor a minus sign begins a word. -/
theorem plain_ne_word {word : String} {c : Char} {rest : List Char}
    (hchars : word.toList = c :: rest) (hc : isWordStart c = true) : plain x ≠ word := by
  obtain ⟨d, others, hplain, hfirst, -⟩ := exists_cons_plain hx
  rintro rfl
  obtain ⟨rfl, -⟩ := List.cons.inj (hplain.symm.trans hchars)
  obtain hd | rfl := hfirst
  · rw [isWordStart_of_isDigit hd] at hc
    cases hc
  · cases hc

end Number

namespace Literal

/-- The literals that are reserved words. -/
def constants : List Literal := [.nil, .bool true, .bool false]

theorem exists_keyword_of_mem_constants {value : Literal} (h : value ∈ constants) :
    ∃ keyword : Keyword, value.render = keyword.spelling := by
  simp only [constants, List.mem_cons, List.not_mem_nil, or_false] at h
  obtain rfl | rfl | rfl := h
  · exact ⟨.nilWord, rfl⟩
  · exact ⟨.trueWord, rfl⟩
  · exact ⟨.falseWord, rfl⟩

theorem number_or_constant {value : Literal} (h : value.Plain) :
    (∃ x, value = .number x ∧ Number.Finite x) ∨ value ∈ constants := by
  cases value with
  | nil => exact .inr (by simp [constants])
  | bool value => exact .inr (by cases value <;> simp [constants])
  | number x => exact .inl ⟨x, rfl, h⟩
  | text value => cases h

theorem unbroken_render {value : Literal} (h : value.Plain) : Unbroken value.render := by
  cases value with
  | nil => decide
  | bool value => cases value <;> decide
  | number x => exact Number.unbroken_plain h
  | text value => cases h

theorem render_ne_word {value : Literal} (h : value.Plain) {word : String} (hword : FreeWord word) :
    value.render ≠ word := by
  obtain ⟨x, rfl, hx⟩ | hconstant := number_or_constant h
  · obtain ⟨c, rest, hchars, hc, -⟩ := hword.exists_cons
    exact Number.plain_ne_word hx hchars hc
  · obtain ⟨keyword, hrender⟩ := exists_keyword_of_mem_constants hconstant
    rw [hrender]
    exact hword.2 keyword

/-- Different literals are rendered differently. -/
theorem render_unique {first second : Literal} (hfirst : first.Plain) (hsecond : second.Plain)
    (h : first.render = second.render) : first = second := by
  have hne {x : Float} (hx : Number.Finite x) {value : Literal} (hvalue : value ∈ constants) :
      Number.plain x ≠ value.render := by
    obtain ⟨keyword, hrender⟩ := exists_keyword_of_mem_constants hvalue
    obtain ⟨c, rest, hchars, hc⟩ := keyword.exists_cons
    rw [hrender]
    exact Number.plain_ne_word hx hchars hc
  obtain ⟨x, rfl, hx⟩ | hfirst := number_or_constant hfirst
  · obtain ⟨y, rfl, hy⟩ | hsecond := number_or_constant hsecond
    · exact congrArg _ (Number.plain_injective hx hy h)
    · exact absurd h (hne hx hsecond)
  · obtain ⟨y, rfl, hy⟩ | hsecond := number_or_constant hsecond
    · exact absurd h.symm (hne hy hfirst)
    · have hdistinct : (constants.map render).Nodup := by decide
      exact List.inj_on_of_nodup_map hdistinct hfirst hsecond h

end Literal

/-! ### Symbols -/

theorem UnaryOperator.unbroken_symbol (operator : UnaryOperator) : Unbroken operator.symbol := by
  cases operator <;> decide

theorem UnaryOperator.symbol_injective {first second : UnaryOperator}
    (h : first.symbol = second.symbol) : first = second := by
  cases first <;> cases second <;> first | rfl | exact absurd h (by decide)

theorem BinaryOperator.unbroken_symbol (operator : BinaryOperator) : Unbroken operator.symbol := by
  cases operator <;> decide

theorem BinaryOperator.symbol_injective {first second : BinaryOperator}
    (h : first.symbol = second.symbol) : first = second := by
  cases first <;> cases second <;> first | rfl | exact absurd h (by decide)

theorem LogicalOperator.unbroken_symbol (operator : LogicalOperator) :
    Unbroken operator.symbol := by
  cases operator <;> decide

theorem LogicalOperator.symbol_injective {first second : LogicalOperator}
    (h : first.symbol = second.symbol) : first = second := by
  cases first <;> cases second <;> first | rfl | exact absurd h (by decide)

/-! ### Trees -/

namespace Tree

/-- The names of a tree are words that are not reserved, and its literals are rendered as they are
read. -/
abbrev Legible (tree : Tree) : Prop :=
  tree.Leaves Literal.Plain fun name => FreeWord name.name

abbrev AllLegible (trees : List Tree) : Prop :=
  AllLeaves Literal.Plain (fun name => FreeWord name.name) trees

mutual

theorem sound_parenthesized : (tree : Tree) → tree.Legible → tree.parenthesized.Sound
  | literal value, h => Literal.unbroken_render h
  | var name, h => FreeWord.unbroken h
  | group inner, h => ⟨by decide, sound_parenthesized inner h, trivial⟩
  | unary operator operand _, h =>
    ⟨operator.unbroken_symbol, sound_parenthesized operand h, trivial⟩
  | binary operator left right _, ⟨hleft, hright⟩ =>
    ⟨operator.unbroken_symbol, sound_parenthesized left hleft, sound_parenthesized right hright,
      trivial⟩
  | logical operator left right, ⟨hleft, hright⟩ =>
    ⟨operator.unbroken_symbol, sound_parenthesized left hleft, sound_parenthesized right hright,
      trivial⟩
  | assign name value, ⟨hname, hvalue⟩ =>
    ⟨by decide, FreeWord.unbroken hname, sound_parenthesized value hvalue, trivial⟩
  | call callee arguments _, ⟨hcallee, harguments⟩ =>
    ⟨by decide, sound_parenthesized callee hcallee, sound_allParenthesized arguments harguments⟩

theorem sound_allParenthesized : (trees : List Tree) → AllLegible trees →
    Parenthesized.AllSound (allParenthesized trees)
  | [], _ => trivial
  | tree :: rest, ⟨htree, hrest⟩ =>
    ⟨sound_parenthesized tree htree, sound_allParenthesized rest hrest⟩

end

theorem form_eq {first second : Tree} (h : first.parenthesized = second.parenthesized) :
    first.form = second.form := by
  rw [← form_parenthesized, ← form_parenthesized, h]

mutual

/-- Trees that are one text in parentheses are one tree, up to their lines. -/
theorem parenthesized_unique : (first second : Tree) → first.Legible → second.Legible →
    first.parenthesized = second.parenthesized →
    first.mapLines (fun _ => 0) = second.mapLines (fun _ => 0)
  | literal value, second, hfirst, hsecond, h => by
    have hform := form_eq h
    cases second with
    | literal other =>
      injection h with hrender
      rw [Literal.render_unique hfirst hsecond hrender]
    | var name =>
      injection h with hrender
      exact absurd hrender (Literal.render_ne_word hfirst hsecond)
    | _ => cases hform
  | var name, second, hfirst, hsecond, h => by
    have hform := form_eq h
    cases second with
    | literal value =>
      injection h with hrender
      exact absurd hrender.symm (Literal.render_ne_word hsecond hfirst)
    | var other =>
      injection h with hname
      rw [mapLines, mapLines, Identifier.mapLines, Identifier.mapLines, hname]
    | _ => cases hform
  | group inner, second, hfirst, hsecond, h => by
    have hform := form_eq h
    cases second with
    | group other =>
      have hinner : inner.parenthesized = other.parenthesized := by simpa [parenthesized] using h
      rw [mapLines, mapLines, parenthesized_unique inner other hfirst hsecond hinner]
    | _ => cases hform
  | unary operator operand _, second, hfirst, hsecond, h => by
    have hform := form_eq h
    cases second with
    | unary operator' operand' _ =>
      obtain ⟨hsymbol, hoperand⟩ : operator.symbol = operator'.symbol ∧
          operand.parenthesized = operand'.parenthesized := by simpa [parenthesized] using h
      rw [mapLines, mapLines, UnaryOperator.symbol_injective hsymbol,
        parenthesized_unique operand operand' hfirst hsecond hoperand]
    | _ => cases hform
  | binary operator left right _, second, ⟨hleft, hright⟩, hsecond, h => by
    have hform := form_eq h
    cases second with
    | binary operator' left' right' _ =>
      obtain ⟨hsymbol, hfirst, hlast⟩ : operator.symbol = operator'.symbol ∧
          left.parenthesized = left'.parenthesized ∧
          right.parenthesized = right'.parenthesized := by simpa [parenthesized] using h
      rw [mapLines, mapLines, BinaryOperator.symbol_injective hsymbol,
        parenthesized_unique left left' hleft hsecond.1 hfirst,
        parenthesized_unique right right' hright hsecond.2 hlast]
    | _ => cases hform
  | logical operator left right, second, ⟨hleft, hright⟩, hsecond, h => by
    have hform := form_eq h
    cases second with
    | logical operator' left' right' =>
      obtain ⟨hsymbol, hfirst, hlast⟩ : operator.symbol = operator'.symbol ∧
          left.parenthesized = left'.parenthesized ∧
          right.parenthesized = right'.parenthesized := by simpa [parenthesized] using h
      rw [mapLines, mapLines, LogicalOperator.symbol_injective hsymbol,
        parenthesized_unique left left' hleft hsecond.1 hfirst,
        parenthesized_unique right right' hright hsecond.2 hlast]
    | _ => cases hform
  | assign name value, second, ⟨_, hvalue⟩, hsecond, h => by
    have hform := form_eq h
    cases second with
    | assign name' value' =>
      obtain ⟨hname, hparts⟩ : name.name = name'.name ∧
          value.parenthesized = value'.parenthesized := by simpa [parenthesized] using h
      rw [mapLines, mapLines, Identifier.mapLines, Identifier.mapLines, hname,
        parenthesized_unique value value' hvalue hsecond.2 hparts]
    | _ => cases hform
  | call callee arguments _, second, ⟨hcallee, harguments⟩, hsecond, h => by
    have hform := form_eq h
    cases second with
    | call callee' arguments' _ =>
      obtain ⟨hfirst, hrest⟩ : callee.parenthesized = callee'.parenthesized ∧
          allParenthesized arguments = allParenthesized arguments' := by
        simpa [parenthesized] using h
      rw [mapLines, mapLines, parenthesized_unique callee callee' hcallee hsecond.1 hfirst,
        allParenthesized_unique arguments arguments' harguments hsecond.2 hrest]
    | _ => cases hform

theorem allParenthesized_unique : (first second : List Tree) → AllLegible first →
    AllLegible second → allParenthesized first = allParenthesized second →
    mapAllLines (fun _ => 0) first = mapAllLines (fun _ => 0) second
  | [], [], _, _, _ => rfl
  | [], _ :: _, _, _, h | _ :: _, [], _, _, h => by cases h
  | tree :: rest, tree' :: rest', ⟨htree, hrest⟩, ⟨htree', hrest'⟩, h => by
    injection h with hfirst hothers
    rw [mapAllLines, mapAllLines, parenthesized_unique tree tree' htree htree' hfirst,
      allParenthesized_unique rest rest' hrest hrest' hothers]

end

/-- Legible trees that are rendered alike are one tree, up to their lines. -/
theorem render_unique {first second : Tree} (hfirst : first.Legible) (hsecond : second.Legible)
    (h : first.render = second.render) :
    first.mapLines (fun _ => 0) = second.mapLines (fun _ => 0) := by
  have hcharacters := congrArg String.toList h
  rw [toList_render, toList_render, ← List.append_nil first.parenthesized.characters,
    ← List.append_nil second.parenthesized.characters] at hcharacters
  have hend : Parenthesized.Ends [] := by rintro c ⟨⟩
  obtain ⟨hparenthesized, -⟩ := Parenthesized.characters_unique _ _
    (sound_parenthesized first hfirst) (sound_parenthesized second hsecond) hend hend hcharacters
  exact parenthesized_unique first second hfirst hsecond hparenthesized

end Tree

end Lox
