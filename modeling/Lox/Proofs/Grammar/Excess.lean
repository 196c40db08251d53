import Lox.Proofs.Grammar.Acceptance
import Lox.Proofs.Grammar.Statements
import Lox.Proofs.Syntax.Unfolding

/-!
# Too many arguments and parameters

A call with more arguments than are allowed is read like any other one, and so is a function with more
parameters. Each one that is too many leaves an error behind, at its first token and before the errors
that it leaves behind itself, and each of them has its place in the tree.

What an argument is by itself is said by a run of the rule on its tokens alone.
-/

namespace Lox

namespace Grammar

/-- Tokens, of which there is at least one, with a tree and errors. -/
structure Piece where
  first : Token
  others : List Token
  tree : Tree
  errors : List SyntaxError

namespace Piece

def tokens (piece : Piece) : List Token := piece.first :: piece.others

/-- By themselves, and where so many levels are open, the tokens are read up to their end, as this
tree and with these errors. -/
def ReadBy (piece : Piece) (rule : Rule Nat) (nesting : Nat) : Prop :=
  ∃ (ending : Token) (root : Nat) (after : State), ending.kind = .eof ∧
    rule { rest := piece.tokens, ending, nesting } = .ok root after ∧ after.rest = [] ∧
    Expression.tree? ⟨after.nodes, root⟩ = some piece.tree ∧ after.errors = piece.errors.toArray

/-- The errors of arguments, with one more for each that is too many: it is at the first token of the
argument, and before the errors of the argument itself. -/
def reports (arguments : List Piece) : List SyntaxError :=
  (arguments.take maxArity).flatMap Piece.errors ++
    (arguments.drop maxArity).flatMap fun argument =>
      ⟨.tooManyArguments, argument.first⟩ :: argument.errors

def ofPhrase (phrase : Phrase) : Piece :=
  ⟨phrase.first, phrase.tokens.tail, phrase.tree, phrase.errors⟩

theorem tokens_ofPhrase (phrase : Phrase) : (ofPhrase phrase).tokens = phrase.tokens := by
  obtain ⟨tail, htail⟩ := phrase.tokens_eq_first_cons
  rw [tokens, ofPhrase, htail, List.tail_cons]

theorem eq_ofPhrase {piece : Piece} {phrase : Phrase} (htokens : piece.tokens = phrase.tokens)
    (htree : piece.tree = phrase.tree) (herrors : piece.errors = phrase.errors) :
    piece = ofPhrase phrase := by
  obtain ⟨first, others, tree, errors⟩ := piece
  obtain ⟨rfl, rfl⟩ := List.cons.inj (htokens.trans (tokens_ofPhrase phrase).symm)
  cases htree
  cases herrors
  rfl

variable {rule : Rule Nat} {place levels nesting : Nat}

theorem exists_phrase {piece : Piece} (hreads : Reads rule place levels)
    (h : piece.ReadBy rule nesting) :
    ∃ phrase : Phrase, phrase.Legal place levels ∧ piece = ofPhrase phrase := by
  obtain ⟨ending, root, after, hending, hrun, hrest, htree, herrors⟩ := h
  obtain ⟨phrase, tail, hlegal, htokens⟩ := hreads hrun hending
  obtain rfl : tail = [] := hrest
  rw [List.append_nil] at htokens
  refine ⟨phrase, hlegal, eq_ofPhrase htokens ?_ ?_⟩
  · exact Option.some.inj (htree.symm.trans phrase.tree?_expression)
  · simpa [State.past] using herrors.symm

theorem exists_phrases {arguments : List Piece} (hreads : Reads rule 0 levels)
    (h : ∀ argument ∈ arguments, argument.ReadBy rule nesting) :
    ∃ phrases, Phrase.AllLegal levels phrases ∧ arguments = phrases.map ofPhrase := by
  induction arguments with
  | nil => exact ⟨[], .nil levels, rfl⟩
  | cons argument rest ih =>
    obtain ⟨hargument, hrest⟩ := List.forall_mem_cons.1 h
    obtain ⟨phrase, hlegal, rfl⟩ := exists_phrase hreads hargument
    obtain ⟨phrases, hall, rfl⟩ := ih hrest
    exact ⟨phrase :: phrases, .cons hlegal hall, rfl⟩

/-! ### Arguments -/

theorem pieces_eq (phrases : List Phrase) :
    (phrases.map ofPhrase).map tokens = Phrase.pieces phrases := by
  rw [List.map_map]
  exact List.map_congr_left fun phrase _ => tokens_ofPhrase phrase

theorem trees_eq (phrases : List Phrase) :
    (phrases.map ofPhrase).map tree = Phrase.trees phrases := by
  induction phrases with
  | nil => rfl
  | cons phrase rest ih => exact congrArg (List.cons phrase.tree) ih

/-- Behind so many others, arguments are too many once all places that are left are taken. -/
theorem argumentErrors_eq (phrases : List Phrase) (earlier : Nat) :
    Phrase.argumentErrors earlier phrases =
      ((phrases.map ofPhrase).take (maxArity - earlier)).flatMap Piece.errors ++
        ((phrases.map ofPhrase).drop (maxArity - earlier)).flatMap fun argument =>
          ⟨.tooManyArguments, argument.first⟩ :: argument.errors := by
  induction phrases generalizing earlier with
  | nil => simp [Phrase.argumentErrors]
  | cons phrase rest ih =>
    rw [Phrase.argumentErrors, ih, Phrase.excess]
    by_cases hfull : maxArity ≤ earlier
    · have hnone : maxArity - earlier = 0 := Nat.sub_eq_zero_of_le hfull
      have hlater : maxArity - (earlier + 1) = 0 := by omega
      simp [hfull, hnone, hlater, ofPhrase]
    · have hsome : maxArity - earlier = maxArity - (earlier + 1) + 1 := by omega
      simp [hfull, hsome, ofPhrase]

theorem reports_eq (phrases : List Phrase) :
    reports (phrases.map ofPhrase) = Phrase.argumentErrors 0 phrases :=
  (argumentErrors_eq phrases 0).symm

/-- Beside the errors of the arguments there is one for each that is too many. -/
theorem countP_reports (arguments : List Piece) :
    (reports arguments).countP (·.cause = .tooManyArguments) =
      (arguments.flatMap Piece.errors).countP (·.cause = .tooManyArguments) +
        (arguments.length - maxArity) := by
  have hlater (later : List Piece) :
      (later.flatMap fun argument =>
          (⟨.tooManyArguments, argument.first⟩ : SyntaxError) :: argument.errors).countP
            (·.cause = .tooManyArguments) =
        (later.flatMap Piece.errors).countP (·.cause = .tooManyArguments) + later.length := by
    induction later with
    | nil => rfl
    | cons argument later ih =>
      simp [List.countP_append, ih]
      omega
  have hsplit : arguments.flatMap Piece.errors = (arguments.take maxArity).flatMap Piece.errors ++
      (arguments.drop maxArity).flatMap Piece.errors := by
    rw [← List.flatMap_append, List.take_append_drop]
  rw [reports, hsplit, List.countP_append, List.countP_append, hlater, List.length_drop,
    Nat.add_assoc]

/-- What may stand alone is read alone. -/
theorem readBy_of_accepts (haccepts : Accepts rule place levels nesting) {phrase : Phrase}
    (hlegal : phrase.Legal place levels) : (ofPhrase phrase).ReadBy rule nesting := by
  have hrest : (ofPhrase phrase).tokens = phrase.tokens ++ [] := by
    rw [tokens_ofPhrase, List.append_nil]
  have hrun := haccepts { rest := (ofPhrase phrase).tokens, ending := .atEnd 0 1, nesting } phrase []
    rfl hlegal hrest (.of_none place rfl)
  exact ⟨_, _, _, rfl, hrun, rfl, phrase.tree?_expression, by simp [State.past, ofPhrase]⟩

end Piece

theorem stops_eight {kind : TokenKind} (h : kind ≠ .leftParen) : Stops 8 kind := by
  intro other hother
  unfold TokenKind.continues? at hother
  split at hother
  case h_1 =>
    cases hother
    decide
  case h_2 => exact absurd rfl h
  case h_3 =>
    obtain ⟨connective, -, rfl⟩ := Option.map_eq_some_iff.1 hother
    exact Nat.lt_of_le_of_lt connective.place_le (by decide)

/-- However many arguments a call has, it is read as a call of all of them. -/
theorem call_of_pieces {levels nesting : Nat} (hroom : nesting + levels ≤ maxNesting) {callee : Piece}
    (hcallee : callee.ReadBy (call (assignment levels)) nesting) {arguments : List Piece}
    (harguments : ∀ argument ∈ arguments, argument.ReadBy (assignment levels) nesting)
    {inside : List Token} (hinside : Separated (arguments.map Piece.tokens) inside)
    (opening : Mark .leftParen) (closing : Mark .rightParen) {before : State} {tail : List Token}
    (hnesting : before.nesting = nesting)
    (hrest : before.rest =
      callee.tokens ++ opening.token :: inside ++ closing.token :: tail)
    (hahead : (tail.headD before.ending).kind ≠ .leftParen) :
    ∃ root nodes, call (assignment levels) before =
        .ok root { before with
          rest := tail
          errors := before.errors ++ (callee.errors ++ Piece.reports arguments).toArray
          nodes } ∧
      Unfolds nodes root
        (.call callee.tree (arguments.map Piece.tree) closing.token.line) := by
  have hreads := (reads_levels levels).1
  obtain ⟨phrase, hlegal, rfl⟩ := Piece.exists_phrase (reads_call hreads) hcallee
  obtain ⟨phrases, hall, rfl⟩ := Piece.exists_phrases hreads harguments
  rw [Piece.pieces_eq] at hinside
  rw [Piece.tokens_ofPhrase] at hrest
  have hwhole : (Phrase.call phrase opening phrases inside closing).Legal 8 (levels + 1) :=
    ⟨⟨hlegal.place_le, hlegal.ordered, hinside, hall.ordered⟩, Nat.le_refl 8,
      Nat.max_lt.2 ⟨hlegal.depth_lt, Nat.lt_succ_of_le hall.depth_le⟩⟩
  have htokens : before.rest =
      (Phrase.call phrase opening phrases inside closing).tokens ++ tail := by
    simpa [Phrase.tokens] using hrest
  have hread := accepts_call (accepts_levels levels nesting hroom).1 before _ tail hnesting hwhole
    htokens (stops_eight hahead)
  rw [Piece.reports_eq, Piece.trees_eq]
  exact ⟨_, _, hread, Phrase.unfolds_lay before.nodes (.call phrase opening phrases inside closing)⟩

/-! ### Parameters -/

/-- The errors for names behind so many others. -/
def nameReports (earlier : Nat) (names : List (Mark .identifier)) : List SyntaxError :=
  (names.drop (maxArity - earlier)).map fun name => ⟨.tooManyParameters, name.token⟩

section
variable {name : Mark .identifier} {names : List (Mark .identifier)} {tail : List Token}

theorem nameReports_cons (earlier : Nat) : nameReports earlier (name :: names) =
    (if maxArity ≤ earlier then [⟨.tooManyParameters, name.token⟩] else []) ++
      nameReports (earlier + 1) names := by
  by_cases hfull : maxArity ≤ earlier
  · have hnone : maxArity - earlier = 0 := Nat.sub_eq_zero_of_le hfull
    have hlater : maxArity - (earlier + 1) = 0 := by omega
    simp [nameReports, hfull, hnone, hlater]
  · have hsome : maxArity - earlier = maxArity - (earlier + 1) + 1 := by omega
    simp [nameReports, hfull, hsome]

/-- The state behind names that come behind so many others. -/
def State.pastNames (state : State) (earlier : Nat) (names : List (Mark .identifier))
    (tail : List Token) : State :=
  { state with rest := tail, errors := state.errors ++ (nameReports earlier names).toArray }

@[simp] theorem State.to_pastNames (state : State) (earlier : Nat) (others : List Token) :
    (state.pastNames earlier names tail).to others = state.pastNames earlier names others := rfl

theorem State.pastNames_pastNames (state : State) (earlier : Nat) (others : List Token) :
    (state.pastNames earlier [name] others).pastNames (earlier + 1) names tail =
      state.pastNames earlier (name :: names) tail := by
  have hone : nameReports (earlier + 1) ([] : List (Mark .identifier)) = [] := by simp [nameReports]
  simp only [pastNames, nameReports_cons earlier, hone, List.append_nil]
  simp

/-- A name is read wherever it stands, and what is too many is recorded before. -/
theorem counted_of_name {before : State} (earlier : Nat) (hrest : before.rest = name.token :: tail) :
    counted parameter .tooManyParameters earlier before =
      .ok (.ofToken name.token) (before.pastNames earlier [name] tail) := by
  have hparameter (state : State) (h : state.rest = name.token :: tail) :
      parameter state = .ok (.ofToken name.token) (state.to tail) := by
    rw [parameter, bind_of_ok (expect_of_rest h name.isKind)]
    rfl
  rw [counted_apply, hparameter _ ((State.rest_counting ..).trans hrest)]
  by_cases hfull : maxArity ≤ earlier
  · simp [State.counting, State.pastNames, State.to, nameReports, hfull, State.ahead_of_rest hrest]
  · have hsome : maxArity - earlier = maxArity - (earlier + 1) + 1 := by omega
    simp [State.counting, State.pastNames, State.to, nameReports, hfull, hsome]

theorem items_of_names (closing : Mark .rightParen) : ∀ {names : List (Mark .identifier)}
    {inside budget : List Token} {earlier : Array Identifier} (before : State), names ≠ [] →
    Separated (names.map ([·.token])) inside → before.rest = inside ++ closing.token :: tail →
    inside.length ≤ budget.length →
    items parameter .tooManyParameters budget earlier before =
      .ok (earlier.toList ++ names.map (.ofToken ·.token))
        (before.pastNames earlier.size names (closing.token :: tail)) := by
  intro names
  induction names with
  | nil =>
    intro _ _ _ _ hne
    exact absurd rfl hne
  | cons name rest ih =>
    intro inside budget earlier before _ hseparated hrest hbudget
    cases rest with
    | nil =>
      obtain rfl := hseparated.eq_piece
      exact items_of_last (counted_of_name earlier.size hrest)
        (by simp [State.ahead, State.pastNames, closing.isKind])
    | cons next others =>
      obtain ⟨comma, inside, hothers, rfl⟩ := hseparated.exists_comma
      have hsplit : before.rest = name.token :: comma.token :: (inside ++ closing.token :: tail) :=
        hrest
      cases budget with
      | nil => simp at hbudget
      | cons spare budget =>
        have hinside : inside.length ≤ budget.length := by
          simp at hbudget
          omega
        rw [items_of_more (counted_of_name earlier.size hsplit) rfl comma.isKind,
          State.to_pastNames, ih (before.pastNames earlier.size [name] _) (by simp) hothers rfl hinside,
          Array.size_push, State.pastNames_pastNames]
        simp

/-- However many parameters there are, all of their names are read. -/
theorem commaSeparated_of_names (closing : Mark .rightParen) {inside : List Token} (before : State)
    (hinside : Separated (names.map ([·.token])) inside)
    (hrest : before.rest = inside ++ closing.token :: tail) :
    commaSeparated parameter .tooManyParameters before =
      .ok (names.map (.ofToken ·.token)) (before.pastNames 0 names (closing.token :: tail)) := by
  cases names with
  | nil =>
    obtain rfl := hinside.eq_nil
    rw [List.nil_append] at hrest
    rw [commaSeparated_of_closed (by rw [State.ahead_of_rest hrest, closing.isKind])]
    simp [State.pastNames, nameReports, ← hrest]
  | cons name rest =>
    have hopen : before.ahead.kind ≠ .rightParen := by
      obtain ⟨others, rfl⟩ := hinside.exists_append
      have hfirst : before.rest = name.token :: (others ++ closing.token :: tail) := by
        simpa using hrest
      rw [State.ahead_of_rest hfirst, name.isKind]
      decide
    rw [commaSeparated_of_open hopen]
    exact items_of_names closing before (by simp) hinside hrest (by simp [hrest])

/-- What is too many among the parameters of a function does not keep its body from being read. -/
theorem functionRule_of_names (declaration : Rule (Option Statement)) (title : Mark .identifier)
    (opening : Mark .leftParen) (closing : Mark .rightParen) (brace : Mark .leftBrace)
    {inside : List Token} {before : State} (hinside : Separated (names.map ([·.token])) inside)
    (hrest : before.rest = title.token :: opening.token :: inside ++
      closing.token :: brace.token :: tail) :
    functionRule declaration before =
      (Statement.funDecl (.ofToken title.token) (names.map (.ofToken ·.token)) <$>
        inFunction (block declaration)) (before.pastNames 0 names tail) := by
  rw [List.cons_append, List.cons_append] at hrest
  rw [functionRule, bind_of_ok (expect_of_rest hrest title.isKind),
    bind_of_ok (expect_of_rest (State.rest_to ..) opening.isKind), State.to_to,
    bind_of_ok (commaSeparated_of_names closing _ hinside (State.rest_to ..)),
    bind_of_ok (expect_of_rest rfl closing.isKind), State.to_pastNames,
    bind_of_ok (expect_of_rest rfl brace.isKind), State.to_pastNames]
  rfl

end

/-- Neither arguments nor parameters are left out because there are too many of them. Say that a
callee and any number of arguments are each read by themselves where so many levels are open. Then the
call of these arguments is read as the call of all of them in their order; recorded are the errors of
the callee and of the arguments, and one more for each argument behind the 255th, at its first token
and before its own. Any number of names is read as the parameters of a function, in their order; for
each one behind the 255th an error is recorded at the name, and the body is read next. -/
theorem excess_recorded_in_place (levels nesting : Nat) (hroom : nesting + levels ≤ maxNesting)
    (callee : Piece) (hcallee : callee.ReadBy (call (assignment levels)) nesting)
    (arguments : List Piece)
    (harguments : ∀ argument ∈ arguments, argument.ReadBy (assignment levels) nesting) :
    (∀ (opening : Mark .leftParen) (closing : Mark .rightParen) (inside tail : List Token)
        (before : State), Separated (arguments.map Piece.tokens) inside →
      before.nesting = nesting →
      before.rest = callee.tokens ++ opening.token :: inside ++ closing.token :: tail →
      (tail.headD before.ending).kind ≠ .leftParen →
      ∃ root nodes, call (assignment levels) before =
          .ok root { before with
            rest := tail
            errors := before.errors ++ (callee.errors ++ Piece.reports arguments).toArray
            nodes } ∧
        Unfolds nodes root (.call callee.tree (arguments.map Piece.tree) closing.token.line)) ∧
    (Piece.reports arguments).countP (·.cause = .tooManyArguments) =
      (arguments.flatMap Piece.errors).countP (·.cause = .tooManyArguments) +
        (arguments.length - 255) ∧
    ∀ (declaration : Rule (Option Statement)) (title : Mark .identifier) (opening : Mark .leftParen)
        (names : List (Mark .identifier)) (closing : Mark .rightParen) (brace : Mark .leftBrace)
        (inside tail : List Token) (before : State), Separated (names.map ([·.token])) inside →
      before.rest =
        title.token :: opening.token :: inside ++ closing.token :: brace.token :: tail →
      functionRule declaration before =
        (Statement.funDecl (.ofToken title.token) (names.map (.ofToken ·.token)) <$>
          inFunction (block declaration))
            { before with
              rest := tail
              errors := before.errors ++
                ((names.drop 255).map fun name => ⟨.tooManyParameters, name.token⟩).toArray } := by
  refine ⟨?_, Piece.countP_reports arguments, ?_⟩
  · intro opening closing inside tail before hinside hnesting hrest hahead
    exact call_of_pieces hroom hcallee harguments hinside opening closing hnesting hrest hahead
  · intro declaration title opening names closing brace inside tail before hinside hrest
    exact functionRule_of_names declaration title opening closing brace hinside hrest

/-- Pieces with commas on the first line between them. -/
def listed : List (List Token) → List Token
  | [] => []
  | [piece] => piece
  | piece :: next :: rest => piece ++ (Mark.plain .comma "," 1).token :: listed (next :: rest)

theorem separated_listed : (pieces : List (List Token)) → Separated pieces (listed pieces)
  | [] => .none
  | [piece] => .last piece
  | piece :: next :: rest => .more piece (.plain .comma "," 1) (separated_listed (next :: rest))

/-- A call of a name with the name as each of 300 arguments leaves 45 errors behind, and so does a
function with the name for each of 300 parameters. -/
theorem excess_recorded_in_place_names :
    let name : Mark .identifier := .plain .identifier "a" 1
    let opening : Mark .leftParen := .plain .leftParen "(" 1
    let closing : Mark .rightParen := .plain .rightParen ")" 1
    let brace : Mark .leftBrace := .plain .leftBrace "\x7b" 1
    let piece : Piece := .ofPhrase (.var name)
    let inside := listed (List.replicate 300 [name.token])
    (∃ root nodes, call (assignment 1)
          { rest := name.token :: opening.token :: inside ++ [closing.token], ending := .atEnd 9 1 } =
        .ok root
          { rest := [], ending := .atEnd 9 1, nodes
            errors := (List.replicate 45 ⟨.tooManyArguments, name.token⟩).toArray } ∧
      Unfolds nodes root (.call piece.tree (List.replicate 300 piece.tree) 1)) ∧
    functionRule (declaration 1)
        { rest := name.token :: opening.token :: inside ++ [closing.token, brace.token]
          ending := .atEnd 9 1 } =
      (Statement.funDecl ⟨"a", 1⟩ (List.replicate 300 ⟨"a", 1⟩) <$>
          inFunction (block (declaration 1)))
        { rest := [], ending := .atEnd 9 1
          errors := (List.replicate 45 ⟨.tooManyParameters, name.token⟩).toArray } := by
  intro name opening closing brace piece inside
  have hlegal : (Phrase.var name).Legal 8 1 := ⟨trivial, by decide, by decide⟩
  have haccepts := (accepts_levels 1 0 (by decide)).1
  have hcallee : piece.ReadBy (call (assignment 1)) 0 :=
    Piece.readBy_of_accepts (accepts_call haccepts) ⟨hlegal.ordered, hlegal.place_le, by decide⟩
  have harguments : ∀ argument ∈ List.replicate 300 piece, argument.ReadBy (assignment 1) 0 := by
    intro argument hmem
    rw [List.eq_of_mem_replicate hmem]
    exact Piece.readBy_of_accepts haccepts (hlegal.loosen (Nat.zero_le 8))
  obtain ⟨hcall, -, hfunction⟩ :=
    excess_recorded_in_place 1 0 (by decide) piece hcallee (List.replicate 300 piece) harguments
  have hreports : Piece.reports (List.replicate 300 piece) =
      List.replicate 45 ⟨.tooManyArguments, name.token⟩ := by
    rw [Piece.reports, List.take_replicate, List.drop_replicate, List.flatMap_replicate,
      List.flatMap_replicate]
    show (List.replicate _ []).flatten ++ (List.replicate 45 [_]).flatten = _
    rw [List.flatten_replicate_nil, List.flatten_replicate_singleton, List.nil_append]
    rfl
  have hinside : Separated (List.replicate 300 [name.token]) inside := separated_listed _
  clear_value inside
  refine ⟨?_, ?_⟩
  · rw [List.map_replicate, List.map_replicate, hreports] at hcall
    have hread := hcall opening closing inside []
      { rest := name.token :: opening.token :: inside ++ [closing.token], ending := .atEnd 9 1 }
      hinside rfl rfl nofun
    have hnone : piece.errors = [] := rfl
    rw [hnone, List.nil_append, Array.empty_append] at hread
    exact hread
  · have hread := hfunction (declaration 1) name opening (List.replicate 300 name) closing brace inside
      [] { rest := name.token :: opening.token :: inside ++ [closing.token, brace.token]
           ending := .atEnd 9 1 }
    rw [List.map_replicate, List.map_replicate, List.drop_replicate, List.map_replicate,
      Array.empty_append] at hread
    exact hread hinside rfl

end Grammar

end Lox
