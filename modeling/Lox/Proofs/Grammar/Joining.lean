import Lox.Proofs.Grammar.Progress
import Lox.Proofs.Token.Joining

/-!
# Two programs, one behind the other

Tokens that are read as a program without errors are read the same way in front of other tokens,
and these are then read as if they stood alone: no rule looks behind the last token of a declaration,
except for an `else`, and no counter is left changed.

Programs from tokens that differ in their places differ in their lines only. `Matches` says this.
-/

namespace Lox

/-- Nothing is said about where tokens stand. -/
def Relabelling.unplaced : Relabelling where
  token := Token.unplaced
  line := fun _ => 0
  kind_token _ := rfl
  lexeme_token _ := rfl
  value_token _ := rfl
  line_token _ := rfl

namespace Program

/-- The program of the tokens in their other places. -/
def relabel (relabelling : Relabelling) (program : Program) : Program where
  declarations := program.declarations.map (Option.map (Statement.mapLines relabelling.line))
  errors := program.errors.map (·.relabel relabelling)

/-- Two programs are the same, their places aside. -/
def Matches (program other : Program) : Prop :=
  program.relabel .unplaced = other.relabel .unplaced

theorem Matches.symm {program other : Program} (h : program.Matches other) : other.Matches program :=
  Eq.symm h

theorem statements_relabel (relabelling : Relabelling) (program : Program) :
    (program.relabel relabelling).statements =
      program.statements.map (Statement.mapLines relabelling.line) := by
  simp [statements, relabel, List.filterMap_map, List.map_filterMap]

theorem Matches.statements_eq {program other : Program} (h : program.Matches other) :
    program.statements.map (Statement.mapLines fun _ => 0) =
      other.statements.map (Statement.mapLines fun _ => 0) := by
  have hstatements := congrArg statements h
  rwa [statements_relabel, statements_relabel] at hstatements

theorem Matches.errors_eq {program other : Program} (h : program.Matches other) :
    program.errors.map (·.relabel .unplaced) = other.errors.map (·.relabel .unplaced) :=
  congrArg Program.errors h

end Program

open Grammar

/-- Tokens in other places are read from the state in its other places. -/
theorem Grammar.State.ofTokens_map (relabelling : Relabelling) {tokens : List Token}
    (h : ∃ token ∈ tokens, token.isEnd = true) :
    State.ofTokens (tokens.map relabelling.token) =
      (placed relabelling #[]).state (State.ofTokens tokens) := by
  have hends : Token.isEnd ∘ relabelling.token = Token.isEnd := funext relabelling.isEnd_token
  have hrest : (fun token : Token => !token.isEnd) ∘ relabelling.token =
      fun token => !token.isEnd := funext fun token => congrArg not (relabelling.isEnd_token token)
  obtain ⟨ending, hfound⟩ := Option.isSome_iff_exists.1 (List.find?_isSome.2 h)
  simp only [State.ofTokens, placed, List.takeWhile_map, List.find?_map, hends, hrest, hfound,
    Option.map_some, Option.getD_some, List.map_toArray, List.map_nil, Array.append_empty]

theorem ofTokens_map (relabelling : Relabelling) {tokens : List Token}
    (h : ∃ token ∈ tokens, token.isEnd = true) :
    (Program.ofTokens (tokens.map relabelling.token)).toOption =
      (Program.ofTokens tokens).toOption.map (Program.relabel relabelling) := by
  have hall : Replaces relabelling #[] _ _ _ := replaces_declarations tokens #[]
  have hmirror := hall (State.ofTokens tokens)
  rw [Array.map_empty] at hmirror
  rw [Program.ofTokens, Program.ofTokens, State.ofTokens_map relabelling h, hmirror]
  cases declarations tokens #[] (State.ofTokens tokens) with
  | ok values after => simp [placed, View.result, Program.relabel, Except.toOption]
  | error failure after =>
    cases failure <;>
      simp [placed, View.result, Program.relabel, Except.toOption, SyntaxError.relabel]

section
variable {tokens others : List Token} {ending : Token} (hending : ending.kind = .eof)
  (htokens : ∀ token ∈ tokens, token.kind ≠ .eof)
include hending htokens

/-- Behind a program without errors, and not starting with `else`, tokens are read as they are
alone. -/
theorem ofTokens_joined {statements : List Statement}
    (hothers : ∀ token ∈ others, token.kind ≠ .eof)
    (helse : (others.headD ending).kind ≠ .keyword .elseWord)
    (hall : Statement.AllListed false maxNesting statements tokens) :
    Program.ofTokens (tokens ++ others ++ [ending]) =
      (Program.ofTokens (others ++ [ending])).map fun program =>
        ⟨statements.map some ++ program.declarations, program.errors⟩ := by
  have hinside : State.Inside false 0 { rest := tokens ++ others, ending } :=
    ⟨hending, rfl, by simp⟩
  obtain ⟨rounds, hrounds, hfront⟩ : ∃ rounds : List Token, others.length ≤ rounds.length ∧
      declarations (tokens ++ others) #[] { rest := tokens ++ others, ending } =
        declarations rounds (#[] ++ (statements.map some).toArray) { rest := others, ending } :=
    declarations_front #[] hinside hall rfl helse (by simp)
  rw [ofTokens_of_declarations hending (List.forall_mem_append.2 ⟨htokens, hothers⟩) hothers hrounds
    hfront]
  simp

end

/-- Tokens that differ in their places are read as programs that differ in their lines, or not at
all. -/
theorem Program.exists_matches {tokens others : List Token} {program : Program}
    (hsame : tokens.map Token.unplaced = others.map Token.unplaced)
    (hending : ∃ token ∈ tokens, token.isEnd = true) (h : ofTokens tokens = .ok program) :
    ∃ other, ofTokens others = .ok other ∧ other.Matches program := by
  have hother : ∃ token ∈ others, token.isEnd = true := by
    obtain ⟨token, htoken, hend⟩ := hending
    obtain ⟨other, hmem, heq⟩ := List.mem_map.1 (hsame ▸ List.mem_map_of_mem htoken)
    have hkind : other.unplaced.isEnd = token.unplaced.isEnd := congrArg Token.isEnd heq
    exact ⟨other, hmem, hkind.trans hend⟩
  have hfirst := ofTokens_map .unplaced hending
  have hsecond := ofTokens_map .unplaced hother
  rw [show tokens.map Relabelling.unplaced.token = _ from hsame] at hfirst
  have hseen := hsecond.symm.trans hfirst
  rw [h] at hseen
  cases hread : ofTokens others with
  | error missing => simp [hread, Except.toOption] at hseen
  | ok other => exact ⟨other, rfl, by simpa [hread, Except.toOption, Matches] using hseen⟩

/-! ### Texts -/

/-- The first token of the text is `else`. -/
def OpensElse (text : String) : Prop :=
  ((Scan.ofText text).tokens.map Token.kind).head? = some (.keyword .elseWord)

theorem Scan.Matches.kinds_eq {scan other : Scan} (h : scan.Matches other) :
    scan.tokens.map Token.kind = other.tokens.map Token.kind := by
  have hkind : Token.kind ∘ Token.unplaced = Token.kind := rfl
  have hkinds := congrArg (List.map Token.kind) h.tokens
  rwa [List.map_map, List.map_map, hkind] at hkinds

theorem not_opensElse_joined {text more : String} (hclean : (Scan.ofText text).errors = [])
    (htext : ¬ OpensElse text) (hmore : ¬ OpensElse more) : ¬ OpensElse (text ++ "\n" ++ more) := by
  obtain ⟨tokens, ending, htokens, -, -, behind, hbehind, hjoined⟩ := Scan.ofText_joined hclean more
  rw [OpensElse, htokens] at htext
  rw [OpensElse, ← hbehind.kinds_eq] at hmore
  rw [OpensElse, hjoined]
  cases tokens with
  | nil => exact hmore
  | cons token tokens => exact htext

/-- Behind a text without errors and a line feed, a text that does not start with `else` is read as
it is alone, with the declarations of the first text in front. -/
theorem Program.ofText_joined {text more : String} {declarations : List (Option Statement)}
    (hclean : (Scan.ofText text).errors = [])
    (hprogram : ofTokens (Scan.ofText text).tokens = .ok ⟨declarations, []⟩)
    (helse : ¬ OpensElse more) :
    (Scan.ofText (text ++ "\n" ++ more)).errors.map LexicalError.cause =
        (Scan.ofText more).errors.map LexicalError.cause ∧
      ∃ result : Except MissingValue Program,
        ofTokens (Scan.ofText (text ++ "\n" ++ more)).tokens = result.map (fun program =>
            ⟨declarations ++ program.declarations, program.errors⟩) ∧
          (∀ program, ofTokens (Scan.ofText more).tokens = .ok program →
            ∃ other, result = .ok other ∧ other.Matches program) ∧
          ∀ other, result = .ok other →
            ∃ program, ofTokens (Scan.ofText more).tokens = .ok program ∧ other.Matches program := by
  obtain ⟨tokens, ending, htokens, hending, hopen, behind, hbehind, hjoined⟩ :=
    Scan.ofText_joined hclean more
  obtain ⟨others, final, hothers, hfinal, hclosed⟩ := Scan.exists_ending more
  -- The tokens behind the first text end with an end as well.
  obtain ⟨found, last, hfound⟩ : ∃ found last, behind.tokens = found ++ [last] := by
    obtain hnil | ⟨found, last, hlast⟩ := List.eq_nil_or_concat behind.tokens
    · have hlength := congrArg List.length hbehind.tokens
      simp [hnil, hothers] at hlength
    · exact ⟨found, last, by rw [hlast, List.concat_eq_append]⟩
  have hkinds := hbehind.kinds_eq
  have hsame := hbehind.tokens
  rw [hfound, hothers] at hkinds hsame
  simp only [List.map_append, List.map_singleton] at hkinds
  obtain ⟨hinside, hlast⟩ := List.append_inj' hkinds rfl
  have hfinal : final.kind = .eof := by simpa [Token.isEnd] using hfinal
  have hclosed : ∀ token ∈ others, token.kind ≠ .eof := by simpa [Token.isEnd] using hclosed
  have hlast : last.kind = .eof := (List.singleton_inj.1 hlast).trans hfinal
  have hbetween : ∀ token ∈ found, token.kind ≠ .eof := by
    intro token htoken
    obtain ⟨other, hother, hkind⟩ := List.mem_map.1 (hinside ▸ List.mem_map_of_mem htoken)
    exact hkind ▸ hclosed other hother
  have hopen : ∀ token ∈ tokens, token.kind ≠ .eof := by simpa [Token.isEnd] using hopen
  rw [htokens] at hprogram
  obtain ⟨statements, rfl, hall⟩ :=
    allListed_of_ofTokens (by simpa [Token.isEnd] using hending) hopen hprogram
  rw [hjoined]
  refine ⟨hbehind.errors, ofTokens (found ++ [last]), ?_, fun program hrun => ?_,
    fun other hrun => ?_⟩
  · rw [hfound, ← List.append_assoc]
    refine ofTokens_joined hlast hopen hbetween (fun hword => helse ?_) hall
    rw [OpensElse, ← hbehind.kinds_eq, hfound]
    cases found <;> simpa using hword
  · rw [hothers] at hrun
    exact exists_matches hsame.symm ⟨final, by simp, by simpa [Token.isEnd] using hfinal⟩ hrun
  · obtain ⟨program, hprogram, hmatches⟩ :=
      exists_matches hsame ⟨last, by simp, by simpa [Token.isEnd] using hlast⟩ hrun
    exact ⟨program, hothers ▸ hprogram, hmatches.symm⟩

end Lox
