import Mathlib
import Lox.Proofs.Grammar.Alone
import Lox.Proofs.Grammar.Unique

/-!
# For loops written out

A `for` loop stands for a `while` loop that can be written down: its initializer in a block around
the loop, its increment in a block behind the body, `true` in the place of a missing condition.
Wherever the loop that is written out is read without an error, so is the `for` loop, as the same
statement. The `for` loop opens fewer levels, so the other direction does not hold.
-/

namespace Lox

/-- What a loop is made of, in writing: its initializer with the semicolon, its condition, its
increment, and its body. Each of them is what it has to be as far as that does not depend on where
the loop stands. -/
structure LoopClauses where
  initial : Option (List Token)
  condition : Option (List Token)
  increment : Option (List Token)
  body : List Token
  initial_written : ∀ first ∈ initial, ∃ statement,
    Statement.InitializerWritten maxNesting (some statement) first
  condition_spelled : ∀ test ∈ condition, ∃ value : Expression, value.Spelled maxNesting test
  increment_spelled : ∀ step ∈ increment, ∃ value : Expression, value.Spelled maxNesting step
  body_written : ∃ dangling statement, Statement.Written true maxNesting dangling statement body

structure ForMarks where
  keyword : Mark (.keyword .forWord)
  opening : Mark .leftParen
  bare : Mark .semicolon
  middle : Mark .semicolon
  closing : Mark .rightParen

/-- The other tokens of a loop that is written out. -/
structure WhileMarks where
  keyword : Mark (.keyword .whileWord)
  opening : Mark .leftParen
  /-- In the place of a missing condition. -/
  truth : Mark (.keyword .trueWord)
  closing : Mark .rightParen
  semicolon : Mark .semicolon
  opened : Mark .leftBrace
  closed : Mark .rightBrace
  outerOpened : Mark .leftBrace
  outerClosed : Mark .rightBrace

namespace LoopClauses

variable (clauses : LoopClauses) (marks : WhileMarks)

def asFor (marks : ForMarks) : List Token :=
  marks.keyword.token :: marks.opening.token :: (clauses.initial.getD [marks.bare.token] ++
    (clauses.condition.getD [] ++ marks.middle.token ::
      (clauses.increment.getD [] ++ marks.closing.token :: clauses.body)))

/-- The tokens of what is repeated: the body, in a block with the increment if there is one. -/
def repeated : List Token :=
  match clauses.increment with
  | none => clauses.body
  | some step =>
    marks.opened.token :: (clauses.body ++ (step ++ [marks.semicolon.token, marks.closed.token]))

def test : List Token :=
  clauses.condition.getD [marks.truth.token]

def whileTokens : List Token :=
  marks.keyword.token :: marks.opening.token ::
    (clauses.test marks ++ marks.closing.token :: clauses.repeated marks)

/-- The tokens of the loop written out: the `while` loop, in a block with the initializer if there
is one. -/
def writtenOut : List Token :=
  match clauses.initial with
  | none => clauses.whileTokens marks
  | some first =>
    marks.outerOpened.token :: (first ++ (clauses.whileTokens marks ++ [marks.outerClosed.token]))

/-- The clauses are these expressions and this statement where so many levels are free. -/
structure Stand (inBody : Bool) (levels : Nat) (condition increment : Option Expression)
    (body : Statement) : Prop where
  condition : OptionSpelled levels condition (clauses.condition.getD [])
  increment : OptionSpelled levels increment (clauses.increment.getD [])
  body : ∃ dangling, Statement.Written inBody levels dangling body clauses.body

variable {clauses marks} {inBody dangling : Bool} {levels more : Nat}
  {condition increment : Option Expression} {body statement : Statement}
  {tokens rest tail : List Token} {ending : Token}

theorem Stand.mono (h : clauses.Stand inBody levels condition increment body)
    (hle : levels ≤ more) : clauses.Stand inBody more condition increment body where
  condition := h.condition.mono hle
  increment := h.increment.mono hle
  body := h.body.imp fun _ written => written.mono id hle

theorem Stand.exists_asFor {initial : Option Statement}
    (h : clauses.Stand inBody levels condition increment body) (forMarks : ForMarks)
    (hinitial : Statement.InitializerWritten levels initial
      (clauses.initial.getD [forMarks.bare.token])) :
    ∃ dangling, Statement.Written inBody (levels + 1) dangling
      (Statement.loop initial condition increment body) (clauses.asFor forMarks) := by
  obtain ⟨dangling, hbody⟩ := h.body
  refine ⟨dangling, .behind _ ?_⟩
  rw [forMarks.keyword.isKind]
  exact .forLoop forMarks.opening hinitial h.condition forMarks.middle h.increment forMarks.closing
    hbody

/-! ### Taking apart what is written out -/

theorem spelled_truth (truth : Mark (.keyword .trueWord)) :
    (Expression.ofLiteral (.bool true)).Spelled 1 [truth.token] := by
  have hreads : Literal.ofToken? truth.token = some (.bool true) := by
    simp [Literal.ofToken?, truth.isKind]
  exact ⟨.literal (.bool true), ⟨.literal hreads, trivial, trivial, Nat.one_pos⟩, rfl⟩

/-- What is read as the condition is the condition, or `true` in its place. -/
theorem exists_condition {value : Expression} {closing : Mark .rightParen}
    (h : value.Spelled levels tokens) (hlevels : levels ≤ maxNesting)
    (hsame : tokens ++ closing.token :: rest =
      clauses.test marks ++ marks.closing.token :: tail) :
    rest = tail ∧ ∃ condition, OptionSpelled levels condition (clauses.condition.getD []) ∧
      value = condition.getD (.ofLiteral (.bool true)) := by
  have hclosing {mark : Mark .rightParen} : mark.token.kind.continues? = none := by
    rw [mark.isKind]
    rfl
  cases hcondition : clauses.condition with
  | none =>
    rw [test, hcondition, Option.getD_none] at hsame
    obtain ⟨rfl, -, -, rfl⟩ := h.unique (spelled_truth marks.truth) hlevels (by decide) hclosing
      hclosing hsame
    exact ⟨rfl, none, .none, rfl⟩
  | some spelling =>
    obtain ⟨other, hother⟩ := clauses.condition_spelled spelling hcondition
    rw [test, hcondition, Option.getD_some] at hsame
    obtain ⟨rfl, rfl, -, rfl⟩ := h.unique hother hlevels (Nat.le_refl _) hclosing hclosing hsame
    exact ⟨rfl, some value, .some h, rfl⟩

section
variable (hending : ending.kind = .eof) (hlevels : levels ≤ maxNesting)
  (hrest : (rest.headD ending).kind ≠ .keyword .elseWord)
  (htail : (tail.headD ending).kind ≠ .keyword .elseWord)
include hending hlevels hrest htail

/-- What is read as the body is the body, in a block with the increment if there is one. -/
theorem exists_repeated (h : Statement.Written inBody levels dangling statement tokens)
    (hsame : tokens ++ rest = clauses.repeated marks ++ tail) :
    rest = tail ∧ ∃ increment body,
      OptionSpelled levels increment (clauses.increment.getD []) ∧
      (∃ dangling, Statement.Written inBody levels dangling body clauses.body) ∧
      statement = increment.elim body fun step => .block [body, .expression step] := by
  obtain ⟨hanging, other, hother⟩ := clauses.body_written
  cases hincrement : clauses.increment with
  | none =>
    rw [repeated, hincrement] at hsame
    obtain ⟨rfl, rfl, rfl⟩ := h.unique hother hlevels (Nat.le_refl _) hending hrest htail hsame
    exact ⟨rfl, none, statement, .none, ⟨dangling, h⟩, rfl⟩
  | some step =>
    obtain ⟨value, hvalue⟩ := clauses.increment_spelled step hincrement
    rw [repeated, hincrement] at hsame
    obtain ⟨first, others, rfl, -⟩ := h.exists_first
    obtain ⟨rfl, hothers⟩ := List.cons.inj hsame
    obtain ⟨fewer, rfl, hbehind⟩ := h.behind_of_opensStatement (by rw [marks.opened.isKind]; rfl)
    rw [marks.opened.isKind] at hbehind
    cases hbehind with
    | @block _ _ _ entries inside listed closing =>
      -- The entries are taken one by one: the body, the increment, and the end of the block.
      have hclosed : Statement.EntriesEnd ending (closing.token :: rest) := .inl closing.isKind
      have hsplit : inside ++ closing.token :: rest = clauses.body ++ (step ++
          marks.semicolon.token :: (marks.closed.token :: tail)) := by
        simpa using hothers
      have helse : ((step ++ marks.semicolon.token :: (marks.closed.token :: tail)).headD
          ending).kind ≠ .keyword .elseWord := hvalue.headD_ne rfl _ _
      obtain ⟨entries, ends, behind, rfl, hbody, listed, hsplit⟩ :=
        listed.cons_of_written (Nat.le_of_succ_le hlevels) hclosed hending hother helse hsplit
      obtain ⟨least, entries, behind, rfl, rfl, hstep, listed, hsplit⟩ :=
        listed.cons_of_expression (Nat.le_of_succ_le hlevels) hclosed marks.semicolon hvalue hsplit
      have hend : Statement.EntriesEnd ending (marks.closed.token :: tail) := .inl marks.closed.isKind
      obtain ⟨rfl, hsplit⟩ := listed.eq_nil_of_end hend hsplit
      exact ⟨(List.cons.inj hsplit).2, some value, other, .some (hstep.mono (by omega)),
        ⟨ends, hbody.mono id (Nat.le_succ _)⟩, rfl⟩

theorem exists_while (h : Statement.Written inBody levels dangling statement tokens)
    (hsame : tokens ++ rest = clauses.whileTokens marks ++ tail) :
    rest = tail ∧ ∃ fewer condition increment body, levels = fewer + 1 ∧
      clauses.Stand inBody fewer condition increment body ∧
      statement = Statement.loop none condition increment body := by
  obtain ⟨first, others, rfl, -⟩ := h.exists_first
  obtain ⟨rfl, hothers⟩ := List.cons.inj hsame
  obtain ⟨fewer, rfl, hbehind⟩ := h.behind_of_opensStatement (by rw [marks.keyword.isKind]; rfl)
  rw [marks.keyword.isKind] at hbehind
  cases hbehind with
  | @whileLoop _ _ _ _ value repeats test inner opening spelled closing written =>
    have hsplit : opening.token :: (test ++ closing.token :: (inner ++ rest)) =
        marks.opening.token :: (clauses.test marks ++ marks.closing.token ::
          (clauses.repeated marks ++ tail)) := by
      simpa using hothers
    obtain ⟨-, hsplit⟩ := List.cons.inj hsplit
    have hfewer := Nat.le_of_succ_le hlevels
    obtain ⟨hinner, condition, hcondition, rfl⟩ := exists_condition spelled hfewer hsplit
    obtain ⟨rfl, increment, body, hincrement, hbody, rfl⟩ :=
      exists_repeated hending hfewer hrest htail written hinner
    exact ⟨rfl, fewer, condition, increment, body, rfl, ⟨hcondition, hincrement, hbody⟩, rfl⟩

omit hrest htail in
/-- What is read as the entries of a block with the `while` loop alone is the loop of clauses that
stand there. -/
theorem exists_while_alone {entries : List Statement} {inside : List Token}
    {closing : Mark .rightBrace} (h : Statement.AllListed inBody levels entries inside)
    (hsame : inside ++ closing.token :: rest =
      clauses.whileTokens marks ++ marks.outerClosed.token :: tail) :
    rest = tail ∧ ∃ condition increment body,
      entries = [Statement.loop none condition increment body] ∧
      clauses.Stand inBody levels condition increment body := by
  have hopened : Statement.EntriesEnd ending (closing.token :: rest) := .inl closing.isKind
  have hclosed : Statement.EntriesEnd ending (marks.outerClosed.token :: tail) :=
    .inl marks.outerClosed.isKind
  have hentry : marks.keyword.token.kind.opensEntry = true := by
    rw [marks.keyword.isKind]
    rfl
  obtain ⟨loop, entries, dangling, back, behind, rfl, hloop, listed, hback⟩ :=
    h.exists_cons hopened hentry hsame
  have hwritten := hloop.written_of_opens (by rw [marks.keyword.isKind]; rfl)
  have helse : ((behind ++ closing.token :: rest).headD ending).kind ≠ .keyword .elseWord :=
    listed.headD_ne rfl hopened.ne_else
  have hwhole : marks.keyword.token :: back ++ (behind ++ closing.token :: rest) =
      clauses.whileTokens marks ++ marks.outerClosed.token :: tail :=
    congrArg (marks.keyword.token :: ·) hback.symm
  obtain ⟨hbehind, fewer, condition, increment, body, rfl, hstand, rfl⟩ :=
    exists_while hending hlevels helse hclosed.ne_else hwritten hwhole
  obtain ⟨rfl, hlast⟩ := listed.eq_nil_of_end hclosed hbehind
  exact ⟨(List.cons.inj hlast).2, condition, increment, body, rfl, hstand.mono (Nat.le_succ _)⟩

/-- What is read as the loop that is written out is also what the `for` loop is in writing. -/
theorem exists_asFor (forMarks : ForMarks)
    (h : Statement.Written inBody levels dangling statement tokens)
    (hsame : tokens ++ rest = clauses.writtenOut marks ++ tail) :
    rest = tail ∧ ∃ dangling,
      Statement.Written inBody levels dangling statement (clauses.asFor forMarks) := by
  cases hinitial : clauses.initial with
  | none =>
    rw [writtenOut, hinitial] at hsame
    obtain ⟨rfl, fewer, condition, increment, body, rfl, hstand, rfl⟩ :=
      exists_while hending hlevels hrest htail h hsame
    refine ⟨rfl, hstand.exists_asFor forMarks ?_⟩
    rw [hinitial]
    exact .none forMarks.bare
  | some first =>
    obtain ⟨initial, hwritten⟩ := clauses.initial_written first hinitial
    rw [writtenOut, hinitial] at hsame
    obtain ⟨token, others, rfl, -⟩ := h.exists_first
    obtain ⟨rfl, hothers⟩ := List.cons.inj hsame
    obtain ⟨fewer, rfl, hbehind⟩ :=
      h.behind_of_opensStatement (by rw [marks.outerOpened.isKind]; rfl)
    rw [marks.outerOpened.isKind] at hbehind
    cases hbehind with
    | @block _ _ _ whole inside listed closing =>
      have hfewer := Nat.le_of_succ_le hlevels
      have hclosed : Statement.EntriesEnd ending (closing.token :: rest) := .inl closing.isKind
      have hsplit : inside ++ closing.token :: rest = first ++ (clauses.whileTokens marks ++
          marks.outerClosed.token :: tail) := by
        simpa using hothers
      -- The initializer is the first entry of the block, and it is the same there as in the clause.
      obtain ⟨entries, behind, rfl, hfirst, listed, hloop⟩ :=
        listed.cons_of_initializer hfewer hclosed hwritten hsplit
      obtain ⟨rfl, condition, increment, body, rfl, hstand⟩ :=
        exists_while_alone hending hfewer listed hloop
      have hclause : Statement.InitializerWritten fewer (some initial)
          (clauses.initial.getD [forMarks.bare.token]) := by
        rw [hinitial]
        exact hfirst
      exact ⟨rfl, hstand.exists_asFor forMarks hclause⟩

end

/-! ### Programs -/

variable (clauses marks) in
theorem exists_first_of_writtenOut : ∃ first others, clauses.writtenOut marks = first :: others ∧
    first.kind.opensStatement = true := by
  rw [writtenOut]
  cases clauses.initial with
  | none => exact ⟨_, _, rfl, by rw [marks.keyword.isKind]; rfl⟩
  | some first => exact ⟨_, _, rfl, by rw [marks.outerOpened.isKind]; rfl⟩

variable (clauses marks) in
theorem kind_ne_eof_of_mem_repeated : ∀ token ∈ clauses.repeated marks, token.kind ≠ .eof := by
  obtain ⟨dangling, statement, hbody⟩ := clauses.body_written
  have hopen := hbody.kind_ne_eof
  rw [repeated]
  cases hincrement : clauses.increment with
  | none => exact hopen
  | some step =>
    obtain ⟨value, hvalue⟩ := clauses.increment_spelled step hincrement
    have hstep := hvalue.kind_ne_eof
    simp_all [or_imp, marks.opened.isKind, marks.semicolon.isKind, marks.closed.isKind]

variable (clauses marks) in
theorem kind_ne_eof_of_mem_whileTokens :
    ∀ token ∈ clauses.whileTokens marks, token.kind ≠ .eof := by
  have hrepeated := clauses.kind_ne_eof_of_mem_repeated marks
  have htest : ∀ token ∈ clauses.test marks, token.kind ≠ .eof := by
    rw [test]
    cases hcondition : clauses.condition with
    | none => simp [marks.truth.isKind]
    | some spelling =>
      obtain ⟨value, hvalue⟩ := clauses.condition_spelled spelling hcondition
      exact hvalue.kind_ne_eof
  simp_all [whileTokens, or_imp, marks.keyword.isKind, marks.opening.isKind, marks.closing.isKind]

variable (clauses marks) in
theorem kind_ne_eof_of_mem_writtenOut :
    ∀ token ∈ clauses.writtenOut marks, token.kind ≠ .eof := by
  have hloop := clauses.kind_ne_eof_of_mem_whileTokens marks
  rw [writtenOut]
  cases hinitial : clauses.initial with
  | none => exact hloop
  | some first =>
    obtain ⟨statement, hwritten⟩ := clauses.initial_written first hinitial
    have hfirst := hwritten.kind_ne_eof
    simp_all [or_imp, marks.outerOpened.isKind, marks.outerClosed.isKind]

end LoopClauses

open Grammar

/-- If the loop that is written out is read as a program without an error, it is one statement, and
the `for` loop with the same clauses is read as the same statement without an error. So one may
stand for the other wherever they are run. -/
theorem for_loop_is_written_out (clauses : LoopClauses) (whileMarks : WhileMarks)
    (forMarks : ForMarks) {declarations : List (Option Statement)}
    (hrun : Program.ofTokens (clauses.writtenOut whileMarks) = .ok ⟨declarations, []⟩) :
    ∃ statement, declarations = [some statement] ∧
      Program.ofTokens (clauses.asFor forMarks) = .ok ⟨[some statement], []⟩ := by
  have hopen := clauses.kind_ne_eof_of_mem_writtenOut whileMarks
  have hending := State.kind_endOf hopen
  rw [← Program.ofTokens_append_endOf hopen] at hrun
  obtain ⟨statements, rfl, hall⟩ := allListed_of_ofTokens hending hopen hrun
  obtain ⟨first, others, hfirst, hopens⟩ := clauses.exists_first_of_writtenOut whileMarks
  have hend : Statement.EntriesEnd (State.endOf (clauses.writtenOut whileMarks)) [] := .inr hending
  have hentry : first.kind.opensEntry = true := by simp [TokenKind.opensEntry, hopens]
  rw [← List.append_nil (clauses.writtenOut whileMarks)] at hfirst
  obtain ⟨statement, entries, dangling, back, behind, rfl, listed, listedRest, hback⟩ :=
    hall.exists_cons hend hentry hfirst
  have hwritten := listed.written_of_opens (by simp [hopens])
  have hwhole : first :: back ++ (behind ++ []) = clauses.writtenOut whileMarks ++ [] := by
    rw [hfirst, hback]
    rfl
  have helse := listedRest.headD_ne rfl hend.ne_else
  obtain ⟨hbehind, ends, hfor⟩ := LoopClauses.exists_asFor hending (Nat.le_refl _) helse
    hend.ne_else forMarks hwritten hwhole
  obtain ⟨rfl, -⟩ := listedRest.eq_nil_of_end hend hbehind
  refine ⟨statement, rfl, ?_⟩
  have hforOpen := hfor.kind_ne_eof
  have hallFor := Statement.AllListed.cons (.statement hfor) .nil
  rw [List.append_nil] at hallFor
  rw [← Program.ofTokens_append_endOf hforOpen]
  exact ofTokens_of_allListed (State.kind_endOf hforOpen) hforOpen hallFor

/-- The clauses of `for (var i; ; i) if (c) print c;`. -/
private def counting : LoopClauses where
  initial := some [(Mark.plain (.keyword .varWord) "var" 1).token,
    (Mark.plain .identifier "i" 2).token, (Mark.plain .semicolon ";" 3).token]
  condition := none
  increment := some [(Mark.plain .identifier "i" 4).token]
  body := [(Mark.plain (.keyword .ifWord) "if" 5).token, (Mark.plain .leftParen "(" 6).token,
    (Mark.plain .identifier "c" 7).token, (Mark.plain .rightParen ")" 8).token,
    (Mark.plain (.keyword .printWord) "print" 9).token, (Mark.plain .identifier "c" 10).token,
    (Mark.plain .semicolon ";" 11).token]
  initial_written := by
    intro first hfirst
    cases hfirst
    exact ⟨_, .var (.plain (.keyword .varWord) "var" 1)
      (.bare (.plain .identifier "i" 2) (.plain .semicolon ";" 3))⟩
  condition_spelled := by
    intro test htest
    cases htest
  increment_spelled := by
    intro step hstep
    cases hstep
    exact ⟨_, .var ⟨"i", 4⟩, ⟨.var (.plain .identifier "i" 4), trivial, trivial, by decide⟩, rfl⟩
  body_written := by
    have hname (line : Nat) : Expression.Spelled 1 _ [(Mark.plain .identifier "c" line).token] :=
      ⟨.var ⟨"c", line⟩, ⟨.var (.plain .identifier "c" line), trivial, trivial, Nat.one_pos⟩, rfl⟩
    have hprint : Statement.Written true 2 false _ _ :=
      .behind (Mark.plain (.keyword .printWord) "print" 9).token
        (.print (hname 10) (.plain .semicolon ";" 11))
    have hif : Statement.Written true 3 true _ _ :=
      .behind (Mark.plain (.keyword .ifWord) "if" 5).token
        (.ifThen (.plain .leftParen "(" 6) ((hname 7).mono (by decide)) (.plain .rightParen ")" 8)
          hprint)
    exact ⟨true, _, hif.mono id (by decide)⟩

private def whileMarks : WhileMarks where
  keyword := .plain _ "while" 12
  opening := .plain _ "(" 12
  truth := .plain _ "true" 12
  closing := .plain _ ")" 12
  semicolon := .plain _ ";" 12
  opened := .plain _ "\x7b" 12
  closed := .plain _ "\x7d" 12
  outerOpened := .plain _ "\x7b" 12
  outerClosed := .plain _ "\x7d" 12

private def forMarks : ForMarks where
  keyword := .plain _ "for" 13
  opening := .plain _ "(" 13
  bare := .plain _ ";" 13
  middle := .plain _ ";" 13
  closing := .plain _ ")" 13

set_option maxRecDepth 4000 in
theorem for_loop_is_written_out_counting : ∃ statement,
    Program.ofTokens (counting.writtenOut whileMarks) = .ok ⟨[some statement], []⟩ ∧
      Program.ofTokens (counting.asFor forMarks) = .ok ⟨[some statement], []⟩ := by
  have hrun : Program.ofTokens (counting.writtenOut whileMarks) = .ok ⟨[some (.block
      [.varDecl ⟨"i", 2⟩ none, .whileLoop (.ofLiteral (.bool true)) (.block
        [.ifThen ⟨#[.var ⟨"c", 7⟩], 0⟩ (.print ⟨#[.var ⟨"c", 10⟩], 0⟩),
          .expression ⟨#[.var ⟨"i", 4⟩], 0⟩])])], []⟩ := by cbv
  obtain ⟨statement, hdeclarations, hfor⟩ :=
    for_loop_is_written_out counting whileMarks forMarks hrun
  cases hdeclarations
  exact ⟨_, hrun, hfor⟩

end Lox
