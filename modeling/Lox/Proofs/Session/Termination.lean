import Lox.Proofs.Eval.Totality
import Lox.Proofs.Grammar.Folding
import Lox.Proofs.Session.Scoping
import Lox.Proofs.Token.Joining

/-!
# Sessions without loops

A text can always be scanned and parsed. Where no loop stands in any of the texts that are run in a
session, every one of them comes to its end, however its functions call themselves and each other
and whatever functions were kept from earlier texts.
-/

namespace Lox

/-! ### Texts are parsed -/

theorem Denotes.isSome {kind : TokenKind} {chars : List Char} {value : Option TokenValue}
    (h : Denotes kind chars value) (hliteral : kind = .number ∨ kind = .string) :
    value.isSome := by
  cases h with
  | number | string => rfl
  | plain hnumber hstring => exact absurd hliteral (not_or.2 ⟨hnumber, hstring⟩)

theorem NextItem.valued {place after : Position} {text rest : List Char} {item : Item}
    (h : NextItem place text item after rest) : ∀ token, item = .ok token → token.Valued := by
  induction h with
  | separator _ _ ih | lineComment _ _ _ ih | blockComment _ _ ih => exact ih
  | token _ _ denotes =>
    rintro token ⟨⟩
    exact denotes.isSome
  | unclosedString | unclosedComment | unrecognized =>
    intro token heq
    cases heq
  | ending =>
    rintro token ⟨⟩
    simp [Token.Valued, Token.atEnd]

/-- The literals of a text have their values. -/
theorem Scan.valued_of_mem_tokens (text : String) :
    ∀ token ∈ (ofText text).tokens, token.Valued :=
  fun token hmem =>
    forall_mem_items (fun next => next.valued) _ (mem_items_of_mem_tokens hmem) token rfl

namespace Source

theorem exists_ofTokens (source : Source) : ∃ program,
    Program.ofTokens (Scan.ofText source.text).tokens = .ok program ∧
      source.statements = program.statements := by
  obtain ⟨program, hprogram⟩ := Program.exists_ofTokens (Scan.valued_of_mem_tokens source.text)
  exact ⟨program, hprogram, by rw [statements, hprogram]⟩

/-- No loop stands anywhere in the text. -/
def Unlooped (source : Source) : Prop :=
  Statement.anyLoops source.statements = false

end Source

namespace Session

/-- More fuel does no harm to a run of a text. -/
theorem Sound.eventually_run {session after : Session} (h : session.Sound) {fuel : Nat}
    {source : Source} {report : RunReport}
    (hran : session.run fuel source = .ok (report, after)) :
    Eventually fun more => session.run more source = .ok (report, after) := by
  obtain ⟨program, raised, hprogram, hinterpret, rfl⟩ := run_eq_ok hran
  have hsilent : session.silent.Sound := ⟨h.store, h.globals_lt⟩
  have hkeep := Program.allKeep_legible hprogram
  obtain ⟨bound, hruns⟩ :=
    (interprets_of_interpret hsilent hkeep hinterpret).eventually hsilent hkeep
  exact ⟨bound, fun more hle => run_of_interpret hprogram (hruns more hle)⟩

/-- What a session may come to by running texts in which no loop stands, the clock being changed
between any two of them. -/
inductive Unlooped : Session → Prop where
  | start (clock : Clock) (style : Style) : Unlooped (start clock style)
  | run {fuel : Nat} {session after : Session} {source : Source} {report : RunReport}
      (unlooped : Unlooped session) (loops : source.Unlooped)
      (ran : session.run fuel source = .ok (report, after)) : Unlooped after
  | withClock {session : Session} (unlooped : Unlooped session) (clock : Clock) :
    Unlooped (session.withClock clock)

/-- The scope of top-level declarations is there, and the store is tame. -/
structure Tame (session : Session) : Prop where
  store : session.machine.store.Tame
  globals_lt : session.globals < session.machine.store.scopes.size

theorem tame_start (clock : Clock) (style : Style) : (start clock style).Tame where
  store := by
    refine ⟨(sound_start clock style).store, fun {scope found name value} hfound hmem => ?_⟩
    rw [scopes_start, Array.getElem?_singleton] at hfound
    split at hfound
    · cases hfound
      cases List.mem_singleton.1 hmem
      trivial
    · cases hfound
  globals_lt := Nat.zero_lt_one

theorem Tame.sound {session : Session} (h : session.Tame) : session.Sound :=
  ⟨h.store.wellFormed, h.globals_lt⟩

/-- Statements without loops mean something in a tame session, and keep it tame. -/
theorem Tame.exists_interprets {session : Session} (h : session.Tame) {statements : List Statement}
    (hkeep : Statement.AllKeep Expression.Legible statements)
    (hloops : Statement.anyLoops statements = false) :
    ∃ raised after, session.Interprets statements raised after ∧ after.Tame := by
  obtain ⟨outcome, machine, hall, hstore, hgrows⟩ :=
    ExecutesAll.exists_of_unlooped h.store h.globals_lt hkeep hloops
  have hglobals : session.globals < machine.store.scopes.size :=
    Nat.lt_of_lt_of_le h.globals_lt hgrows.size_le
  cases outcome with
  | ok completion => exact ⟨none, _, .ended hall, hstore, hglobals⟩
  | error error => exact ⟨some error, _, .raised hall, hstore, hglobals⟩

/-- A text without loops comes to its end in a tame session, which is tame then. -/
theorem Tame.exists_run {session : Session} (h : session.Tame) {source : Source}
    (hloops : source.Unlooped) : ∃ report after, after.Tame ∧
      Eventually fun fuel => session.run fuel source = .ok (report, after) := by
  obtain ⟨program, hprogram, hstatements⟩ := source.exists_ofTokens
  have hkeep := Program.allKeep_legible hprogram
  have hsilent : session.silent.Tame := ⟨h.store, h.globals_lt⟩
  obtain ⟨raised, after, hmeans, hafter⟩ :=
    hsilent.exists_interprets hkeep (hstatements ▸ hloops)
  obtain ⟨bound, hruns⟩ := hmeans.eventually hsilent.sound hkeep
  exact ⟨_, after, hafter, bound, fun fuel hle => run_of_interpret hprogram (hruns fuel hle)⟩

theorem Unlooped.tame {session : Session} (h : session.Unlooped) : session.Tame := by
  induction h with
  | start clock style => exact tame_start clock style
  | @run fuel before after source report _ hloops hran ih =>
    obtain ⟨ending, final, hfinal, hends⟩ := ih.exists_run hloops
    obtain ⟨most, hsame, hother⟩ := ((ih.sound.eventually_run hran).and hends).exists_fuel
    cases hsame.symm.trans hother
    exact hfinal
  | withClock _ _ ih => exact ⟨ih.store, ih.globals_lt⟩

/-- Without loops every run ends. In a session in which only texts without loops have been run, a
further one comes to its end, given enough fuel, and what it leaves and reports does not depend on
how much that is. -/
theorem eventually_run_of_unlooped {session : Session} (h : session.Unlooped) {source : Source}
    (hloops : source.Unlooped) : ∃ report after, after.Unlooped ∧
      Eventually fun fuel => session.run fuel source = .ok (report, after) := by
  obtain ⟨report, after, -, hends⟩ := h.tame.exists_run hloops
  obtain ⟨fuel, hran⟩ := hends.exists_fuel
  exact ⟨report, after, .run h hloops hran, hends⟩

private def keeping : Source := ⟨"first", "fun f(g) \x7b g(g); \x7d"⟩

private def recursing : Source := ⟨"second", "f(f);"⟩

/-- The body of the function in `keeping`. -/
private def recursion : List Statement :=
  [.expression ⟨#[.var ⟨"g", 1⟩, .var ⟨"g", 1⟩, .call 0 [1] 1], 2⟩]

/-- What a run of `keeping` leaves. -/
private def kept : Session :=
  let before := start { reading := fun _ => 0 }
  { before with
    machine := { before.machine.define 0 "f"
      (.function ⟨1, ⟨"f", 1⟩, [⟨"g", 1⟩], recursion, 0⟩) with nextIdentity := 2 } }

set_option maxRecDepth 20000 in
/-- A function that an earlier text left is called with itself, and would go on to call itself
forever. -/
theorem eventually_run_of_unlooped_recursing : ∃ first session report after,
    (start { reading := fun _ => 0 }).run 9 keeping = .ok (first, session) ∧
      Eventually fun fuel => session.run fuel recursing = .ok (report, after) := by
  have hkeeping : Program.ofTokens (Scan.ofText keeping.text).tokens =
      .ok ⟨[some (.funDecl ⟨"f", 1⟩ [⟨"g", 1⟩] recursion)], []⟩ := by cbv
  have hrecursing : Program.ofTokens (Scan.ofText recursing.text).tokens =
      .ok ⟨[some (.expression ⟨#[.var ⟨"f", 1⟩, .var ⟨"f", 1⟩, .call 0 [1] 1], 2⟩)], []⟩ := by
    cbv
  have hfirst : keeping.Unlooped := by
    rw [Source.Unlooped, Source.statements, hkeeping]
    rfl
  have hsecond : recursing.Unlooped := by
    rw [Source.Unlooped, Source.statements, hrecursing]
    rfl
  have hinterpret : (start { reading := fun _ => 0 }).silent.interpret 9
      [.funDecl ⟨"f", 1⟩ [⟨"g", 1⟩] recursion] = .ok (none, kept) := rfl
  have hran := run_of_interpret hkeeping hinterpret
  obtain ⟨report, after, -, hends⟩ :=
    eventually_run_of_unlooped (.run (.start _ _) hfirst hran) hsecond
  exact ⟨_, kept, report, after, hran, hends⟩

end Session

end Lox
