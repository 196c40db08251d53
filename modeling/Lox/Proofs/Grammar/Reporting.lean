import Lox.Proofs.Eval.Returns
import Lox.Proofs.Grammar.Kept

/-!
# Where a return is reported

A `return` that is kept outside of functions was reported. Whether it stands in one is told by how
many bodies are open, and every body that is opened is closed again however it is left, so the
number is right behind recovery too. What is recorded stays recorded, and the number of open bodies
is the same before and behind every rule: so nothing that was reported earlier has to be known where
a later part is read.
-/

namespace Lox

namespace Statement

theorem anyReturns_eq_false_iff {statements : List Statement} :
    anyReturns statements = false ↔ ∀ statement ∈ statements, statement.returns = false := by
  induction statements with
  | nil => exact iff_of_true rfl (List.forall_mem_nil _)
  | cons statement rest ih => rw [anyReturns, Bool.or_eq_false_iff, List.forall_mem_cons, ih]

/-- What a `return` is handed through, apart from functions: all that is put together from parts. -/
theorem composed_returns :
    Composed (fun _ => True) (fun statement => statement.returns = false)
      (fun statement => statement.returns = false) where
  varDecl _ := rfl
  expression _ := rfl
  print _ := rfl
  block hbody := anyReturns_eq_false_iff.2 hbody
  ifThen _ hsuccess := hsuccess
  ifElse _ hsuccess hfailure := Bool.or_eq_false_iff.2 ⟨hsuccess, hfailure⟩
  whileLoop _ hbody := hbody
  entry := id

end Statement

namespace Grammar

variable {α β : Type}

/-- No `return` was reported to stand outside of functions. -/
def State.Unreported (state : State) : Prop :=
  ∀ error ∈ state.errors.toList, error.cause ≠ .returnOutsideFunction

theorem State.Unreported.before {before after : State} (h : after.Unreported)
    (hcontinues : before.Continues after) : before.Unreported :=
  fun error hmem => h error (hcontinues.errors.subset hmem)

/-- Outside of functions, what the rule yields is good unless a `return` was reported. -/
structure Accounts (rule : Rule α) (good : α → Prop) : Prop where
  steady : Steady rule
  good_of_ok : ∀ {before after : State} {value : α}, rule before = .ok value after →
    before.functionDepth = 0 → after.Unreported → good value

theorem hereditary_steady : Hereditary Steady where
  pure := steady_pure
  get := steady_get
  advance := steady_advance
  reject _ := steady_reject _
  report := steady_report
  bind := .bind
  nested := .nested
  inFunction := .inFunction
  recovering := .recovering

section
variable {good : α → Prop} {fine : β → Prop}

theorem Accounts.bind {rule : Rule α} {next : α → Rule β} (first : Accounts rule good)
    (second : ∀ value, Accounts (next value) fun result => good value → fine result) :
    Accounts (rule >>= next) fine where
  steady := first.steady.bind fun value => (second value).steady
  good_of_ok {before after value} hrun hdepth hunreported := by
    obtain ⟨earlier, between, hfirst, hsecond⟩ := bind_eq_ok.1 hrun
    have hbetween : between.functionDepth = 0 :=
      (first.steady.of_ok hfirst).functionDepth.trans hdepth
    apply (second earlier).good_of_ok hsecond hbetween hunreported
    apply first.good_of_ok hfirst hdepth
    exact hunreported.before ((second earlier).steady.of_ok hsecond)

theorem Accounts.nested {rule : Rule α} (h : Accounts rule good) :
    Accounts (nested rule) good where
  steady := h.steady.nested
  good_of_ok {before after value} hrun hdepth hunreported := by
    rw [Grammar.nested] at hrun
    split at hrun
    · cases hrun
    · split at hrun
      · rename_i inner hinner
        cases hrun
        exact h.good_of_ok hinner hdepth hunreported
      · cases hrun

theorem Accounts.recovering {rule : Rule α} (h : Accounts rule good) :
    Accounts (recovering rule) fun found => ∀ value ∈ found, good value where
  steady := h.steady.recovering
  good_of_ok {before after found} hrun hdepth hunreported := by
    rw [Grammar.recovering] at hrun
    split at hrun
    · rename_i value inner hinner
      cases hrun
      intro kept hkept
      obtain rfl := Option.some.inj hkept
      exact h.good_of_ok hinner hdepth hunreported
    · cases hrun
      intro kept hkept
      cases hkept
    · cases hrun

end

theorem conveyed_accounts : Conveyed Accounts where
  pure hgood := ⟨steady_pure _, fun hrun _ _ => by cases hrun; exact hgood⟩
  reject cause := ⟨steady_reject cause, fun hrun => nomatch hrun⟩
  steady hrule := ⟨hrule, fun _ _ _ => trivial⟩
  mono h hle := ⟨h.steady, fun hrun hdepth hunreported =>
    hle _ (h.good_of_ok hrun hdepth hunreported)⟩
  bind := .bind
  nested := .nested
  recovering := .recovering

/-- A `return` is reported where no body is open. -/
theorem accounts_returnStatement {expression : Rule Expression} (h : Steady expression)
    (keyword : Token) : Accounts (returnStatement expression keyword)
      fun statement => statement.returns = false where
  steady := hereditary_steady.returnStatement h keyword
  good_of_ok {before after statement} hrun hdepth hunreported := by
    rw [returnStatement, bind_apply, get_apply] at hrun
    simp only [hdepth, if_true] at hrun
    obtain ⟨_, between, hreport, hrun⟩ := bind_eq_ok.1 hrun
    cases hreport
    have hreturned := hereditary_steady.returned h keyword
    have hbetween := hunreported.before (hreturned.of_ok hrun)
    exact absurd rfl (hbetween ⟨.returnOutsideFunction, keyword⟩ (by simp))

theorem conveyedByAll_accounts :
    ConveyedByAll Accounts (fun _ => True) (fun statement => statement.returns = false)
      (fun statement => statement.returns = false) where
  toConveyed := conveyed_accounts
  composed := Statement.composed_returns
  holds := trivial
  functionRule {declaration} hdeclaration := by
    -- A `return` in the body is no `return` of the declaration, be it reported or not.
    have hbody : Steady (inFunction (block declaration)) :=
      (hereditary_steady.block hdeclaration.steady).inFunction
    have h := conveyed_accounts
    exact h.before (steady_expect _ _) fun _ => h.before (steady_expect _ _) fun _ =>
      h.before (steady_parameter.commaSeparated _) fun _ => h.before (steady_expect _ _) fun _ =>
        h.before (steady_expect _ _) fun _ => h.before hbody fun _ => h.pure rfl
  returnStatement hexpression keyword := accounts_returnStatement hexpression.steady keyword

end Grammar

open Grammar

/-- A program in which no `return` was reported has none outside of functions, whatever else was
reported, and wherever parsing went on. -/
theorem Program.returns_eq_false {tokens : List Token} {program : Program}
    (h : Program.ofTokens tokens = .ok program)
    (hunreported : ∀ error ∈ program.errors, error.cause ≠ .returnOutsideFunction) :
    ∀ statement ∈ program.statements, statement.returns = false := by
  intro statement hstatement
  obtain ⟨found, hfound, rfl⟩ := List.mem_filterMap.1 hstatement
  have haccounts : Accounts (Grammar.declarations tokens #[]) _ :=
    conveyedByAll_accounts.declarations
      (fun levels _ => conveyed_accounts.steady (steady_expression levels)) tokens #[]
  unfold Program.ofTokens at h
  split at h
  case h_1 values after heq =>
    cases h
    exact haccounts.good_of_ok heq rfl hunreported (by simp) _ hfound statement rfl
  case h_2 =>
    cases h
    simp at hfound
  case h_3 => cases h

end Lox
