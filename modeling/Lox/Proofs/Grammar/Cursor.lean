import Lox.Proofs.Grammar.Rounds

/-!
# Where parsing stands

Parsing moves along a list of tokens with an end, which is made up where the last token is none. It
stands at an index, looks at the token there and at the one in front, and moves on by one, except
from an end. What is left at an index is what lies between it and the first end.

The state of parsing says what is left rather than where that begins. At every index up to the first
end, both say the same: what is asked for by index is in the list, and the state moves on to what is
left at the next index.
-/

namespace Lox

namespace Grammar

variable {α β : Type}

/-! ### Lists with an end -/

/-- The tokens with an end as the last one. -/
def closed (tokens : List Token) : List Token :=
  match tokens.getLast? with
  | some last => if last.isEnd then tokens else tokens ++ [.atEnd last.span.stop last.line]
  | none => [.atEnd 0 1]

/-- The index of the first end. -/
def firstEnd (tokens : List Token) : Nat :=
  (closed tokens).findIdx Token.isEnd

/-- Either the last token is an end, or one is made up behind it. -/
theorem closed_cases (tokens : List Token) :
    (∃ last, tokens.getLast? = some last ∧ last.isEnd = true ∧ closed tokens = tokens) ∨
      closed tokens = tokens ++ [State.endOf tokens] ∧ (State.endOf tokens).isEnd = true := by
  cases hlast : tokens.getLast? with
  | none =>
    obtain rfl := List.getLast?_eq_none_iff.1 hlast
    exact .inr ⟨rfl, rfl⟩
  | some last =>
    simp only [closed, State.endOf, hlast]
    by_cases hend : last.isEnd = true
    · exact .inl ⟨last, rfl, hend, if_pos hend⟩
    · rw [if_neg hend, if_neg hend]
      exact .inr ⟨rfl, rfl⟩

theorem exists_isEnd_closed (tokens : List Token) :
    ∃ token ∈ closed tokens, token.isEnd = true := by
  obtain ⟨last, hlast, hend, hclosed⟩ | ⟨hclosed, hend⟩ := closed_cases tokens
  · exact ⟨last, hclosed.symm ▸ List.mem_of_getLast? hlast, hend⟩
  · exact ⟨State.endOf tokens, by simp [hclosed], hend⟩

theorem firstEnd_lt (tokens : List Token) : firstEnd tokens < (closed tokens).length :=
  List.findIdx_lt_length.2 (exists_isEnd_closed tokens)

/-- It makes no difference whether the end is made up before the tokens are read. -/
theorem ofTokens_closed (tokens : List Token) :
    State.ofTokens (closed tokens) = .ofTokens tokens := by
  obtain ⟨last, -, -, hclosed⟩ | ⟨hclosed, hend⟩ := closed_cases tokens
  · rw [hclosed]
  · rw [hclosed]
    by_cases hopen : ∀ token ∈ tokens, token.kind ≠ .eof
    · have hending : (State.endOf tokens).kind = .eof := by simpa [Token.isEnd] using hend
      rw [State.ofTokens_append hending hopen, State.ofTokens_of_open hopen]
    · have hsome : (tokens.find? Token.isEnd).isSome = true := by
        simpa [Token.isEnd] using hopen
      obtain ⟨ending, hfound⟩ := Option.isSome_iff_exists.1 hsome
      have hpart : (tokens.takeWhile (!·.isEnd)).length ≠ tokens.length := fun hall =>
        hopen (by simpa [Token.isEnd] using (List.takeWhile_prefix _).eq_of_length hall)
      rw [State.ofTokens, State.ofTokens, List.takeWhile_append, if_neg hpart, List.find?_append,
        hfound, Option.some_or]
      rfl

/-! ### Indices -/

/-- A place in a list of tokens. What is asked for outside of the list is missing. -/
structure Cursor where
  tokens : List Token
  current : Nat

namespace Cursor

def peek? (cursor : Cursor) : Option Token :=
  cursor.tokens[cursor.current]?

/-- The token in front, or the first one where there is none. -/
def previous? (cursor : Cursor) : Option Token :=
  cursor.tokens[cursor.current - 1]?

/-- Moves on by one token, but not from an end, and yields the token that is then in front. -/
def advance? (cursor : Cursor) : Option (Token × Cursor) := do
  let ahead ← cursor.peek?
  let next := if ahead.isEnd then cursor else { cursor with current := cursor.current + 1 }
  return (← next.previous?, next)

/-- Moves on to the first place at an end, behind a semicolon or in front of a token that starts a
statement. -/
def resume? (cursor : Cursor) : Option Cursor :=
  match _h : cursor.peek? with
  | none => none
  | some ahead =>
    if ahead.isEnd then some cursor
    else cursor.previous?.bind fun last =>
      if last.kind = .semicolon || ahead.kind.startsStatement then some cursor
      else resume? { cursor with current := cursor.current + 1 }
termination_by cursor.tokens.length - cursor.current
decreasing_by
  have hlt := (List.getElem?_eq_some_iff.1 _h).1
  omega

def synchronize? (cursor : Cursor) : Option Cursor := do
  let (_, next) ← cursor.advance?
  next.resume?

end Cursor

/-- The state of parsing at an index of the tokens, up to the first end. -/
structure State.At (tokens : List Token) (current : Nat) (state : State) : Prop where
  le : current ≤ firstEnd tokens
  rest : state.rest = ((closed tokens).take (firstEnd tokens)).drop current
  ending : (closed tokens)[firstEnd tokens]? = some state.ending

theorem State.at_ofTokens (tokens : List Token) : (State.ofTokens tokens).At tokens 0 where
  le := Nat.zero_le _
  rest := by
    rw [← ofTokens_closed, State.ofTokens, List.takeWhile_eq_take_findIdx_not, List.drop_zero,
      firstEnd]
    simp
  ending := by
    have hlt := firstEnd_lt tokens
    rw [← ofTokens_closed, State.ofTokens, List.find?_eq_getElem?_findIdx, ← firstEnd,
      List.getElem?_eq_getElem hlt, Option.getD_some]

section
variable {tokens : List Token} {current : Nat} {state : State} (h : state.At tokens current)
include h

theorem State.At.length_rest : state.rest.length = firstEnd tokens - current := by
  rw [h.rest, List.length_drop, List.length_take, Nat.min_eq_left (firstEnd_lt tokens).le]

theorem State.At.ending_isEnd : state.ending.isEnd = true := by
  have hlt := firstEnd_lt tokens
  have hending := h.ending
  rw [List.getElem?_eq_getElem hlt, Option.some.injEq] at hending
  rw [← hending]
  exact List.findIdx_getElem

theorem State.At.ending_kind : state.ending.kind = .eof := by
  simpa [Token.isEnd] using h.ending_isEnd

theorem State.At.exists_drop_eq : ∃ behind, 
    (closed tokens).drop current = state.rest ++ state.ending :: behind := by
  obtain ⟨hlt, hending⟩ := List.getElem?_eq_some_iff.1 h.ending
  refine ⟨(closed tokens).drop (firstEnd tokens + 1), ?_⟩
  have hsplit := List.take_append_drop (firstEnd tokens) (closed tokens)
  rw [← hending, ← List.drop_eq_getElem_cons hlt, h.rest, ← List.drop_append_of_le_length, hsplit]
  rw [List.length_take]
  exact Nat.le_min.2 ⟨h.le, h.le.trans hlt.le⟩

theorem State.At.isEnd_of_mem_rest {token : Token} (hmem : token ∈ state.rest) :
    token.isEnd = false := by
  rw [h.rest] at hmem
  obtain ⟨index, hindex, rfl⟩ := List.mem_take_iff_getElem.1 (List.mem_of_mem_drop hmem)
  exact List.not_of_lt_findIdx (Nat.lt_of_lt_of_le hindex (Nat.min_le_left _ _))

theorem State.At.rest_ne_nil (hlt : current < firstEnd tokens) : state.rest ≠ [] :=
  List.ne_nil_of_length_pos (h.length_rest ▸ Nat.sub_pos_of_lt hlt)

theorem State.At.ahead_kind_ne (hlt : current < firstEnd tokens) : state.ahead.kind ≠ .eof := by
  obtain ⟨token, tail, hrest⟩ := List.exists_cons_of_ne_nil (h.rest_ne_nil hlt)
  have hopen := h.isEnd_of_mem_rest (hrest ▸ List.mem_cons_self)
  rw [state.ahead_of_rest hrest]
  simpa [Token.isEnd] using hopen

/-- What is left of a state at an index is left at an index that is not in front of it. -/
theorem State.At.of_suffix (after : State) (hrest : after.rest <:+ state.rest)
    (hending : after.ending = state.ending) :
    after.At tokens (firstEnd tokens - after.rest.length) where
  le := Nat.sub_le _ _
  rest := by
    have hle := hrest.length_le
    have hcurrent := h.le
    have hlength := h.length_rest
    have hindex : firstEnd tokens - after.rest.length =
        current + (state.rest.length - after.rest.length) := by omega
    rw [hindex, ← List.drop_drop, ← h.rest]
    exact List.suffix_iff_eq_drop.1 hrest
  ending := hending ▸ h.ending

theorem State.At.peek? : (⟨closed tokens, current⟩ : Cursor).peek? = some state.ahead := by
  obtain ⟨behind, hdrop⟩ := h.exists_drop_eq
  rw [Cursor.peek?, ← List.head?_drop, hdrop, State.ahead]
  cases state.rest <;> rfl

/-- Moving on is possible: there is a token ahead, and then one in front. -/
theorem State.At.advance? : ∃ token next,
    (⟨closed tokens, current⟩ : Cursor).advance? = some (token, ⟨closed tokens, next⟩) ∧
      (closed tokens)[next - 1]? = some token ∧ (state.to state.rest.tail).At tokens next ∧
      (state.rest ≠ [] → token = state.ahead) := by
  have hlength := h.length_rest
  have hlt := firstEnd_lt tokens
  have hle := h.le
  cases hrest : state.rest with
  | nil =>
    have hend : state.ahead.isEnd = true := by
      rw [State.ahead, hrest]
      exact h.ending_isEnd
    have hbound : current - 1 < (closed tokens).length := by omega
    have hfront := List.getElem?_eq_getElem hbound
    refine ⟨_, current, ?_, hfront, ?_, fun hne => absurd rfl hne⟩
    · simp [Cursor.advance?, h.peek?, hend, Cursor.previous?, hfront]
    · rw [List.tail_nil, ← hrest]
      exact h
  | cons token tail =>
    have hahead : state.ahead = token := state.ahead_of_rest hrest
    have hopen : token.isEnd = false := h.isEnd_of_mem_rest (hrest ▸ List.mem_cons_self)
    have hfront : (closed tokens)[current]? = some token := hahead ▸ h.peek?
    have hindex : firstEnd tokens - tail.length = current + 1 := by
      rw [hrest, List.length_cons] at hlength
      omega
    refine ⟨token, current + 1, ?_, hfront, ?_, fun _ => hahead.symm⟩
    · simp [Cursor.advance?, h.peek?, hahead, hopen, Cursor.previous?, hfront]
    · have hsuffix : tail <:+ state.rest := hrest ▸ List.suffix_cons token tail
      exact hindex ▸ h.of_suffix (state.to tail) hsuffix rfl

end

/-- Skipping by index skips the same tokens. -/
theorem resume?_eq {all rest behind : List Token} {ending : Token} (hending : ending.isEnd = true) :
    ∀ {current : Nat} {last : Token}, all.drop current = rest ++ ending :: behind →
      (∀ token ∈ rest, token.isEnd = false) → all[current - 1]? = some last →
      (⟨all, current⟩ : Cursor).resume? =
        some ⟨all, current + (rest.length - (resumption last rest).length)⟩ := by
  induction rest with
  | nil =>
    intro current last hdrop _ _
    have hpeek : (⟨all, current⟩ : Cursor).peek? = some ending := by
      rw [Cursor.peek?, ← List.head?_drop, hdrop]
      rfl
    rw [Cursor.resume?]
    split
    case h_1 hnone => cases hpeek.symm.trans hnone
    case h_2 ahead hsome =>
      cases hpeek.symm.trans hsome
      rw [if_pos hending]
      rfl
  | cons token rest ih =>
    intro current last hdrop hopen hlast
    obtain ⟨htoken, hrest⟩ := List.forall_mem_cons.1 hopen
    have hpeek : (⟨all, current⟩ : Cursor).peek? = some token := by
      rw [Cursor.peek?, ← List.head?_drop, hdrop]
      rfl
    have hnext : all.drop (current + 1) = rest ++ ending :: behind := by
      rw [← List.drop_drop, hdrop]
      rfl
    rw [Cursor.resume?]
    split
    case h_1 hnone => cases hpeek.symm.trans hnone
    case h_2 ahead hsome =>
      cases hpeek.symm.trans hsome
      rw [if_neg (by simp [htoken]), Cursor.previous?, hlast, Option.bind_some, resumption]
      by_cases hstop : (last.kind = .semicolon || token.kind.startsStatement) = true
      · rw [if_pos hstop, if_pos hstop, Nat.sub_self, Nat.add_zero]
      · have hle := (resumption_suffix token rest).length_le
        rw [if_neg hstop, if_neg hstop, ih hnext hrest hpeek, List.length_cons]
        congr 2
        omega

/-- At the index, what parsing asks for is in the list, and it moves on as the state does. -/
structure State.Moves (tokens : List Token) (current : Nat) (state : State) : Prop where
  ahead : (⟨closed tokens, current⟩ : Cursor).peek? = some state.ahead
  advance : ∃ token next,
    (⟨closed tokens, current⟩ : Cursor).advance? = some (token, ⟨closed tokens, next⟩) ∧
      (state.to state.rest.tail).At tokens next ∧ (state.rest ≠ [] → token = state.ahead)
  synchronize : ∃ next,
    (⟨closed tokens, current⟩ : Cursor).synchronize? = some ⟨closed tokens, next⟩ ∧
      (state.to (Grammar.synchronize state.rest)).At tokens next

theorem State.At.moves {tokens : List Token} {current : Nat} {state : State}
    (h : state.At tokens current) : state.Moves tokens current := by
  obtain ⟨token, next, hadvance, hfront, hnext, htoken⟩ := h.advance?
  refine ⟨h.peek?, ⟨token, next, hadvance, hnext, htoken⟩, ?_⟩
  obtain ⟨behind, hdrop⟩ := hnext.exists_drop_eq
  have hresume := resume?_eq hnext.ending_isEnd hdrop (fun _ => hnext.isEnd_of_mem_rest) hfront
  have hskipped : Grammar.synchronize state.rest = resumption token state.rest.tail := by
    cases hrest : state.rest with
    | nil => rfl
    | cons first rest =>
      rw [htoken (by simp [hrest]), state.ahead_of_rest hrest]
      rfl
  have hsynchronize : (⟨closed tokens, current⟩ : Cursor).synchronize? =
      (⟨closed tokens, next⟩ : Cursor).resume? := by
    rw [Cursor.synchronize?, hadvance]
    rfl
  refine ⟨_, hsynchronize.trans hresume, ?_⟩
  have hsuffix := resumption_suffix token state.rest.tail
  have hindex : firstEnd tokens - (resumption token state.rest.tail).length = next +
      (state.rest.tail.length - (resumption token state.rest.tail).length) := by
    have hlength := hnext.length_rest
    have hle := hnext.le
    have hshorter := hsuffix.length_le
    rw [State.rest_to] at hlength
    omega
  rw [hskipped, State.rest_to, ← hindex]
  exact hnext.of_suffix (state.to _) hsuffix rfl

end Grammar

end Lox
