import Lox.Proofs.Eval.Semantics

/-!
# Operators

The operators of the evaluator compute what their rules say.
-/

namespace Lox

namespace Value

theorem falsy_iff {value : Value} : value.Falsy ↔ value.isTruthy = false := by
  constructor
  · rintro (_ | _) <;> rfl
  · intro h
    unfold isTruthy at h
    split at h
    · exact .nil
    · exact .bool
    · cases h

theorem not_falsy_iff {value : Value} : ¬ value.Falsy ↔ value.isTruthy = true := by
  rw [falsy_iff, Bool.not_eq_false]

theorem same_iff {left right : Value} : left.Same right ↔ left.isEqual right = true := by
  constructor
  · rintro (_ | _ | h | _ | _ | h)
    · rfl
    · exact beq_self_eq_true _
    · exact h
    · exact beq_self_eq_true _
    · exact beq_self_eq_true _
    · exact beq_iff_eq.2 h
  · intro h
    unfold isEqual at h
    split at h
    · exact .nil
    · cases beq_iff_eq.1 h
      exact .bool _
    · exact .number h
    · cases beq_iff_eq.1 h
      exact .text _
    · cases beq_iff_eq.1 h
      exact .native _ _ _
    · exact .function (beq_iff_eq.1 h)
    · cases h

theorem not_same_iff {left right : Value} : ¬ left.Same right ↔ left.isEqual right = false := by
  rw [same_iff, Bool.not_eq_true]

end Value

theorem UnaryOperator.gives_iff {operator : UnaryOperator} {value : Value}
    {result : Except RuntimeError.Cause Value} :
    operator.Gives value result ↔ operator.apply value = result := by
  constructor
  · rintro (falsy | truthy | _ | other)
    · simp [apply, Value.falsy_iff.1 falsy]
    · simp [apply, Value.not_falsy_iff.1 truthy]
    · rfl
    · change Value.negate value = _
      rw [Value.negate.eq_def]
      split
      · exact absurd rfl (other _)
      · rfl
  · rintro rfl
    cases operator with
    | not =>
      by_cases h : value.Falsy
      · simpa [apply, Value.falsy_iff.1 h] using Gives.notFalsy h
      · simpa [apply, Value.not_falsy_iff.1 h] using Gives.notTruthy h
    | negate =>
      change Gives .negate value value.negate
      rw [Value.negate.eq_def]
      split
      · exact .negate _
      · rename_i other
        exact .notNumber other

namespace BinaryOperator

theorem Numeric.apply_eq {operator : BinaryOperator} {operation : Float → Float → Value}
    (h : operator.Numeric operation) (left right : Value) :
    operator.apply left right = Value.onNumbers operation left right := by
  cases h <;> rfl

/-- Every operator wants numbers, unless it is the sum or an equality. -/
theorem numeric_or (operator : BinaryOperator) : (∃ operation, operator.Numeric operation) ∨
    operator = .add ∨ operator = .equal ∨ operator = .notEqual := by
  cases operator with
  | add => exact .inr (.inl rfl)
  | equal => exact .inr (.inr (.inl rfl))
  | notEqual => exact .inr (.inr (.inr rfl))
  | subtract => exact .inl ⟨_, .subtract⟩
  | multiply => exact .inl ⟨_, .multiply⟩
  | divide => exact .inl ⟨_, .divide⟩
  | less => exact .inl ⟨_, .less⟩
  | lessEqual => exact .inl ⟨_, .lessEqual⟩
  | greater => exact .inl ⟨_, .greater⟩
  | greaterEqual => exact .inl ⟨_, .greaterEqual⟩

theorem gives_apply (operator : BinaryOperator) (left right : Value) :
    operator.Gives left right (operator.apply left right) := by
  rcases operator.numeric_or with ⟨operation, hnumeric⟩ | rfl | rfl | rfl
  · rw [hnumeric.apply_eq, Value.onNumbers.eq_def]
    split
    · exact .numbers hnumeric _ _
    · rename_i hother
      refine .notNumbers hnumeric fun first second heq => ?_
      cases heq
      exact hother first second rfl rfl
  · rw [apply, Value.add.eq_def]
    split
    · exact .sum _ _
    · exact .concatenation _ _
    · rename_i hnumbers htexts
      refine .notAddable (fun first second heq => ?_) fun first second heq => ?_
      · cases heq
        exact hnumbers first second rfl rfl
      · cases heq
        exact htexts first second rfl rfl
  · by_cases h : left.Same right
    · simpa [apply, Value.same_iff.1 h] using Gives.equal h
    · simpa [apply, Value.not_same_iff.1 h] using Gives.different h
  · by_cases h : left.Same right
    · simpa [apply, Value.same_iff.1 h] using Gives.notDifferent h
    · simpa [apply, Value.not_same_iff.1 h] using Gives.notEqual h

theorem gives_iff {operator : BinaryOperator} {left right : Value}
    {result : Except RuntimeError.Cause Value} :
    operator.Gives left right result ↔ operator.apply left right = result := by
  constructor
  · intro h
    cases h with
    | numbers hnumeric => exact hnumeric.apply_eq _ _
    | notNumbers hnumeric hother =>
      rw [hnumeric.apply_eq, Value.onNumbers.eq_def]
      split
      · exact absurd rfl (hother _ _)
      · rfl
    | sum | concatenation => rfl
    | notAddable hnumbers htexts =>
      rw [apply, Value.add.eq_def]
      split
      · exact absurd rfl (hnumbers _ _)
      · exact absurd rfl (htexts _ _)
      · rfl
    | equal hsame | notDifferent hsame => simp [apply, Value.same_iff.1 hsame]
    | different hdifferent | notEqual hdifferent => simp [apply, Value.not_same_iff.1 hdifferent]
  · rintro rfl
    exact operator.gives_apply left right

end BinaryOperator

theorem LogicalOperator.settles_iff {operator : LogicalOperator} {value : Value} :
    operator.Settles value ↔ operator.isDecided value = true := by
  constructor
  · rintro (truthy | falsy)
    · exact Value.not_falsy_iff.1 truthy
    · simp [isDecided, Value.falsy_iff.1 falsy]
  · intro h
    cases operator with
    | or => exact .or (Value.not_falsy_iff.2 h)
    | and => exact .and (Value.falsy_iff.2 (by simpa [isDecided] using h))

end Lox
