import Lox.Proofs.Syntax.Phrase

/-!
# Phrases without errors

An ordered phrase that leaves no error behind is a tree in writing, and every ordered tree in
writing whose calls have few enough arguments is such a phrase. Both are kept as the same table.
-/

namespace Lox

namespace Connective

theorem ofToken?_eq_binary_iff {kind : TokenKind} {operator : BinaryOperator} :
    ofToken? kind = some (.binary operator) ↔ BinaryOperator.ofToken? kind = some operator := by
  cases kind with
  | keyword word => cases word <;> simp [ofToken?, BinaryOperator.ofToken?]
  | _ => simp [ofToken?]

theorem ofToken?_eq_logical_iff {kind : TokenKind} {operator : LogicalOperator} :
    ofToken? kind = some (.logical operator) ↔ kind = .keyword operator.keyword := by
  cases kind with
  | keyword word =>
    cases word <;> cases operator <;>
      simp [ofToken?, BinaryOperator.ofToken?, LogicalOperator.keyword]
  | _ => simp [ofToken?]

end Connective

namespace Phrase

/-- What an ordered phrase without errors has in common with its tree. -/
structure Renders (phrase : Phrase) : Prop where
  written : phrase.tree.Written phrase.tokens
  ordered : phrase.tree.Ordered
  arity : phrase.tree.ArityBounded
  place_eq : phrase.tree.place = phrase.place
  depth_eq : phrase.tree.depth = phrase.depth
  lay_eq : ∀ nodes, phrase.tree.lay nodes = phrase.lay nodes

/-- What ordered phrases without errors have in common with their trees. -/
structure AllRender (phrases : List Phrase) : Prop where
  written : ∀ {inside}, Separated (pieces phrases) inside →
    Tree.WrittenArguments (trees phrases) inside
  ordered : Tree.AllOrdered (trees phrases)
  arity : Tree.AllArityBounded (trees phrases)
  length_eq : (trees phrases).length = phrases.length
  depth_eq : Tree.argumentDepth (trees phrases) = argumentDepth phrases
  layAll_eq : ∀ nodes, Tree.layAll nodes (trees phrases) = layAll nodes phrases

theorem excess_eq_nil_iff {earlier : Nat} {argument : Phrase} :
    excess earlier argument = [] ↔ earlier < maxArity := by
  rw [excess]
  split <;> simp_all

/-- Arguments leave no error behind if none of them does and they are not too many. -/
theorem argumentErrors_eq_nil_iff {earlier : Nat} (hle : earlier ≤ maxArity)
    {arguments : List Phrase} : argumentErrors earlier arguments = [] ↔
      (∀ argument ∈ arguments, argument.errors = []) ∧
        earlier + arguments.length ≤ maxArity := by
  induction arguments generalizing earlier with
  | nil => simpa [argumentErrors] using hle
  | cons argument rest ih =>
    rw [argumentErrors, List.append_eq_nil_iff, List.append_eq_nil_iff, excess_eq_nil_iff]
    constructor
    · rintro ⟨⟨hlt, hargument⟩, hrest⟩
      obtain ⟨hall, hlength⟩ := (ih hlt).1 hrest
      exact ⟨by simp [hargument]; exact hall, by simp; omega⟩
    · rintro ⟨hall, hlength⟩
      rw [List.length_cons] at hlength
      exact ⟨⟨by omega, hall argument (by simp)⟩,
        (ih (by omega)).2 ⟨fun other hother => hall other (by simp [hother]), by omega⟩⟩

mutual

theorem renders : (phrase : Phrase) → phrase.Ordered → phrase.errors = [] → phrase.Renders
  | literal _ _ reads, _, _ => ⟨.literal reads, trivial, trivial, rfl, rfl, fun _ => rfl⟩
  | var name, _, _ => ⟨.var name, trivial, trivial, rfl, rfl, fun _ => rfl⟩
  | group opening inner closing, hordered, hclean => by
    have h := renders inner hordered hclean
    refine ⟨.group opening h.written closing, h.ordered, h.arity, rfl, ?_, fun nodes => ?_⟩
    · simp [tree, Tree.depth, depth, h.depth_eq]
    · simp [tree, Tree.lay, lay, h.lay_eq]
  | unary sign operator reads operand, ⟨hplace, hordered⟩, hclean => by
    have h := renders operand hordered hclean
    refine ⟨.unary reads h.written, ⟨h.place_eq ▸ hplace, h.ordered⟩, h.arity, rfl, ?_,
      fun nodes => ?_⟩
    · simp [tree, Tree.depth, depth, h.depth_eq]
    · simp [tree, Tree.lay, lay, h.lay_eq]
  | infixed left sign connective reads right, ⟨hfirst, hsecond, hleft, hright⟩, hclean => by
    obtain ⟨hleftClean, hrightClean⟩ := List.append_eq_nil_iff.1 hclean
    have hl := renders left hleft hleftClean
    have hr := renders right hright hrightClean
    rw [← hl.place_eq] at hfirst
    rw [← hr.place_eq] at hsecond
    cases connective with
    | binary operator =>
      refine ⟨.binary hl.written (Connective.ofToken?_eq_binary_iff.1 reads) hr.written,
        ⟨hfirst, hsecond, hl.ordered, hr.ordered⟩, ⟨hl.arity, hr.arity⟩, rfl, ?_, fun nodes => ?_⟩
      · simp [tree, Connective.tree, Tree.depth, depth, hl.depth_eq, hr.depth_eq]
      · simp [tree, Connective.tree, Connective.node, Tree.lay, lay, hl.lay_eq, hr.lay_eq]
    | logical operator =>
      refine ⟨.logical hl.written ⟨sign, Connective.ofToken?_eq_logical_iff.1 reads⟩ hr.written,
        ⟨hfirst, hsecond, hl.ordered, hr.ordered⟩, ⟨hl.arity, hr.arity⟩, rfl, ?_, fun nodes => ?_⟩
      · simp [tree, Connective.tree, Tree.depth, depth, hl.depth_eq, hr.depth_eq]
      · simp [tree, Connective.tree, Connective.node, Tree.lay, lay, hl.lay_eq, hr.lay_eq]
  | assign target equals value, hordered, hclean => by
    have h := renders value hordered hclean
    refine ⟨.assign target equals h.written, h.ordered, h.arity, rfl, ?_, fun nodes => ?_⟩
    · simp [tree, Tree.depth, depth, h.depth_eq]
    · simp [tree, Tree.lay, lay, h.lay_eq]
  | stray target equals value, _, hclean => by simp [errors] at hclean
  | call callee opening arguments inside closing, ⟨hplace, hcallee, hseparated, hall⟩, hclean => by
    obtain ⟨hcalleeClean, hargumentsClean⟩ := List.append_eq_nil_iff.1 hclean
    obtain ⟨hargumentsClean, hlength⟩ :=
      (argumentErrors_eq_nil_iff (Nat.zero_le _)).1 hargumentsClean
    have hc := renders callee hcallee hcalleeClean
    have ha := allRender arguments hall hargumentsClean
    refine ⟨.call hc.written opening (ha.written hseparated) closing,
      ⟨hc.place_eq ▸ hplace, hc.ordered, ha.ordered⟩, ⟨hc.arity, ?_, ha.arity⟩, rfl, ?_,
      fun nodes => ?_⟩
    · rw [ha.length_eq, ← Nat.zero_add arguments.length]
      exact hlength
    · simp [tree, Tree.depth, depth, hc.depth_eq, ha.depth_eq]
    · simp [tree, Tree.lay, lay, hc.lay_eq, ha.layAll_eq]

theorem allRender : (phrases : List Phrase) → AllOrdered phrases →
    (∀ phrase ∈ phrases, phrase.errors = []) → AllRender phrases
  | [], _, _ => by
    refine ⟨fun h => ?_, trivial, trivial, rfl, rfl, fun _ => rfl⟩
    rw [h.eq_nil]
    exact .none
  | phrase :: rest, ⟨hordered, hall⟩, hclean => by
    have hp := renders phrase hordered (hclean phrase (by simp))
    have hr := allRender rest hall fun other hother => hclean other (by simp [hother])
    refine ⟨fun {inside} h => ?_, ⟨hp.ordered, hr.ordered⟩, ⟨hp.arity, hr.arity⟩, ?_, ?_,
      fun nodes => ?_⟩
    · cases rest with
      | nil =>
        rw [h.eq_piece]
        exact .last hp.written
      | cons next others =>
        obtain ⟨comma, inside, hothers, rfl⟩ := h.exists_comma
        exact .more hp.written comma (hr.written hothers)
    · simp [trees, hr.length_eq]
    · simp [trees, Tree.argumentDepth, argumentDepth, hp.depth_eq, hr.depth_eq]
    · simp [trees, Tree.layAll, layAll, hp.lay_eq, hr.layAll_eq]

end

end Phrase

namespace Tree

mutual

/-- Every ordered tree in writing is a phrase without errors. -/
theorem exists_phrase : (tree : Tree) → {tokens : List Token} → tree.Written tokens →
    tree.Ordered → tree.ArityBounded → ∃ phrase : Phrase,
      phrase.tokens = tokens ∧ phrase.tree = tree ∧ phrase.Ordered ∧ phrase.errors = []
  | literal _, _, hwritten, _, _ => by
    cases hwritten with
    | literal reads => exact ⟨.literal _ _ reads, rfl, rfl, trivial, rfl⟩
  | var _, _, hwritten, _, _ => by
    cases hwritten with
    | var name => exact ⟨.var name, rfl, rfl, trivial, rfl⟩
  | group inner, _, hwritten, hordered, harity => by
    cases hwritten with
    | group opening hinner closing =>
      obtain ⟨phrase, rfl, rfl, hphrase, hclean⟩ := exists_phrase inner hinner hordered harity
      exact ⟨.group opening phrase closing, rfl, rfl, hphrase, hclean⟩
  | unary operator operand _, _, hwritten, ⟨hplace, hordered⟩, harity => by
    cases hwritten with
    | unary reads hoperand =>
      obtain ⟨phrase, rfl, rfl, hphrase, hclean⟩ := exists_phrase operand hoperand hordered harity
      rw [(phrase.renders hphrase hclean).place_eq] at hplace
      exact ⟨.unary _ operator reads phrase, rfl, rfl, ⟨hplace, hphrase⟩, hclean⟩
  | binary operator left right _, _, hwritten, ⟨hfirst, hsecond, hleft, hright⟩,
    ⟨hleftArity, hrightArity⟩ => by
    cases hwritten with
    | binary writtenLeft reads writtenRight =>
      obtain ⟨first, rfl, rfl, hl, hleftClean⟩ := exists_phrase left writtenLeft hleft hleftArity
      obtain ⟨second, rfl, rfl, hr, hrightClean⟩ :=
        exists_phrase right writtenRight hright hrightArity
      rw [(first.renders hl hleftClean).place_eq] at hfirst
      rw [(second.renders hr hrightClean).place_eq] at hsecond
      exact ⟨.infixed first _ _ (Connective.ofToken?_eq_binary_iff.2 reads) second, rfl, rfl,
        ⟨hfirst, hsecond, hl, hr⟩, by simp [Phrase.errors, hleftClean, hrightClean]⟩
  | logical operator left right, _, hwritten, ⟨hfirst, hsecond, hleft, hright⟩,
    ⟨hleftArity, hrightArity⟩ => by
    cases hwritten with
    | logical writtenLeft sign writtenRight =>
      obtain ⟨first, rfl, rfl, hl, hleftClean⟩ := exists_phrase left writtenLeft hleft hleftArity
      obtain ⟨second, rfl, rfl, hr, hrightClean⟩ :=
        exists_phrase right writtenRight hright hrightArity
      rw [(first.renders hl hleftClean).place_eq] at hfirst
      rw [(second.renders hr hrightClean).place_eq] at hsecond
      exact ⟨.infixed first sign.token _ (Connective.ofToken?_eq_logical_iff.2 sign.isKind) second,
        rfl, rfl, ⟨hfirst, hsecond, hl, hr⟩, by simp [Phrase.errors, hleftClean, hrightClean]⟩
  | assign _ value, _, hwritten, hordered, harity => by
    cases hwritten with
    | assign target equals hvalue =>
      obtain ⟨phrase, rfl, rfl, hphrase, hclean⟩ := exists_phrase value hvalue hordered harity
      exact ⟨.assign target equals phrase, rfl, rfl, hphrase, hclean⟩
  | call callee arguments _, _, hwritten, ⟨hplace, hcallee, hall⟩,
    ⟨hcalleeArity, hlength, hallArity⟩ => by
    cases hwritten with
    | call writtenCallee opening writtenArguments closing =>
      obtain ⟨phrase, rfl, rfl, hphrase, hclean⟩ :=
        exists_phrase callee writtenCallee hcallee hcalleeArity
      obtain ⟨phrases, hseparated, rfl, hphrases, hallClean⟩ :=
        exists_phrases arguments writtenArguments hall hallArity
      rw [(phrase.renders hphrase hclean).place_eq] at hplace
      rw [(Phrase.allRender phrases hphrases hallClean).length_eq] at hlength
      refine ⟨.call phrase opening phrases _ closing, rfl, rfl,
        ⟨hplace, hphrase, hseparated, hphrases⟩, ?_⟩
      rw [Phrase.errors, hclean, List.nil_append,
        Phrase.argumentErrors_eq_nil_iff (Nat.zero_le _), Nat.zero_add]
      exact ⟨hallClean, hlength⟩

theorem exists_phrases : (trees : List Tree) → {inside : List Token} →
    WrittenArguments trees inside → AllOrdered trees → AllArityBounded trees →
    ∃ phrases : List Phrase, Separated (Phrase.pieces phrases) inside ∧
      Phrase.trees phrases = trees ∧ Phrase.AllOrdered phrases ∧
      ∀ phrase ∈ phrases, phrase.errors = []
  | [], _, hwritten, _, _ => by
    cases hwritten
    exact ⟨[], .none, rfl, trivial, by simp⟩
  | tree :: rest, _, hwritten, ⟨hordered, hall⟩, ⟨harity, hallArity⟩ => by
    cases hwritten with
    | last written =>
      obtain ⟨phrase, rfl, rfl, hphrase, hclean⟩ := exists_phrase tree written hordered harity
      exact ⟨[phrase], .last _, rfl, ⟨hphrase, trivial⟩, by simpa using hclean⟩
    | more written comma writtenRest =>
      obtain ⟨phrase, rfl, rfl, hphrase, hclean⟩ := exists_phrase tree written hordered harity
      obtain ⟨phrases, hseparated, htrees, hphrases, hallClean⟩ :=
        exists_phrases _ writtenRest hall hallArity
      cases phrases with
      | nil => cases htrees
      | cons next others =>
        refine ⟨phrase :: next :: others, .more _ comma hseparated, ?_, ⟨hphrase, hphrases⟩, ?_⟩
        · rw [Phrase.trees, htrees]
        · simpa [hclean] using hallClean

end

/-- The trees that are spelled are the legal phrases without errors. -/
theorem spelled_iff {levels : Nat} {tree : Tree} {tokens : List Token} :
    tree.Spelled levels tokens ↔ ∃ phrase : Phrase, phrase.Legal 0 levels ∧ phrase.errors = [] ∧
      phrase.tokens = tokens ∧ phrase.tree = tree := by
  constructor
  · intro h
    obtain ⟨phrase, htokens, htree, hordered, hclean⟩ :=
      exists_phrase tree h.written h.ordered h.arity
    have hdepth := (phrase.renders hordered hclean).depth_eq
    rw [htree] at hdepth
    exact ⟨phrase, ⟨hordered, Nat.zero_le _, hdepth ▸ h.depth_lt⟩, hclean, htokens, htree⟩
  · rintro ⟨phrase, hlegal, hclean, rfl, rfl⟩
    have h := phrase.renders hlegal.ordered hclean
    exact ⟨h.written, h.ordered, h.arity, h.depth_eq ▸ hlegal.depth_lt⟩

end Tree

theorem Phrase.expression_eq {phrase : Phrase} (hordered : phrase.Ordered)
    (hclean : phrase.errors = []) : phrase.expression = phrase.tree.expression :=
  ((phrase.renders hordered hclean).lay_eq #[]).symm

end Lox
