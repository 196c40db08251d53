import Lox.Proofs.Eval.Scoping

/-!
# Runs keep to the frames of the program

A watched run of anything that stands in one of the programs, in a scope that was opened for the
frames around it, leaves the chronicle right, and at every moment of it the scopes nest as they
should. The argument is by induction on the fuel, with a case for each form of a statement and of a
node; the case of a call is where the frames are taken from the chronicle.
-/

namespace Lox

namespace Stage

variable {stage : Stage}

/-- No program has a declaration for a branch or for the body of a loop. -/
def Orderly (stage : Stage) : Prop :=
  ∀ program ∈ stage.programs, ∀ statement ∈ program, statement.Orderly

/-- The statement stands within the frames, and what it declares is one of their names. -/
structure Belongs (stage : Stage) (around : List Frame) (statement : Statement) : Prop where
  has : stage.Has around (.statement statement)
  declares : ∀ name, statement.declared? = some name → name ∈ stage.names around

/-- The chronicle is right, and the scope was opened for the frames. -/
structure Stands (stage : Stage) (watched : Watched) (scope : ScopeId) (around : List Frame) :
    Prop where
  sound : stage.Sound watched
  opened : watched.opened[scope]? = some around

/-- A value that may be bound or handed around. -/
def Known (stage : Stage) (watched : Watched) (value : Value) : Prop :=
  stage.Knows watched.toChronicle watched.machine.nextIdentity value

theorem Stands.mono {before after : Watched} {scope : ScopeId} {around : List Frame}
    (h : stage.Stands before scope around) (hafter : stage.Sound after)
    (hextends : before.Extends after) : stage.Stands after scope around :=
  ⟨hafter, hextends.opened_eq h.opened⟩

section
variable {around : List Frame}

theorem Has.branch {statement inner : Statement} (h : stage.Has around (.statement statement))
    (hmem : inner ∈ statement.branches) : stage.Has around (.statement inner) := by
  obtain ⟨program, hprogram, hoccurs⟩ := h
  exact ⟨program, hprogram, .branch hoccurs hmem⟩

theorem Has.expression {statement : Statement} {expression : Expression}
    (h : stage.Has around (.statement statement)) (hmem : expression ∈ statement.ownExpressions) :
    stage.Has around (.node expression.nodes expression.root) := by
  obtain ⟨program, hprogram, hoccurs⟩ := h
  exact ⟨program, hprogram, .expression hoccurs hmem⟩

theorem Has.operand {nodes : Array Node} {index operand : Nat} {node : Node}
    (h : stage.Has around (.node nodes index)) (hfound : nodes[index]? = some node)
    (hmem : operand ∈ node.operands) : stage.Has around (.node nodes operand) := by
  obtain ⟨program, hprogram, hoccurs⟩ := h
  exact ⟨program, hprogram, .operand hoccurs hfound hmem⟩

/-- What stands for a part of a statement declares nothing. -/
theorem Has.belongs_branch {statement inner : Statement} (horderly : stage.Orderly)
    (h : stage.Has around (.statement statement)) (hmem : inner ∈ statement.branches) :
    stage.Belongs around inner where
  has := h.branch hmem
  declares name hname := by
    obtain ⟨program, hprogram, hoccurs⟩ := h
    have hplain := ((hoccurs.orderly (horderly program hprogram) rfl).of_mem_branches hmem).1
    rw [Statement.declared?_eq_none hplain] at hname
    cases hname

theorem Has.belongs_block {body : List Statement} (h : stage.Has around (.statement (.block body))) :
    ∀ statement ∈ body, stage.Belongs ({ entries := body } :: around) statement := by
  obtain ⟨program, hprogram, hoccurs⟩ := h
  exact fun _ hmem => ⟨⟨program, hprogram, .inBlock hoccurs hmem⟩,
    fun name hname => List.mem_append_right _ (Statement.mem_declaredNames hmem hname)⟩

theorem Has.belongs_body {name : Identifier} {parameters : List Identifier} {body : List Statement}
    (h : stage.Has around (.statement (.funDecl name parameters body))) :
    ∀ statement ∈ body, stage.Belongs (⟨parameters, body⟩ :: around) statement := by
  obtain ⟨program, hprogram, hoccurs⟩ := h
  exact fun _ hmem => ⟨⟨program, hprogram, .inFunction hoccurs hmem⟩,
    fun name hname => List.mem_append_right _ (Statement.mem_declaredNames hmem hname)⟩

theorem belongs_entry {program : List Statement} (h : program ∈ stage.programs) :
    ∀ statement ∈ program, stage.Belongs [] statement := fun _ hmem =>
  ⟨⟨program, h, .entry hmem⟩, fun _ hname => List.mem_append_right _
    (List.mem_flatMap.2 ⟨program, h, Statement.mem_declaredNames hmem hname⟩)⟩

end

/-- With the fuel, every part of the evaluator keeps the chronicle right. -/
structure AllKeep (stage : Stage) (fuel : Nat) : Prop where
  node : ∀ {before : Watched} {scope : ScopeId} {around : List Frame} {nodes : Array Node}
    {index : Nat}, stage.Stands before scope around → stage.Has around (.node nodes index) →
      stage.Keeps (Watch.evaluateNode fuel around nodes scope index) before stage.Known
  nodes : ∀ {before : Watched} {scope : ScopeId} {around : List Frame} {nodes : Array Node}
    {indices : List Nat}, stage.Stands before scope around →
      (∀ index ∈ indices, stage.Has around (.node nodes index)) →
        stage.Keeps (Watch.evaluateNodes fuel around nodes scope indices) before fun after values =>
          ∀ value ∈ values, stage.Known after value
  call : ∀ {before : Watched} {callee : Value} {arguments : List Value} {line : Nat},
    stage.Sound before → stage.Known before callee →
      (∀ argument ∈ arguments, stage.Known before argument) →
        stage.Keeps (Watch.call fuel callee arguments line) before stage.Known
  execute : ∀ {before : Watched} {scope : ScopeId} {around : List Frame} {statement : Statement},
    stage.Stands before scope around → stage.Belongs around statement →
      stage.Keeps (Watch.execute fuel around scope statement) before fun after completion =>
        stage.Known after completion.result
  executeAll : ∀ {before : Watched} {scope : ScopeId} {around : List Frame}
    {statements : List Statement}, stage.Stands before scope around →
      (∀ statement ∈ statements, stage.Belongs around statement) →
        stage.Keeps (Watch.executeAll fuel around scope statements) before fun after completion =>
          stage.Known after completion.result
  loop : ∀ {before : Watched} {scope : ScopeId} {around : List Frame} {condition : Expression}
    {body : Statement}, stage.Stands before scope around →
      stage.Has around (.statement (.whileLoop condition body)) →
        stage.Keeps (Watch.loop fuel around scope condition body) before fun after completion =>
          stage.Known after completion.result

theorem allKeep_zero : stage.AllKeep 0 where
  node hstands _ := keeps_fail hstands.sound
  nodes hstands _ := keeps_fail hstands.sound
  call hsound _ _ := keeps_fail hsound
  execute hstands _ := keeps_fail hstands.sound
  executeAll hstands _ := keeps_fail hstands.sound
  loop hstands _ := keeps_fail hstands.sound

namespace AllKeep

variable {fuel : Nat} (h : stage.AllKeep fuel) {before : Watched}
include h

/-- The scope that is opened for a call lies within the one that the function was declared in. -/
theorem call_succ {callee : Value} {arguments : List Value} {line : Nat}
    (hsound : stage.Sound before) (hcallee : stage.Known before callee)
    (harguments : ∀ argument ∈ arguments, stage.Known before argument) :
    stage.Keeps (Watch.call (fuel + 1) callee arguments line) before stage.Known := by
  cases callee with
  | native identity which =>
    cases which with
    | clock => exact (keeps_readClock hsound).bind fun _ _ hbetween _ _ => keeps_pure hbetween trivial
  | function declared =>
    obtain ⟨-, hclosure, hhas⟩ := hcallee
    refine keeps_get_bind (.ite (keeps_raise hsound) ?_)
    refine (keeps_openScope hsound hclosure).bind fun scope entered hentered hextends hscope => ?_
    refine (keeps_bindAll hentered (fun argument hmem => (harguments argument hmem).mono hextends)
      ?_).bind fun _ bound hbound hmore _ => ?_
    · intro around hopened parameter hmem
      obtain rfl : _ = around := Option.some.inj (hscope.symm.trans hopened)
      exact List.mem_append_left _ (List.mem_map_of_mem hmem)
    · refine Keeps.bind (Keeps.asCall (h.executeAll ⟨⟨hbound.fits.of_eq rfl rfl, hbound.lexical⟩,
        hmore.opened_eq hscope⟩ hhas.belongs_body) id) ?_
      exact fun completion final hfinal _ hknown => keeps_pure hfinal hknown
  | nil | bool value | number value | text value => exact keeps_raise hsound

variable {scope : ScopeId} {around : List Frame} (hstands : stage.Stands before scope around)
include hstands

theorem node_succ {nodes : Array Node} {index : Nat} (hhas : stage.Has around (.node nodes index)) :
    stage.Keeps (Watch.evaluateNode (fuel + 1) around nodes scope index) before stage.Known := by
  rw [Watch.evaluateNode]
  refine (keeps_note hstands.sound hstands.opened hhas).bind fun _ noted hnoted hextends _ => ?_
  replace hstands := hstands.mono hnoted hextends
  cases hfound : nodes[index]? with
  | none => exact keeps_fail hnoted
  | some node =>
    have hoperand {operand : Nat} (hmem : operand ∈ node.operands) :
        stage.Has around (.node nodes operand) := hhas.operand hfound hmem
    cases node with
    | literal value => exact keeps_pure hnoted (knows_of_fits (Value.fits_ofLiteral _ _) _ _)
    | var name => exact keeps_lookup hnoted
    | group inner => exact h.node hstands (hoperand List.mem_cons_self)
    | unary operator operand line =>
      exact (h.node hstands (hoperand List.mem_cons_self)).bind fun value between hbetween _ _ =>
        keeps_ofExcept hbetween fun result hresult =>
          knows_of_fits (UnaryOperator.fits_apply hresult _) _ _
    | binary operator left right line =>
      exact (h.node hstands (hoperand List.mem_cons_self)).bind
        fun first between hbetween hmore _ =>
          (h.node (hstands.mono hbetween hmore)
            (hoperand (List.mem_cons_of_mem _ List.mem_cons_self))).bind
            fun second further hfurther _ _ => keeps_ofExcept hfurther fun result hresult =>
              knows_of_fits (BinaryOperator.fits_apply hresult _) _ _
    | logical operator left right =>
      exact (h.node hstands (hoperand List.mem_cons_self)).bind
        fun value between hbetween hmore hvalue => .ite (keeps_pure hbetween hvalue)
          (h.node (hstands.mono hbetween hmore)
            (hoperand (List.mem_cons_of_mem _ List.mem_cons_self)))
    | assign name value =>
      exact (h.node hstands (hoperand List.mem_cons_self)).bind
        fun value between hbetween _ hvalue => (keeps_assign hbetween hvalue).bind
          fun _ further hfurther hmore _ => keeps_pure hfurther (hvalue.mono hmore)
    | call callee arguments line =>
      refine (h.node hstands (hoperand List.mem_cons_self)).bind
        fun callee between hbetween hmore hcallee => ?_
      cases callee.arity? with
      | none => exact keeps_raise hbetween
      | some arity =>
        exact (h.nodes (hstands.mono hbetween hmore) fun argument hmem =>
          hoperand (List.mem_cons_of_mem _ hmem)).bind fun values further hfurther hmost hvalues =>
            .ite (h.call hfurther (hcallee.mono hmost) hvalues) (keeps_raise hfurther)

theorem nodes_succ {nodes : Array Node} {indices : List Nat}
    (hhas : ∀ index ∈ indices, stage.Has around (.node nodes index)) :
    stage.Keeps (Watch.evaluateNodes (fuel + 1) around nodes scope indices) before
      fun after values => ∀ value ∈ values, stage.Known after value := by
  cases indices with
  | nil => exact keeps_pure hstands.sound (by simp)
  | cons index rest =>
    obtain ⟨hindex, hrest⟩ := List.forall_mem_cons.1 hhas
    exact (h.node hstands hindex).bind fun value between hbetween hextends hvalue =>
      (h.nodes (hstands.mono hbetween hextends) hrest).bind
        fun values further hfurther hmore hvalues =>
          keeps_pure hfurther (List.forall_mem_cons.2 ⟨hvalue.mono hmore, hvalues⟩)

theorem executeAll_succ {statements : List Statement}
    (hbelong : ∀ statement ∈ statements, stage.Belongs around statement) :
    stage.Keeps (Watch.executeAll (fuel + 1) around scope statements) before fun after completion =>
      stage.Known after completion.result := by
  cases statements with
  | nil => exact keeps_pure hstands.sound trivial
  | cons statement rest =>
    obtain ⟨hstatement, hrest⟩ := List.forall_mem_cons.1 hbelong
    refine (h.execute hstands hstatement).bind fun completion between hbetween hextends hvalue => ?_
    cases completion with
    | normal => exact h.executeAll (hstands.mono hbetween hextends) hrest
    | returned value => exact keeps_pure hbetween hvalue

variable (horderly : stage.Orderly)
include horderly

theorem execute_succ {statement : Statement} (hbelongs : stage.Belongs around statement) :
    stage.Keeps (Watch.execute (fuel + 1) around scope statement) before fun after completion =>
      stage.Known after completion.result := by
  obtain ⟨hhas, hdeclares⟩ := hbelongs
  refine (keeps_note hstands.sound hstands.opened hhas).bind fun _ noted hnoted hextends _ => ?_
  replace hstands := hstands.mono hnoted hextends
  have hdefine {after : Watched} (hafter : stage.Stands after scope around) {name : String}
      (hname : statement.declared? = some name) {value : Value} (hvalue : stage.Known after value) :
      stage.Keeps (do Watch.step (Run.define scope name value); return Completion.normal) after
        fun after completion => stage.Known after completion.result :=
    (keeps_define hafter.sound hvalue fun others hopened => by
      obtain rfl : around = others := Option.some.inj (hafter.opened.symm.trans hopened)
      exact hdeclares name hname).bind fun _ _ hfurther _ _ => keeps_pure hfurther trivial
  have hexpression {expression : Expression} (hmem : expression ∈ statement.ownExpressions) :
      stage.Keeps (Watch.evaluateNode fuel around expression.nodes scope expression.root) noted
        stage.Known := h.node hstands (hhas.expression hmem)
  cases statement with
  | varDecl name initial =>
    cases initial with
    | none => exact hdefine hstands rfl trivial
    | some expression =>
      exact (hexpression List.mem_cons_self).bind fun value between hbetween hmore hvalue =>
        hdefine (hstands.mono hbetween hmore) rfl hvalue
  | funDecl name parameters body =>
    refine (keeps_newHome hnoted).bind fun identity between hbetween hmore hidentity => ?_
    obtain ⟨hlt, hhome⟩ := hidentity
    have hbetweenStands := hstands.mono hbetween hmore
    exact hdefine hbetweenStands rfl ⟨hlt, hhome ▸ hbetweenStands.opened, hhome ▸ hhas⟩
  | expression value =>
    exact (hexpression List.mem_cons_self).bind fun _ between hbetween _ _ =>
      keeps_pure hbetween trivial
  | print value =>
    exact (hexpression List.mem_cons_self).bind fun value between hbetween _ _ =>
      (keeps_print hbetween).bind fun _ further hfurther _ _ => keeps_pure hfurther trivial
  | block body =>
    exact (keeps_openScope hnoted hstands.opened).bind fun inner between hbetween _ hinner =>
      h.executeAll ⟨hbetween, hinner⟩ hhas.belongs_block
  | ifThen condition success =>
    exact (hexpression List.mem_cons_self).bind fun value between hbetween hmore _ =>
      .ite (h.execute (hstands.mono hbetween hmore)
        (hhas.belongs_branch horderly List.mem_cons_self)) (keeps_pure hbetween trivial)
  | ifElse condition success failure =>
    refine (hexpression List.mem_cons_self).bind fun value between hbetween hmore _ =>
      h.execute (hstands.mono hbetween hmore) (hhas.belongs_branch horderly ?_)
    split
    · exact List.mem_cons_self
    · exact List.mem_cons_of_mem _ List.mem_cons_self
  | whileLoop condition body => exact h.loop hstands hhas
  | returnWith value line =>
    cases value with
    | none => exact keeps_pure hnoted trivial
    | some expression =>
      exact (hexpression List.mem_cons_self).bind fun value between hbetween _ hvalue =>
        keeps_pure hbetween hvalue

theorem loop_succ {condition : Expression} {body : Statement}
    (hhas : stage.Has around (.statement (.whileLoop condition body))) :
    stage.Keeps (Watch.loop (fuel + 1) around scope condition body) before fun after completion =>
      stage.Known after completion.result := by
  refine (h.node hstands (hhas.expression List.mem_cons_self)).bind
    fun value between hbetween hextends _ => .ite ?_ (keeps_pure hbetween trivial)
  have hinner := hstands.mono hbetween hextends
  refine (h.execute hinner (hhas.belongs_branch horderly List.mem_cons_self)).bind
    fun completion further hfurther hmore hvalue => ?_
  cases completion with
  | normal => exact h.loop (hinner.mono hfurther hmore) hhas
  | returned value => exact keeps_pure hfurther hvalue

end AllKeep

theorem allKeep (horderly : stage.Orderly) (fuel : Nat) : stage.AllKeep fuel := by
  induction fuel with
  | zero => exact allKeep_zero
  | succ fuel ih =>
    exact ⟨fun hstands => ih.node_succ hstands, fun hstands => ih.nodes_succ hstands,
      fun hsound => ih.call_succ hsound, fun hstands => ih.execute_succ hstands horderly,
      fun hstands => ih.executeAll_succ hstands, fun hstands => ih.loop_succ hstands horderly⟩

/-- However a program of the stage ends that is run at top level, the chronicle is right. -/
theorem Fits.sound_executeAll {chronicle : Chronicle} {machine : Machine}
    (h : stage.Fits chronicle machine) (horderly : stage.Orderly) {program : List Statement}
    (hprogram : program ∈ stage.programs) (fuel : Nat) :
    stage.Sound (finalState
      (Watch.executeAll fuel [] stage.globals program { chronicle with machine })) := by
  have hstands : stage.Stands { chronicle with machine } stage.globals [] :=
    ⟨⟨h, by simp⟩, h.outermost⟩
  have hkeeps := (allKeep horderly fuel).executeAll hstands (belongs_entry hprogram)
  cases hrun : Watch.executeAll fuel [] stage.globals program { chronicle with machine } with
  | ok completion after => exact (hkeeps.ok hrun).1
  | error interrupt after => exact hkeeps.error hrun

end Stage

end Lox
