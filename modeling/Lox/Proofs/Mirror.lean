/-!
# Runs that mirror each other

A run of a stateful computation may look like the run of another one, when states, failures and
values are seen through functions. This is how it is said that something has no influence on a run:
the lines in a program, the errors recorded before it, or what an observer writes down. The
combinators that computations are put together from pass it on, so that only their steps remain to
be looked at.
-/

namespace Lox

variable {ε φ σ τ α β γ δ : Type}

/-- A way to see the states and the failures of one sort of run as those of another. -/
structure View (σ τ ε φ : Type) where
  state : σ → τ
  failure : ε → φ

/-- What a result looks like. -/
def View.result (view : View σ τ ε φ) (f : α → β) : EStateM.Result ε σ α → EStateM.Result φ τ β
  | .ok value after => .ok (f value) (view.state after)
  | .error failure after => .error (view.failure failure) (view.state after)

/-- The state in which a run ends, with a value or without. -/
def finalState : EStateM.Result ε σ α → σ
  | .ok _ after | .error _ after => after

theorem View.finalState_result (view : View σ τ ε φ) (f : α → β) (result : EStateM.Result ε σ α) :
    finalState (view.result f result) = view.state (finalState result) := by
  cases result <;> rfl

/-- From what a state looks like, the image runs as the run from that state looks. -/
def Mirrors (view : View σ τ ε φ) (f : α → β) (run : EStateM ε σ α) (image : EStateM φ τ β) : Prop :=
  ∀ before, image (view.state before) = view.result f (run before)

section
variable {view : View σ τ ε φ} {f : α → β} {g : γ → δ}

theorem mirrors_pure {value : α} {seen : β} (h : seen = f value) :
    Mirrors view f (pure value) (pure seen) := fun _ => h ▸ rfl

theorem mirrors_throw {failure : ε} {seen : φ} (h : seen = view.failure failure) :
    Mirrors view f (throw failure) (throw seen) := fun _ => h ▸ rfl

theorem Mirrors.bind {run : EStateM ε σ α} {image : EStateM φ τ β} {next : α → EStateM ε σ γ}
    {nextImage : β → EStateM φ τ δ} (first : Mirrors view f run image)
    (second : ∀ value, Mirrors view g (next value) (nextImage (f value))) :
    Mirrors view g (run >>= next) (image >>= nextImage) := by
  intro before
  have hfirst := first before
  simp only [Bind.bind, EStateM.bind, hfirst]
  cases hrun : run before with
  | ok value after => exact second value after
  | error failure after => rfl

theorem Mirrors.map {run : EStateM ε σ α} {image : EStateM φ τ β} (h : Mirrors view f run image)
    {change : α → γ} {changeImage : β → δ}
    (hchange : ∀ value, changeImage (f value) = g (change value)) :
    Mirrors view g (change <$> run) (changeImage <$> image) := by
  intro before
  have hrun := h before
  simp only [Functor.map, EStateM.map, hrun]
  cases run before with
  | ok value after => simp only [View.result, hchange]
  | error failure after => rfl

theorem Mirrors.some {run : EStateM ε σ α} {image : EStateM φ τ β} (h : Mirrors view f run image) :
    Mirrors view (Option.map f) (some <$> run) (some <$> image) :=
  h.map fun _ => rfl

/-- What is read off the state may be used as it looks. -/
theorem mirrors_get {next : σ → EStateM ε σ α} {nextImage : τ → EStateM φ τ β}
    (h : ∀ state, Mirrors view f (next state) (nextImage (view.state state))) :
    Mirrors view f (get >>= next) (get >>= nextImage) := fun before => h before before

theorem mirrors_modifyGet {change : σ → α × σ} {changeImage : τ → β × τ}
    (h : ∀ state, changeImage (view.state state) =
      (f (change state).1, view.state (change state).2)) :
    Mirrors view f (modifyGet change : EStateM ε σ α) (modifyGet changeImage : EStateM φ τ β) := by
  intro before
  show EStateM.Result.ok (changeImage (view.state before)).1 (changeImage (view.state before)).2 =
    .ok (f (change before).1) (view.state (change before).2)
  rw [h]

theorem mirrors_modify {change : σ → σ} {changeImage : τ → τ}
    (h : ∀ state, changeImage (view.state state) = view.state (change state)) :
    Mirrors view id (modify change : EStateM ε σ Unit) (modify changeImage : EStateM φ τ Unit) :=
  mirrors_modifyGet fun state => Prod.ext rfl (h state)

theorem Mirrors.ite {condition : Prop} [Decidable condition] {first second : EStateM ε σ α}
    {firstImage secondImage : EStateM φ τ β} (hfirst : Mirrors view f first firstImage)
    (hsecond : Mirrors view f second secondImage) :
    Mirrors view f (if condition then first else second)
      (if condition then firstImage else secondImage) := by
  split
  · exact hfirst
  · exact hsecond

end

end Lox
