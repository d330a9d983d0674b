import Mathlib.Logic.Relation

/-!
# Runs of transition systems

A transition system is a predicate of initial states together with a step
relation.  This file packages the induction over runs once, so that an
invariant of a concrete system only needs its initial case and its step case.
Systems whose steps are chosen by labelled actions additionally get an
executable runner, used to replay concrete traces.
-/

namespace Disvm.Transition

variable {State Action : Type*}

/-- States reached from an initial state by finitely many steps. -/
def Reachable (initial : State → Prop) (step : State → State → Prop)
    (state : State) : Prop :=
  ∃ first, initial first ∧ Relation.ReflTransGen step first state

namespace Reachable

variable {initial : State → Prop} {step : State → State → Prop}

theorem start {state : State} (isInitial : initial state) :
    Reachable initial step state :=
  ⟨state, isInitial, Relation.ReflTransGen.refl⟩

theorem next {before after : State} (reached : Reachable initial step before)
    (edge : step before after) : Reachable initial step after := by
  obtain ⟨first, isInitial, path⟩ := reached
  exact ⟨first, isInitial, path.tail edge⟩

/-- A property of the initial states that every step preserves holds in every
reachable state.  The step case may use that its source is reachable. -/
theorem invariant (property : State → Prop)
    (established : ∀ state, initial state → property state)
    (preserved : ∀ before after, Reachable initial step before →
      property before → step before after → property after)
    {state : State} (reached : Reachable initial step state) :
    property state := by
  obtain ⟨first, isInitial, path⟩ := reached
  induction path with
  | refl => exact established first isInitial
  | @tail before after path edge ih =>
      exact preserved before after ⟨first, isInitial, path⟩ ih edge

/-- Fewer steps reach fewer states. -/
theorem mono {finer : State → State → Prop}
    (includes : ∀ before after, finer before after → step before after)
    {state : State} (reached : Reachable initial finer state) :
    Reachable initial step state := by
  obtain ⟨first, isInitial, path⟩ := reached
  exact ⟨first, isInitial, Relation.ReflTransGen.mono includes _ _ path⟩

end Reachable

/-- The step relation of a system whose partial step function is driven by
permitted actions. -/
def StepsBy (permitted : State → Action → Prop)
    (step : State → Action → Option State) (before after : State) : Prop :=
  ∃ action, permitted before action ∧ step before action = some after

/-- Replay a list of actions. -/
def execute (step : State → Action → Option State) :
    State → List Action → Option State
  | state, [] => some state
  | state, action :: actions =>
      (step state action).bind fun after => execute step after actions

/-- A successful replay of permitted actions is a run. -/
theorem reachable_of_execute {initial : State → Prop}
    {permitted : State → Action → Prop}
    {step : State → Action → Option State} {first last : State}
    {actions : List Action} (reached : Reachable initial (StepsBy permitted step) first)
    (allowed : ∀ state, ∀ action ∈ actions, permitted state action)
    (replayed : execute step first actions = some last) :
    Reachable initial (StepsBy permitted step) last := by
  induction actions generalizing first with
  | nil =>
      simp only [execute, Option.some.injEq] at replayed
      exact replayed ▸ reached
  | cons action actions ih =>
      simp only [execute, Option.bind_eq_some_iff] at replayed
      obtain ⟨middle, stepped, rest⟩ := replayed
      refine ih (reached.next ⟨action, allowed first action (by simp), stepped⟩)
        (fun state other member => allowed state other (by simp [member])) rest

/-- A condition on every step of a run, in the state before it. -/
def Throughout (step : State → Action → State) (condition : State → Action → Prop) :
    State → List Action → Prop
  | _, [] => True
  | state, action :: actions =>
      condition state action ∧ Throughout step condition (step state action) actions

/-- Two conditions that agree where an invariant holds, and that keep it, hold
throughout the same runs. -/
theorem throughout_iff {step : State → Action → State} {first second : State → Action → Prop}
    (invariant : State → Prop)
    (agree : ∀ state action, invariant state → (first state action ↔ second state action))
    (preserved : ∀ state action, invariant state → first state action →
      invariant (step state action))
    {state : State} (holds : invariant state) (actions : List Action) :
    Throughout step first state actions ↔ Throughout step second state actions := by
  induction actions generalizing state with
  | nil => exact Iff.rfl
  | cons action actions ih =>
      have here := agree state action holds
      constructor
      · rintro ⟨now, later⟩
        exact ⟨here.mp now, (ih (preserved state action holds now)).mp later⟩
      · rintro ⟨now, later⟩
        have isFirst := here.mpr now
        exact ⟨isFirst, (ih (preserved state action holds isFirst)).mpr later⟩

end Disvm.Transition
