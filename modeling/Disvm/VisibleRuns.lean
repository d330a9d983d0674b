import Mathlib.Logic.Relation

/-!
# Visible runs

A machine moves silently or shows an event.  What it shows in finitely many
moves carries over to every machine that simulates it, with silent moves of
its own in between.
-/

namespace Disvm.VisibleRuns

variable {Config Other Event : Type*}

/-- One move of a deterministic machine. -/
inductive Move (Config Event : Type*) where
  | halt
  | silent (next : Config)
  | visible (event : Event) (next : Config)

/-- The configuration after a move. -/
def Move.next : Move Config Event → Option Config
  | .halt => none
  | .silent next => some next
  | .visible _ next => some next

abbrev Machine (Config Event : Type*) := Config → Move Config Event

/-- The events of some first moves of a run. -/
inductive Shows (machine : Machine Config Event) : Config → List Event → Prop where
  | stop {config : Config} : Shows machine config []
  | silent {config next : Config} {events : List Event} (moved : machine config = .silent next)
      (rest : Shows machine next events) : Shows machine config events
  | visible {config next : Config} {event : Event} {events : List Event}
      (moved : machine config = .visible event next) (rest : Shows machine next events) :
      Shows machine config (event :: events)

/-- Silent moves. -/
def Quiet (machine : Machine Config Event) : Config → Config → Prop :=
  Relation.ReflTransGen fun config next => machine config = .silent next

theorem Quiet.refl {machine : Machine Config Event} (config : Config) :
    Quiet machine config config :=
  Relation.ReflTransGen.refl

theorem Quiet.single {machine : Machine Config Event} {config next : Config}
    (moved : machine config = .silent next) : Quiet machine config next :=
  Relation.ReflTransGen.single moved

theorem Quiet.trans {machine : Machine Config Event} {first second third : Config}
    (toSecond : Quiet machine first second) (toThird : Quiet machine second third) :
    Quiet machine first third :=
  Relation.ReflTransGen.trans toSecond toThird

/-- Silent moves may come first. -/
theorem Shows.of_quiet {machine : Machine Config Event} {config next : Config}
    {events : List Event} (quiet : Quiet machine config next)
    (isShown : Shows machine next events) : Shows machine config events := by
  induction quiet using Relation.ReflTransGen.head_induction_on with
  | refl => exact isShown
  | head moved _ ih => exact .silent moved ih

/-- The moves of the first machine are matched by the second one. -/
structure Simulates (first : Machine Config Event) (second : Machine Other Event)
    (related : Config → Other → Prop) : Prop where
  silent : ∀ config other next, related config other → first config = .silent next →
    ∃ later, Quiet second other later ∧ related next later
  visible : ∀ config other event next, related config other →
    first config = .visible event next →
    ∃ middle later, Quiet second other middle ∧ second middle = .visible event later ∧
      related next later

variable {first : Machine Config Event} {second : Machine Other Event}
  {related : Config → Other → Prop}

/-- What is shown is shown by a machine that matches the moves. -/
theorem Simulates.shows_of (simulates : Simulates first second related) {config : Config}
    {other : Other} {events : List Event} (isRelated : related config other)
    (isShown : Shows first config events) : Shows second other events := by
  induction isShown generalizing other with
  | stop => exact .stop
  | silent moved _ ih =>
      obtain ⟨later, quiet, isRelated⟩ := simulates.silent _ _ _ isRelated moved
      exact .of_quiet quiet (ih isRelated)
  | visible moved _ ih =>
      obtain ⟨middle, later, quiet, matched, isRelated⟩ :=
        simulates.visible _ _ _ _ isRelated moved
      exact .of_quiet quiet (.visible matched (ih isRelated))

/-- Machines that simulate each other show the same. -/
theorem Simulates.shows_iff (forward : Simulates first second related)
    (backward : Simulates second first fun other config => related config other)
    {config : Config} {other : Other} (isRelated : related config other)
    (events : List Event) : Shows first config events ↔ Shows second other events :=
  ⟨forward.shows_of isRelated, backward.shows_of isRelated⟩

/-- Two moves that show the same and go to related configurations. -/
inductive Matches (related : Config → Other → Prop) :
    Move Config Event → Move Other Event → Prop where
  | halt : Matches related .halt .halt
  | silent {next : Config} {later : Other} (isRelated : related next later) :
      Matches related (.silent next) (.silent later)
  | visible {event : Event} {next : Config} {later : Other} (isRelated : related next later) :
      Matches related (.visible event next) (.visible event later)

theorem Matches.symm {move : Move Config Event} {other : Move Other Event}
    (isMatch : Matches related move other) :
    Matches (fun other config => related config other) other move := by
  cases isMatch with
  | halt => exact .halt
  | silent isRelated => exact .silent isRelated
  | visible isRelated => exact .visible isRelated

/-- A move matches itself if what follows is related to itself. -/
theorem Matches.of_next {same : Config → Config → Prop} (move : Move Config Event)
    (isSame : ∀ config, move.next = some config → same config config) :
    Matches same move move := by
  cases move with
  | halt => exact .halt
  | silent next => exact .silent (isSame next rfl)
  | visible event next => exact .visible (isSame next rfl)

theorem Matches.refl {same : Config → Config → Prop} (isSame : ∀ config, same config config)
    (move : Move Config Event) : Matches same move move :=
  .of_next move fun config _ => isSame config

/-- A move is matched after silent moves, or it is silent and needs no match. -/
theorem Simulates.of_matches
    (matched : ∀ config other, related config other →
      (∃ middle, Quiet second other middle ∧ Matches related (first config) (second middle)) ∨
        ∃ next, first config = .silent next ∧ related next other) :
    Simulates first second related := by
  constructor
  · intro config other next isRelated moved
    rcases matched config other isRelated with ⟨middle, quiet, isMatch⟩ | ⟨_, isNext, isRelated⟩
    · rw [moved] at isMatch
      generalize isMove : second middle = move at isMatch
      cases isMatch with
      | silent isRelated => exact ⟨_, quiet.trans (.single isMove), isRelated⟩
    · rw [moved] at isNext
      cases isNext
      exact ⟨other, .refl other, isRelated⟩
  · intro config other event next isRelated moved
    rcases matched config other isRelated with ⟨middle, quiet, isMatch⟩ | ⟨_, isNext, _⟩
    · rw [moved] at isMatch
      generalize isMove : second middle = move at isMatch
      cases isMatch with
      | visible isRelated => exact ⟨middle, _, quiet, isMove, isRelated⟩
    · rw [moved] at isNext
      cases isNext

end Disvm.VisibleRuns
