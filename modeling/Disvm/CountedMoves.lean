import Disvm.ObjectMemory

/-!
# Moves that count references

A move of words adds references for the pointers at the source, releases those at the
destination, in some order and word by word, and then moves the words.  The words at the
destination keep the released pointers until then.  What is alive at each step is what
is kept by the references that are left: those of the memory without the released words,
and those that have been added.
-/

namespace Disvm.ObjectMemory

open RefCounting

/-- What a move does to the counts, at offsets from the source and the destination. -/
inductive CountStep where
  | increment (offset : ℕ)
  | decrement (offset : ℕ)
  | access (id : ℕ)
  deriving DecidableEq, Repr

namespace CountStep

def incremented : CountStep → Option ℕ
  | increment offset => some offset
  | decrement _ => none
  | access _ => none

def released : CountStep → Option ℕ
  | increment _ => none
  | decrement offset => some offset
  | access _ => none

end CountStep

def clearWords (start : ℕ) (offsets : List ℕ) (words : List Word) : List Word :=
  offsets.foldl (fun words offset => words.set (start + offset) (.pointer none)) words

section Definitions

variable (dest src : Region) (state : MemoryState)

def countStep (state : MemoryState) : CountStep → MemoryState
  | .increment offset => state.addRefPointerField (src.shift offset)
  | .decrement offset => state.decRefPointerField (dest.shift offset)
  | .access id => state.touch id

def countPass (steps : List CountStep) : MemoryState :=
  steps.foldl (countStep dest src) state

/-- The memory without the words at the offsets. -/
def cleared (offsets : List ℕ) : MemoryState :=
  state.modifyWords dest.owner (clearWords dest.start offsets)

/-- The references that the steps add. -/
def gained (steps : List CountStep) (id : ℕ) : ℕ :=
  ((steps.filterMap CountStep.incremented).filterMap fun offset =>
    state.pointerAt (src.shift offset)).count id

/-- After the steps there are references that keep the object. -/
def KeptAfter (steps : List CountStep) (id : ℕ) : Prop :=
  Kept counted (cleared dest state (steps.filterMap CountStep.released)).heap
    (fun target => (cleared dest state (steps.filterMap CountStep.released)).outside target +
      gained src state steps target) id

def OwnerKept (steps : List CountStep) : Owner → Prop
  | .frame => True
  | .object id => KeptAfter dest src state steps id

/-- What the step accesses has not been freed, and it does not free its destination. -/
def StepPermitted (before : List CountStep) : CountStep → Prop
  | .increment offset => OwnerKept dest src state before src.owner ∧
      ∀ id, state.pointerAt (src.shift offset) = some id → KeptAfter dest src state before id
  | .decrement offset => OwnerKept dest src state (before ++ [.decrement offset]) dest.owner
  | .access id => KeptAfter dest src state before id

def PassPermitted (steps : List CountStep) : Prop :=
  ∀ before step, before ++ [step] <+: steps → StepPermitted dest src state before step

/-- The steps add a reference for each pointer at the source, and release each at the
destination. -/
structure Covers (count : ℕ) (steps : List CountStep) : Prop where
  sourceLives : state.Lives src.owner
  destLives : state.Lives dest.owner
  sourceInside : src.start + count ≤ (state.words src.owner).length
  destInside : dest.start + count ≤ (state.words dest.owner).length
  incrementedOnce : (steps.filterMap CountStep.incremented).Nodup
  releasedOnce : (steps.filterMap CountStep.released).Nodup
  incrementedInside : ∀ offset ∈ steps.filterMap CountStep.incremented, offset < count
  releasedInside : ∀ offset ∈ steps.filterMap CountStep.released, offset < count
  source : ∀ offset < count, state.pointerAt (src.shift offset) ≠ none →
    offset ∈ steps.filterMap CountStep.incremented
  dest : ∀ offset < count, state.pointerAt (dest.shift offset) ≠ none →
    offset ∈ steps.filterMap CountStep.released

end Definitions

section Cleared

variable {dest src : Region} {state : MemoryState} {words values : List Word} {start : ℕ}
  {offsets : List ℕ}

theorem clearWords_concat (offset : ℕ) : clearWords start (offsets ++ [offset]) words =
    (clearWords start offsets words).set (start + offset) (.pointer none) := by
  rw [clearWords, List.foldl_append]
  rfl

theorem clearWords_length : (clearWords start offsets words).length = words.length := by
  induction offsets using List.reverseRecOn with
  | nil => rfl
  | append_singleton offsets offset ih => rw [clearWords_concat, List.length_set, ih]

theorem clearWords_other {index : ℕ} (isOther : ∀ offset ∈ offsets, start + offset ≠ index) :
    (clearWords start offsets words)[index]? = words[index]? := by
  induction offsets using List.reverseRecOn with
  | nil => rfl
  | append_singleton offsets offset ih =>
      rw [clearWords_concat, List.getElem?_set_ne (isOther offset (by simp))]
      exact ih fun other member => isOther other (List.mem_append_left _ member)

theorem clearWords_member {offset : ℕ} (member : offset ∈ offsets) :
    ((clearWords start offsets words)[start + offset]?.bind Word.target) = none := by
  induction offsets using List.reverseRecOn with
  | nil => cases member
  | append_singleton offsets last ih =>
      rw [clearWords_concat, List.getElem?_set]
      split_ifs with same inside
      · rfl
      · rfl
      · rcases List.mem_append.mp member with earlier | isLast
        · exact ih earlier
        · rw [List.mem_singleton.mp isLast] at same
          exact absurd rfl same

/-- Words that are written over need not be cleared before. -/
theorem overwrite_clearWords (inside : ∀ offset ∈ offsets, offset < values.length) :
    overwrite (clearWords start offsets words) start values = overwrite words start values := by
  induction offsets using List.reverseRecOn with
  | nil => rfl
  | append_singleton offsets offset ih =>
      have isInside := inside offset (by simp)
      rw [clearWords_concat, ← ih fun other member => inside other (List.mem_append_left _ member)]
      unfold overwrite
      rw [List.take_set_of_le (Nat.le_add_right _ _), List.drop_set_of_lt (by omega)]

theorem count_targets_clear (words : List Word) (index id : ℕ) :
    (targets (words.set index (.pointer none))).count id ≤ (targets words).count id := by
  by_cases inside : index < words.length
  · have changed := count_targets_set _ _ inside (.pointer none) id
    rw [show (Word.pointer none).target.toList = [] from rfl, List.count_nil] at changed
    omega
  · rw [List.set_eq_of_length_le (Nat.le_of_not_lt inside)]

theorem cleared_nil : cleared dest state [] = state :=
  modifyWords_id

theorem cleared_concat (offset : ℕ) : cleared dest state (offsets ++ [offset]) =
    (cleared dest state offsets).setWord (dest.shift offset) (.pointer none) := by
  unfold cleared MemoryState.setWord
  rw [show (dest.shift offset).owner = dest.owner from rfl, modifyWords_modifyWords]
  apply modifyWords_congr
  exact clearWords_concat offset

theorem outside_modifyWords {later : MemoryState} {owner : Owner}
    {change : List Word → List Word} (frames : later.frames = state.frames)
    (tracked : later.tracked = state.tracked) (id : ℕ) :
    (later.modifyWords owner change).outside id = (state.modifyWords owner change).outside id := by
  unfold MemoryState.outside
  cases owner with
  | frame =>
      unfold MemoryState.modifyWords
      dsimp only
      rw [frames, tracked]
  | object changed =>
      rw [modifyWords_object, modifyWords_object, frames, tracked]

/-- With fewer references fewer objects are kept. -/
theorem kept_of_modifyWords {owner : Owner} {change : List Word → List Word} {extra : ℕ → ℕ}
    {id : ℕ} (fewer : ∀ words target,
      (targets (change words)).count target ≤ (targets words).count target)
    (keeps : Kept counted (state.modifyWords owner change).heap
      (fun target => (state.modifyWords owner change).outside target + extra target) id) :
    Kept counted state.heap (fun target => state.outside target + extra target) id := by
  cases owner with
  | frame =>
      refine Kept.mono (fun target => ?_) keeps
      have isFewer := fewer state.frames target
      unfold MemoryState.outside MemoryState.modifyWords
      dsimp only
      omega
  | object changed =>
      apply keeps.transfer
      · intro target _ held
        exact Or.inl held
      · intro holder alloc target _ live refers
        by_cases same : holder = changed
        · subst same
          obtain ⟨earlier, found, rfl⟩ : ∃ earlier, state.heap.cells holder = some earlier ∧
              earlier.modifyWords change = alloc := by
            simpa [modifyWords_object, Heap.modify] using live
          refine ⟨earlier, found, ?_⟩
          rcases List.mem_append.mp refers with inWords | inKind
          · have isFewer := fewer earlier.words target
            apply List.mem_append_left
            apply List.count_pos_iff.mp
            exact Nat.lt_of_lt_of_le (List.count_pos_iff.mpr inWords) isFewer
          · exact List.mem_append_right _ inKind
        · rw [modifyWords_object, Heap.modify_other same] at live
          exact ⟨alloc, live, refers⟩

end Cleared

section Pass

variable {dest src : Region} {state current : MemoryState} {steps : List CountStep}

/-- What the steps have left behind, as long as all of them are permitted. -/
structure Passed (dest src : Region) (state : MemoryState) (steps : List CountStep)
    (current : MemoryState) : Prop where
  balanced : Balanced (cleared dest current (steps.filterMap CountStep.released))
    (gained src state steps)
  shrinks : Shrinks counted state.heap current.heap
  frames : current.frames = state.frames
  tracked : current.tracked = state.tracked
  untouched : current.touchedFreed = []
  lives : current.Lives dest.owner
  survivors : ∀ id, (current.heap.cells id).isSome = true ↔ KeptAfter dest src state steps id

/-- A freed object has been accessed, or will be when the words are moved. -/
def Doomed (dest : Region) (state current : MemoryState) : Prop :=
  current.touchedFreed ≠ [] ∨ ∃ id < state.heap.limit,
    dest.owner = .object id ∧ current.heap.cells id = none

theorem Passed.ownerKept_iff (passed : Passed dest src state steps current) (owner : Owner) :
    current.Lives owner ↔ OwnerKept dest src state steps owner := by
  cases owner with
  | frame => exact Iff.rfl
  | object id => exact passed.survivors id

theorem Passed.wordAt_eq (passed : Passed dest src state steps current) (region : Region)
    (lives : current.Lives region.owner) : current.wordAt region = state.wordAt region := by
  unfold MemoryState.wordAt
  rw [words_of_shrinks passed.shrinks passed.frames lives]

theorem Doomed.later {next : MemoryState} (doomed : Doomed dest state current)
    (later : Later current next) (limit : state.heap.limit ≤ current.heap.limit) :
    Doomed dest state next := by
  rcases doomed with touched | ⟨id, inside, isOwner, freed⟩
  · exact Or.inl (later.touched touched)
  · exact Or.inr ⟨id, inside, isOwner, later.freed id (Nat.lt_of_lt_of_le inside limit) freed⟩

theorem passed_start (exact : Exact state) (lives : state.Lives dest.owner) :
    Passed dest src state [] state := by
  have isState : cleared dest state [] = state := cleared_nil
  have noneGained : gained src state [] = fun _ => 0 := rfl
  constructor
  · rw [List.filterMap_nil, isState, noneGained]
    exact exact.balanced
  · exact Shrinks.refl
  · rfl
  · rfl
  · exact exact.untouched
  · exact lives
  · intro id
    unfold KeptAfter
    rw [List.filterMap_nil, isState, noneGained]
    exact isSome_iff_kept exact.balanced.sound exact.balanced.positive

theorem later_countStep (step : CountStep) : Later current (countStep dest src current step) := by
  cases step with
  | increment offset => exact later_addRefPointerField _
  | decrement offset => exact (later_touchOwner _).trans (later_decRefCountAndFree _)
  | access id => exact later_touch id

theorem later_countPass : Later current (countPass dest src current steps) := by
  induction steps using List.reverseRecOn with
  | nil => exact Later.refl
  | append_singleton steps step ih =>
      unfold countPass at ih ⊢
      rw [List.foldl_append]
      exact ih.trans (later_countStep step)

theorem keptAfter_access {accessed id : ℕ} :
    KeptAfter dest src state (steps ++ [.access accessed]) id ↔
      KeptAfter dest src state steps id := by
  unfold KeptAfter gained
  simp only [List.filterMap_append, List.filterMap_cons, List.filterMap_nil,
    CountStep.released, CountStep.incremented, List.append_nil]

theorem Passed.access {id : ℕ} (passed : Passed dest src state steps current)
    (permitted : StepPermitted dest src state steps (.access id)) :
    Passed dest src state (steps ++ [.access id]) (countStep dest src current (.access id)) := by
  have same : countStep dest src current (.access id) = current :=
    touch_of_isSome ((passed.survivors id).mpr permitted)
  rw [same]
  constructor
  · have balanced := passed.balanced
    unfold gained at balanced ⊢
    simpa only [List.filterMap_append, List.filterMap_cons, List.filterMap_nil,
      CountStep.released, CountStep.incremented, List.append_nil] using balanced
  · exact passed.shrinks
  · exact passed.frames
  · exact passed.tracked
  · exact passed.untouched
  · exact passed.lives
  · intro other
    rw [keptAfter_access]
    exact passed.survivors other

theorem gained_increment (offset id : ℕ) :
    gained src state (steps ++ [.increment offset]) id =
      gained src state steps id + (state.pointerAt (src.shift offset)).toList.count id := by
  unfold gained
  simp only [List.filterMap_append, List.filterMap_cons, List.filterMap_nil,
    CountStep.incremented, List.count_append]
  cases state.pointerAt (src.shift offset) <;> rfl

theorem released_increment (offset : ℕ) :
    (steps ++ [CountStep.increment offset]).filterMap CountStep.released =
      steps.filterMap CountStep.released := by
  simp only [List.filterMap_append, List.filterMap_cons, List.filterMap_nil,
    CountStep.released, List.append_nil]

/-- Adding a reference to what is kept anyway keeps nothing else. -/
theorem keptAfter_increment {offset id : ℕ} (pointerKept : ∀ pointer,
      state.pointerAt (src.shift offset) = some pointer →
        KeptAfter dest src state steps pointer) :
    KeptAfter dest src state (steps ++ [.increment offset]) id ↔
      KeptAfter dest src state steps id := by
  cases found : state.pointerAt (src.shift offset) with
  | none =>
      unfold KeptAfter
      simp only [released_increment, gained_increment, found, Option.toList_none, List.count_nil,
        Nat.add_zero]
  | some pointer =>
      have isKept := pointerKept pointer found
      unfold KeptAfter at isKept ⊢
      rw [released_increment, ← kept_add_single isKept]
      simp only [gained_increment, found, Option.toList_some, count_cons_single, List.count_nil,
        Nat.zero_add, Nat.add_assoc]

theorem Passed.increment {offset : ℕ} (passed : Passed dest src state steps current)
    (permitted : StepPermitted dest src state steps (.increment offset)) :
    Passed dest src state (steps ++ [.increment offset])
      (countStep dest src current (.increment offset)) := by
  obtain ⟨ownerKept, pointerKept⟩ := permitted
  have ownerLives := (passed.ownerKept_iff src.owner).mpr ownerKept
  have isPointer : current.pointerAt (src.shift offset) = state.pointerAt (src.shift offset) :=
    congrArg (fun word => word.bind Word.target)
      (passed.wordAt_eq (src.shift offset) ownerLives)
  cases found : state.pointerAt (src.shift offset) with
  | none =>
      have isStep : countStep dest src current (.increment offset) = current :=
        addRefPointerField_nil ownerLives (isPointer.trans found)
      have sameGained : gained src state (steps ++ [.increment offset]) =
          gained src state steps := by
        funext id
        rw [gained_increment, found]
        rfl
      rw [isStep]
      constructor
      · rw [released_increment, sameGained]
        exact passed.balanced
      · exact passed.shrinks
      · exact passed.frames
      · exact passed.tracked
      · exact passed.untouched
      · exact passed.lives
      · intro id
        exact (passed.survivors id).trans (keptAfter_increment pointerKept).symm
  | some pointer =>
      have isKept := pointerKept pointer found
      have live := (passed.survivors pointer).mpr isKept
      have isStep : countStep dest src current (.increment offset) = current.addRef pointer :=
        addRefPointerField_pointer ownerLives (isPointer.trans found)
      have isGained : ∀ id, gained src state (steps ++ [.increment offset]) id =
          gained src state steps id + single pointer id := by
        intro id
        rw [gained_increment, found, Option.toList_some, count_cons_single, List.count_nil,
          Nat.zero_add]
      have sameLive : ∀ id, ((current.addRef pointer).heap.cells id).isSome =
          (current.heap.cells id).isSome := fun id => Heap.modify_isSome _
      have balanced : Balanced (cleared dest (current.addRef pointer)
          (steps.filterMap CountStep.released))
          (gained src state (steps ++ [.increment offset])) := by
        rw [cleared, ← addRef_modifyWords]
        refine (passed.balanced.addRef ?_).congr isGained
        exact (lives_modifyWords (.object pointer) dest.owner).mpr live
      rw [isStep]
      constructor
      · rw [released_increment]
        exact balanced
      · exact passed.shrinks.trans (shrinks_addRef pointer)
      · rw [addRef_of_isSome live]
        exact passed.frames
      · rw [addRef_of_isSome live]
        exact passed.tracked
      · rw [addRef_of_isSome live]
        exact passed.untouched
      · have lives := passed.lives
        cases isOwner : dest.owner with
        | frame => trivial
        | object id =>
            rw [isOwner] at lives
            rw [lives_object, sameLive]
            exact lives
      · intro id
        rw [sameLive, passed.survivors id]
        exact (keptAfter_increment pointerKept).symm

theorem released_decrement (offset : ℕ) :
    (steps ++ [CountStep.decrement offset]).filterMap CountStep.released =
      steps.filterMap CountStep.released ++ [offset] := by
  simp only [List.filterMap_append, List.filterMap_cons, List.filterMap_nil,
    CountStep.released]

theorem gained_decrement (offset : ℕ) :
    gained src state (steps ++ [.decrement offset]) = gained src state steps := by
  unfold gained
  simp only [List.filterMap_append, List.filterMap_cons, List.filterMap_nil,
    CountStep.incremented, List.append_nil]

theorem Passed.kept_iff (passed : Passed dest src state steps current) (offset : ℕ) {id : ℕ} :
    Kept counted (cleared dest current (steps.filterMap CountStep.released ++ [offset])).heap
        (fun target => (cleared dest current
          (steps.filterMap CountStep.released ++ [offset])).outside target +
            gained src state steps target) id ↔
      KeptAfter dest src state (steps ++ [.decrement offset]) id := by
  unfold KeptAfter
  rw [released_decrement, gained_decrement]
  have sameOutside : (cleared dest current
      (steps.filterMap CountStep.released ++ [offset])).outside = (cleared dest state
        (steps.filterMap CountStep.released ++ [offset])).outside :=
    funext fun target => outside_modifyWords passed.frames passed.tracked target
  rw [sameOutside]
  have shrinks : Shrinks counted
      (cleared dest state (steps.filterMap CountStep.released ++ [offset])).heap
      (cleared dest current (steps.filterMap CountStep.released ++ [offset])).heap :=
    shrinks_modifyWords passed.shrinks
  refine ⟨Kept.of_shrinks shrinks, Kept.shrinks shrinks fun target keeps => ?_⟩
  -- What is kept without one more word was kept with it, and is alive.
  have isAlive : (current.heap.cells target).isSome = true := by
    apply (passed.survivors target).mpr
    rw [cleared_concat] at keeps
    exact kept_of_modifyWords (fun words => count_targets_clear words _) keeps
  exact (lives_modifyWords (.object target) dest.owner).mpr isAlive

theorem Passed.decrement_balanced (passed : Passed dest src state steps current) {offset : ℕ}
    (isNew : offset ∉ steps.filterMap CountStep.released)
    (inside : dest.start + offset < (state.words dest.owner).length) :
    Balanced (cleared dest current (steps.filterMap CountStep.released ++ [offset]))
      fun target => gained src state steps target +
        (state.pointerAt (dest.shift offset)).toList.count target := by
  rw [cleared_concat]
  have lives : (cleared dest current (steps.filterMap CountStep.released)).Lives dest.owner :=
    (lives_modifyWords _ dest.owner).mpr passed.lives
  have isWords : (cleared dest current (steps.filterMap CountStep.released)).words dest.owner =
      clearWords dest.start (steps.filterMap CountStep.released) (state.words dest.owner) := by
    rw [cleared, words_modifyWords passed.lives,
      words_of_shrinks passed.shrinks passed.frames passed.lives]
  refine passed.balanced.modifyWords dest.owner lives fun target => ?_
  rw [isWords]
  have changed := count_targets_set (clearWords dest.start
    (steps.filterMap CountStep.released) (state.words dest.owner)) (dest.start + offset)
    (by rwa [clearWords_length]) (.pointer none) target
  rw [clearWords_other fun other member same => isNew (by
    rwa [← Nat.add_left_cancel same])] at changed
  have noTarget : (Word.pointer none).target.toList.count target = 0 := rfl
  have isPointer : (state.pointerAt (dest.shift offset)).toList.count target =
      ((state.words dest.owner)[dest.start + offset]?.bind Word.target).toList.count target := rfl
  have isStart : (dest.shift offset).start = dest.start + offset := rfl
  rw [isStart]
  omega

/-- A release frees the destination, or leaves it without the released word. -/
theorem Passed.decrement {offset : ℕ} (passed : Passed dest src state steps current)
    (isNew : offset ∉ steps.filterMap CountStep.released)
    (inside : dest.start + offset < (state.words dest.owner).length) :
    ((countStep dest src current (.decrement offset)).Lives dest.owner ↔
        StepPermitted dest src state steps (.decrement offset)) ∧
      (StepPermitted dest src state steps (.decrement offset) →
        Passed dest src state (steps ++ [.decrement offset])
          (countStep dest src current (.decrement offset))) := by
  obtain ⟨pointer, isPointer⟩ : ∃ pointer, state.pointerAt (dest.shift offset) = pointer :=
    ⟨_, rfl⟩
  have isStep : countStep dest src current (.decrement offset) =
      current.decRefCountAndFree pointer := by
    have isAccessed : current.touchOwner dest.owner = current := touchOwner_of_lives passed.lives
    have isWord := passed.wordAt_eq (dest.shift offset) passed.lives
    rw [← isPointer]
    unfold MemoryState.pointerAt
    rw [← isWord]
    exact congrArg (fun accessed : MemoryState => accessed.decRefCountAndFree
      (accessed.pointerAt (dest.shift offset))) isAccessed
  have balanced := passed.decrement_balanced isNew inside
  rw [isPointer] at balanced
  obtain ⟨released, untouched, shrinks⟩ := balanced.decRefCountAndFree _ fun _ => rfl
  have survives : ∀ id, (((cleared dest current (steps.filterMap CountStep.released ++
      [offset])).decRefCountAndFree pointer).heap.cells id).isSome = true ↔
        KeptAfter dest src state (steps ++ [.decrement offset]) id :=
    fun id => (balanced.survives_iff _ fun _ => rfl).trans (passed.kept_iff offset)
  have ownerLives : (current.decRefCountAndFree pointer).Lives dest.owner ↔
      OwnerKept dest src state (steps ++ [.decrement offset]) dest.owner := by
    rw [← lives_decRefCountAndFree_modifyWords (clearWords dest.start
      (steps.filterMap CountStep.released ++ [offset]))]
    cases isOwner : dest.owner with
    | frame => exact Iff.rfl
    | object id =>
        have isSurvivor := survives id
        rw [cleared, isOwner] at isSurvivor
        exact isSurvivor
  rw [isStep]
  refine ⟨ownerLives, fun permitted => ?_⟩
  have lives := ownerLives.mpr permitted
  have isCleared : (cleared dest current (steps.filterMap CountStep.released ++
      [offset])).decRefCountAndFree pointer = cleared dest (current.decRefCountAndFree pointer)
        (steps.filterMap CountStep.released ++ [offset]) :=
    decRefCountAndFree_modifyWords _ lives
  rw [isCleared] at released survives untouched
  constructor
  · rw [released_decrement, gained_decrement]
    exact released
  · exact passed.shrinks.trans (shrinks_release _)
  · exact passed.frames
  · exact passed.tracked
  · have isSame : (cleared dest (current.decRefCountAndFree pointer)
        (steps.filterMap CountStep.released ++ [offset])).touchedFreed =
          (current.decRefCountAndFree pointer).touchedFreed := touchedFreed_modifyWords
    have isSameBefore : (cleared dest current (steps.filterMap CountStep.released ++
        [offset])).touchedFreed = current.touchedFreed := touchedFreed_modifyWords
    rw [← isSame, untouched, isSameBefore]
    exact passed.untouched
  · exact lives
  · intro id
    rw [← survives id]
    exact (lives_modifyWords (.object id) dest.owner).symm

theorem passPermitted_concat {step : CountStep} :
    PassPermitted dest src state (steps ++ [step]) ↔
      PassPermitted dest src state steps ∧ StepPermitted dest src state steps step := by
  constructor
  · intro permitted
    constructor
    · intro before other isPrefix
      exact permitted before other (isPrefix.trans (List.prefix_append _ _))
    · exact permitted steps step (List.prefix_refl _)
  · rintro ⟨earlier, last⟩ before other isPrefix
    rcases List.prefix_concat_iff.mp isPrefix with same | isEarlier
    · obtain ⟨rfl, sameStep⟩ := List.append_inj' same rfl
      obtain rfl := List.head_eq_of_cons_eq sameStep
      exact last
    · exact earlier before other isEarlier

/-- A step that is not permitted accesses a freed object or frees the destination. -/
theorem Passed.doomed {step : CountStep} (passed : Passed dest src state steps current)
    (isNew : ∀ offset, step = .decrement offset →
      offset ∉ steps.filterMap CountStep.released ∧
        dest.start + offset < (state.words dest.owner).length)
    (forbidden : ¬ StepPermitted dest src state steps step) :
    Doomed dest state (countStep dest src current step) := by
  cases step with
  | increment offset =>
      left
      by_cases ownerLives : current.Lives src.owner
      · have isPointer : current.pointerAt (src.shift offset) =
            state.pointerAt (src.shift offset) :=
          congrArg (fun word => word.bind Word.target)
            (passed.wordAt_eq (src.shift offset) ownerLives)
        obtain ⟨pointer, found, isFreed⟩ : ∃ pointer,
            state.pointerAt (src.shift offset) = some pointer ∧
              ¬ KeptAfter dest src state steps pointer := by
          by_contra allKept
          push Not at allKept
          exact forbidden ⟨(passed.ownerKept_iff _).mp ownerLives, allKept⟩
        have isStep : countStep dest src current (.increment offset) = current.addRef pointer :=
          addRefPointerField_pointer ownerLives (isPointer.trans found)
        have freed : ¬ (current.heap.cells pointer).isSome = true := fun live =>
          isFreed ((passed.survivors pointer).mp live)
        rw [isStep]
        exact touch_of_freed freed
      · exact touched_addRefPointerField ownerLives
  | decrement offset =>
      right
      obtain ⟨isOther, inside⟩ := isNew offset rfl
      have freed : ¬ (countStep dest src current (.decrement offset)).Lives dest.owner :=
        fun lives => forbidden ((passed.decrement isOther inside).1.mp lives)
      have lives := passed.lives
      cases isOwner : dest.owner with
      | frame =>
          rw [isOwner] at freed
          exact absurd trivial freed
      | object id =>
          rw [isOwner] at freed lives
          obtain ⟨alloc, live⟩ := Option.isSome_iff_exists.mp (passed.shrinks.isSome lives)
          exact ⟨id, Heap.lt_limit live, rfl, Option.not_isSome_iff_eq_none.mp freed⟩
  | access id =>
      left
      have freed : ¬ (current.heap.cells id).isSome = true := fun live =>
        forbidden ((passed.survivors id).mp live)
      exact touch_of_freed freed

theorem countPass_concat (step : CountStep) : countPass dest src state (steps ++ [step]) =
    countStep dest src (countPass dest src state steps) step := by
  unfold countPass
  rw [List.foldl_append]
  rfl

/-- Either all steps are permitted, or a freed object is accessed. -/
theorem countPass_spec (steps : List CountStep) (exact : Exact state)
    (lives : state.Lives dest.owner)
    (once : (steps.filterMap CountStep.released).Nodup)
    (inside : ∀ offset ∈ steps.filterMap CountStep.released,
      dest.start + offset < (state.words dest.owner).length) :
    (PassPermitted dest src state steps ∧
        Passed dest src state steps (countPass dest src state steps)) ∨
      (¬ PassPermitted dest src state steps ∧
        Doomed dest state (countPass dest src state steps)) := by
  induction steps using List.reverseRecOn with
  | nil =>
      left
      refine ⟨fun before step isPrefix => ?_, passed_start exact lives⟩
      have isNil := List.prefix_nil.mp isPrefix
      exact absurd isNil (by simp)
  | append_singleton steps step ih =>
      rw [List.filterMap_append] at once inside
      rw [passPermitted_concat, countPass_concat]
      rcases ih once.of_append_left fun offset member =>
        inside offset (List.mem_append_left _ member) with ⟨earlier, passed⟩ | ⟨earlier, doomed⟩
      · have isNew : ∀ offset, step = .decrement offset →
            offset ∉ steps.filterMap CountStep.released ∧
              dest.start + offset < (state.words dest.owner).length := by
          rintro offset rfl
          have isReleased : [CountStep.decrement offset].filterMap CountStep.released = [offset] :=
            rfl
          rw [isReleased] at once inside
          exact ⟨fun member =>
              List.disjoint_of_nodup_append once member (List.mem_singleton_self _),
            inside offset (by simp)⟩
        by_cases permitted : StepPermitted dest src state steps step
        · left
          refine ⟨⟨earlier, permitted⟩, ?_⟩
          cases step with
          | increment offset => exact passed.increment permitted
          | decrement offset =>
              obtain ⟨isOther, isInside⟩ := isNew offset rfl
              exact (passed.decrement isOther isInside).2 permitted
          | access id => exact passed.access permitted
        · right
          exact ⟨fun both => permitted both.2, passed.doomed isNew permitted⟩
      · right
        refine ⟨fun both => earlier both.1, doomed.later (later_countStep step) ?_⟩
        exact later_countPass.limit

end Pass

section Blocks

variable {dest src : Region} {state : MemoryState} {steps : List CountStep} {offsets : List ℕ}
  {id : ℕ}

theorem incremented_increments :
    (offsets.map CountStep.increment).filterMap CountStep.incremented = offsets := by
  rw [List.filterMap_map]
  exact List.filterMap_some

theorem released_increments :
    (offsets.map CountStep.increment).filterMap CountStep.released = [] := by
  rw [List.filterMap_map, List.filterMap_eq_nil_iff]
  exact fun _ _ => rfl

theorem incremented_decrements :
    (offsets.map CountStep.decrement).filterMap CountStep.incremented = [] := by
  rw [List.filterMap_map, List.filterMap_eq_nil_iff]
  exact fun _ _ => rfl

theorem released_decrements :
    (offsets.map CountStep.decrement).filterMap CountStep.released = offsets := by
  rw [List.filterMap_map]
  exact List.filterMap_some

/-- What is kept after a release was kept before. -/
theorem KeptAfter.before_decrement {offset : ℕ}
    (keeps : KeptAfter dest src state (steps ++ [.decrement offset]) id) :
    KeptAfter dest src state steps id := by
  unfold KeptAfter at keeps ⊢
  rw [released_decrement, gained_decrement, cleared_concat] at keeps
  exact kept_of_modifyWords (fun words => count_targets_clear words _) keeps

theorem KeptAfter.before_decrements
    (keeps : KeptAfter dest src state (steps ++ offsets.map .decrement) id) :
    KeptAfter dest src state steps id := by
  induction offsets using List.reverseRecOn with
  | nil => simpa using keeps
  | append_singleton offsets offset ih =>
      rw [List.map_append, ← List.append_assoc] at keeps
      exact ih keeps.before_decrement

theorem keptAfter_increments (pointersKept : ∀ offset ∈ offsets, ∀ pointer,
      state.pointerAt (src.shift offset) = some pointer →
        KeptAfter dest src state steps pointer) :
    KeptAfter dest src state (steps ++ offsets.map .increment) id ↔
      KeptAfter dest src state steps id := by
  induction offsets using List.reverseRecOn generalizing id with
  | nil => rw [List.map_nil, List.append_nil]
  | append_singleton offsets offset ih =>
      have earlier : ∀ {id : ℕ}, KeptAfter dest src state (steps ++ offsets.map .increment) id ↔
          KeptAfter dest src state steps id :=
        ih fun other member => pointersKept other (List.mem_append_left _ member)
      rw [List.map_append, ← List.append_assoc]
      refine (keptAfter_increment fun pointer found => ?_).trans earlier
      exact earlier.mpr (pointersKept offset (by simp) pointer found)

theorem OwnerKept.imp {before after : List CountStep} {owner : Owner}
    (kept : OwnerKept dest src state after owner)
    (imp : ∀ id, KeptAfter dest src state after id → KeptAfter dest src state before id) :
    OwnerKept dest src state before owner := by
  cases owner with
  | frame => trivial
  | object id => exact imp id kept

theorem passPermitted_nil : PassPermitted dest src state [] := by
  intro before step isPrefix
  have isNil := List.prefix_nil.mp isPrefix
  exact absurd isNil (by simp)

/-- References are added to what is kept, and the source stays. -/
theorem passPermitted_increments :
    (PassPermitted dest src state (steps ++ offsets.map .increment) ∧
        OwnerKept dest src state (steps ++ offsets.map .increment) src.owner) ↔
      PassPermitted dest src state steps ∧ OwnerKept dest src state steps src.owner ∧
        ∀ offset ∈ offsets, ∀ pointer, state.pointerAt (src.shift offset) = some pointer →
          KeptAfter dest src state steps pointer := by
  induction offsets using List.reverseRecOn with
  | nil => simp
  | append_singleton offsets offset ih =>
      rw [List.map_append, ← List.append_assoc, List.map_singleton, passPermitted_concat]
      constructor
      · rintro ⟨⟨earlier, sourceKept, lastKept⟩, _⟩
        obtain ⟨start, sourceStart, pointersKept⟩ := ih.mp ⟨earlier, sourceKept⟩
        refine ⟨start, sourceStart, fun other member pointer found => ?_⟩
        rcases List.mem_append.mp member with isEarlier | isLast
        · exact pointersKept other isEarlier pointer found
        · rw [List.mem_singleton.mp isLast] at found
          exact (keptAfter_increments pointersKept).mp (lastKept pointer found)
      · rintro ⟨start, sourceStart, pointersKept⟩
        have beforeKept : ∀ other ∈ offsets, ∀ pointer,
            state.pointerAt (src.shift other) = some pointer →
              KeptAfter dest src state steps pointer :=
          fun other member => pointersKept other (List.mem_append_left _ member)
        have lastKept : ∀ pointer, state.pointerAt (src.shift offset) = some pointer →
            KeptAfter dest src state (steps ++ offsets.map .increment) pointer :=
          fun pointer found => (keptAfter_increments beforeKept).mpr
            (pointersKept offset (by simp) pointer found)
        obtain ⟨earlier, sourceKept⟩ := ih.mpr ⟨start, sourceStart, beforeKept⟩
        exact ⟨⟨earlier, sourceKept, lastKept⟩,
          sourceKept.imp fun id => (keptAfter_increment lastKept).mpr⟩

theorem keptAfter_start (exact : Exact state) (live : (state.heap.cells id).isSome = true) :
    KeptAfter dest src state [] id := by
  have isState : cleared dest state [] = state := cleared_nil
  unfold KeptAfter
  rw [List.filterMap_nil, isState]
  exact (isSome_iff_kept exact.balanced.sound exact.balanced.positive).mp live

theorem ownerKept_start (exact : Exact state) {owner : Owner} (lives : state.Lives owner) :
    OwnerKept dest src state [] owner := by
  cases owner with
  | frame => trivial
  | object id => exact keptAfter_start exact lives

/-- While references are only added everything is alive. -/
theorem increments_permitted (exact : Exact state) (lives : state.Lives src.owner) :
    PassPermitted dest src state (offsets.map .increment) := by
  have pointersKept : ∀ offset ∈ offsets, ∀ pointer,
      state.pointerAt (src.shift offset) = some pointer →
        KeptAfter dest src state [] pointer :=
    fun offset _ pointer found => keptAfter_start exact
      (exact.balanced.isSome_of_words src.owner
        (mem_targets_of_pointerAt (src.shift offset) found))
  have permitted := passPermitted_increments.mpr
    ⟨passPermitted_nil, ownerKept_start exact lives, pointersKept⟩
  rw [List.nil_append] at permitted
  exact permitted.1

/-- Steps that are permitted leave the destination. -/
theorem PassPermitted.destKept (exact : Exact state) (lives : state.Lives dest.owner)
    (permitted : PassPermitted dest src state steps) :
    OwnerKept dest src state steps dest.owner := by
  induction steps using List.reverseRecOn with
  | nil => exact ownerKept_start exact lives
  | append_singleton steps step ih =>
      obtain ⟨earlier, last⟩ := passPermitted_concat.mp permitted
      cases step with
      | increment offset => exact (ih earlier).imp fun id => (keptAfter_increment last.2).mpr
      | decrement offset => exact last
      | access id => exact (ih earlier).imp fun id => keptAfter_access.mpr

/-- Releases are permitted as long as they leave the destination. -/
theorem passPermitted_decrements (exact : Exact state) (lives : state.Lives dest.owner) :
    PassPermitted dest src state (steps ++ offsets.map .decrement) ↔
      PassPermitted dest src state steps ∧
        OwnerKept dest src state (steps ++ offsets.map .decrement) dest.owner := by
  induction offsets using List.reverseRecOn with
  | nil =>
      rw [List.map_nil, List.append_nil]
      exact (and_iff_left_of_imp (PassPermitted.destKept exact lives)).symm
  | append_singleton offsets offset ih =>
      rw [List.map_append, ← List.append_assoc, List.map_singleton, passPermitted_concat, ih]
      constructor
      · rintro ⟨⟨earlier, _⟩, last⟩
        exact ⟨earlier, last⟩
      · rintro ⟨earlier, last⟩
        exact ⟨⟨earlier, last.imp fun id => KeptAfter.before_decrement⟩, last⟩

end Blocks

section Move

variable {dest src : Region} {state current : MemoryState} {steps : List CountStep} {count : ℕ}

theorem targets_read (words : List Word) (start count : ℕ) :
    targets ((words.drop start).take count) =
      (List.range count).filterMap fun offset => words[start + offset]?.bind Word.target := by
  induction count with
  | zero => rfl
  | succ count ih =>
      rw [List.take_add_one, targets_append, ih, List.range_succ, List.filterMap_append,
        List.getElem?_drop]
      congr 1
      rw [List.filterMap_cons, List.filterMap_nil]
      cases words[start + count]? with
      | none => rfl
      | some word => cases word with
        | data value => rfl
        | pointer target => cases target <;> rfl

theorem mem_targets_read {id : ℕ} : id ∈ targets (state.read src count) ↔
    ∃ offset < count, state.pointerAt (src.shift offset) = some id := by
  unfold MemoryState.read
  rw [targets_read, List.mem_filterMap]
  simp only [List.mem_range]
  rfl

/-- Offsets with nothing to be found do not count. -/
theorem count_filterMap_offsets {offsets : List ℕ} {find : ℕ → Option ℕ}
    (once : offsets.Nodup) (inside : ∀ offset ∈ offsets, offset < count)
    (all : ∀ offset < count, find offset ≠ none → offset ∈ offsets) (id : ℕ) :
    (offsets.filterMap find).count id = ((List.range count).filterMap find).count id := by
  have same : offsets.Perm ((List.range count).filter (· ∈ offsets)) := by
    apply (List.perm_ext_iff_of_nodup once (List.nodup_range.filter _)).mpr
    intro offset
    simp only [List.mem_filter, List.mem_range, decide_eq_true_eq]
    exact ⟨fun member => ⟨inside offset member, member⟩, fun both => both.2⟩
  rw [(same.filterMap find).count_eq, List.filterMap_filter]
  congr 1
  apply List.filterMap_congr
  intro offset isInside
  by_cases member : offset ∈ offsets
  · simp only [member, decide_true, if_true]
  · simp only [member, decide_false, Bool.false_eq_true, if_false]
    by_contra isFound
    exact member (all offset (List.mem_range.mp isInside) fun isNone => isFound isNone.symm)

theorem Covers.gained_eq (covers : Covers dest src state count steps) (id : ℕ) :
    gained src state steps id = (targets (state.read src count)).count id := by
  unfold MemoryState.read
  rw [targets_read]
  exact count_filterMap_offsets covers.incrementedOnce covers.incrementedInside covers.source id

theorem Covers.read_cleared (covers : Covers dest src state count steps) :
    targets (((clearWords dest.start (steps.filterMap CountStep.released)
      (state.words dest.owner)).drop dest.start).take count) = [] := by
  rw [targets_read, List.filterMap_eq_nil_iff]
  intro offset inside
  by_cases member : offset ∈ steps.filterMap CountStep.released
  · exact clearWords_member member
  · rw [clearWords_other fun other isMember same => member (by
      rwa [← Nat.add_left_cancel same])]
    by_contra isPointer
    exact member (covers.dest offset (List.mem_range.mp inside) isPointer)

theorem read_length (inside : src.start + count ≤ (state.words src.owner).length) :
    (state.read src count).length = count := by
  unfold MemoryState.read
  rw [List.length_take, List.length_drop]
  omega

theorem Passed.memmove (passed : Passed dest src state steps current)
    (covers : Covers dest src state count steps) (sourceLives : current.Lives src.owner) :
    Exact (current.memmove dest src count) ∧
      (current.memmove dest src count).read dest count = state.read src count := by
  obtain ⟨values, isValues⟩ : ∃ values, state.read src count = values := ⟨_, rfl⟩
  have length : values.length = count := by
    rw [← isValues]
    exact read_length covers.sourceInside
  have isMove : current.memmove dest src count = current.write dest values := by
    have isRead : current.read src count = state.read src count := by
      unfold MemoryState.read
      rw [words_of_shrinks passed.shrinks passed.frames sourceLives]
    unfold MemoryState.memmove
    rw [touchOwner_of_lives sourceLives, touchOwner_of_lives passed.lives, isRead, isValues]
  have isWords := words_of_shrinks passed.shrinks passed.frames passed.lives
  have inside : dest.start + values.length ≤ (current.words dest.owner).length := by
    rw [isWords, length]
    exact covers.destInside
  have isCleared : current.write dest values =
      (cleared dest current (steps.filterMap CountStep.released)).write dest values := by
    unfold MemoryState.write cleared
    rw [modifyWords_modifyWords]
    apply modifyWords_congr
    apply Eq.symm
    apply overwrite_clearWords
    intro offset member
    rw [length]
    exact covers.releasedInside offset member
  rw [isMove]
  refine ⟨⟨?_, ?_⟩, ?_⟩
  · rw [isCleared]
    refine passed.balanced.modifyWords dest.owner
      ((lives_modifyWords _ dest.owner).mpr passed.lives) fun target => ?_
    have written := count_targets_overwrite (clearWords dest.start
      (steps.filterMap CountStep.released) (state.words dest.owner)) dest.start values target
    rw [length, covers.read_cleared, List.count_nil] at written
    rw [cleared, words_modifyWords passed.lives, isWords, covers.gained_eq, isValues]
    omega
  · unfold MemoryState.write
    rw [touchedFreed_modifyWords]
    exact passed.untouched
  · rw [isValues, ← length]
    unfold MemoryState.write MemoryState.read
    rw [words_modifyWords passed.lives]
    exact read_overwrite inside

/-- The move leaves exact counts and the words of the source, or accesses a freed object. -/
theorem move_exact_iff (exact : Exact state) (covers : Covers dest src state count steps) :
    Exact ((countPass dest src state steps).memmove dest src count) ∧
        ((countPass dest src state steps).memmove dest src count).read dest count =
          state.read src count ↔
      PassPermitted dest src state steps ∧ OwnerKept dest src state steps src.owner := by
  have destInside : ∀ offset ∈ steps.filterMap CountStep.released,
      dest.start + offset < (state.words dest.owner).length := by
    intro offset member
    have isInside := covers.releasedInside offset member
    have bound := covers.destInside
    omega
  rcases countPass_spec steps exact covers.destLives covers.releasedOnce destInside with
    ⟨permitted, passed⟩ | ⟨forbidden, doomed⟩
  · constructor
    · rintro ⟨after, _⟩
      refine ⟨permitted, (passed.ownerKept_iff src.owner).mp ?_⟩
      by_contra freed
      have touched := ((later_touchOwner dest.owner).trans (later_modifyWords dest.owner
        fun words => overwrite words dest.start
          ((countPass dest src state steps).read src count))).touched (touchOwner_of_freed freed)
      exact touched after.untouched
    · rintro ⟨_, sourceKept⟩
      exact passed.memmove covers ((passed.ownerKept_iff src.owner).mpr sourceKept)
  · constructor
    · rintro ⟨after, _⟩
      have touched : ((countPass dest src state steps).memmove dest src count).touchedFreed ≠
          [] := by
        apply (later_modifyWords dest.owner _).touched
        rcases doomed with touched | ⟨id, _, isOwner, freed⟩
        · exact ((later_touchOwner src.owner).trans (later_touchOwner dest.owner)).touched touched
        · apply touchOwner_of_freed
          rw [isOwner, lives_object, touchOwner_heap, freed]
          exact Bool.false_ne_true
      exact absurd after.untouched touched
    · rintro ⟨permitted, _⟩
      exact absurd permitted forbidden

end Move

end Disvm.ObjectMemory
