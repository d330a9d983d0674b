import Disvm.CollectorMarking

/-!
# When marking is complete

A mark phase that meets the module data of a module without data ends the
process.  Otherwise it ends, and what it leaves uncoloured is what it reaches
only through a container or through an allocation that already had the colour.
-/

namespace Disvm.GarbageCollector

open RefCounting GcState

variable {mutators : ℕ}

/-- A fold that only adds members adds those of its items. -/
theorem foldlM_members {Item Entry : Type*} {advance : List Entry → Item → Option (List Entry)}
    {adds : Item → Entry → Prop} {items : List Item} (start : List Entry)
    (added : ∀ state, ∀ item ∈ items, ∃ next, advance state item = some next ∧
      ∀ entry, entry ∈ next ↔ entry ∈ state ∨ adds item entry) :
    ∃ last, items.foldlM advance start = some last ∧
      ∀ entry, entry ∈ last ↔ entry ∈ start ∨ ∃ item ∈ items, adds item entry := by
  induction items generalizing start with
  | nil => exact ⟨start, rfl, by simp⟩
  | cons item items ih =>
      obtain ⟨next, advanced, first⟩ := added start item List.mem_cons_self
      obtain ⟨last, folded, rest⟩ := ih next fun state other member =>
        added state other (List.mem_cons_of_mem item member)
      refine ⟨last, ?_, fun entry => ?_⟩
      · rw [List.foldlM_cons, advanced]
        exact folded
      · rw [rest entry, first entry, or_assoc]
        simp only [List.mem_cons, exists_eq_or_imp]

section Roots

variable {heap : VmHeap} {threads : List ThreadRoots} {thread : ThreadRoots}

theorem mem_pointers {pointer : Option ℕ} :
    pointer ∈ thread.pointers ↔
      pointer ∈ thread.moduleData ∨ pointer ∈ thread.framePointers := by
  simp only [ThreadRoots.pointers, ThreadRoots.moduleData, ThreadRoots.framePointers,
    List.mem_cons, List.mem_flatMap, List.mem_append]
  constructor
  · rintro (isBase | ⟨frame, member, saved | inFrame⟩)
    · exact Or.inl (Or.inl isBase)
    · exact Or.inl (Or.inr ⟨frame, member, saved⟩)
    · exact Or.inr ⟨frame, member, inFrame⟩
  · rintro ((isBase | ⟨frame, member, saved⟩) | ⟨frame, member, inFrame⟩)
    · exact Or.inl isBase
    · exact Or.inr ⟨frame, member, Or.inl saved⟩
    · exact Or.inr ⟨frame, member, Or.inr inFrame⟩

theorem markThread_members (colour : GcColour) (stack : MarkStack)
    (live : ∀ pointer ∈ thread.pointers, Live heap pointer) :
    ∃ pushed, markThread heap colour stack thread = some pushed ∧
      ∀ entry, entry ∈ pushed ↔ entry ∈ stack ∨ entry ∈ thread.moduleData ∨
        entry ∈ thread.framePointers ∧ pushes heap colour entry = true := by
  have frames : ∀ state, ∀ frame ∈ thread.frames,
      ∃ next, markFrame heap colour state frame = some next ∧
        ∀ entry, entry ∈ next ↔ entry ∈ state ∨ (entry ∈ frame.prevModuleData.toList ∨
          entry ∈ frame.pointers ∧ pushes heap colour entry = true) := by
    intro state frame member
    refine ⟨_, markPointerFields_eq colour _ fun pointer inFields => live pointer
      (List.mem_cons_of_mem _ (List.mem_flatMap.mpr
        ⟨frame, member, List.mem_append_right _ inFields⟩)), fun entry => ?_⟩
    simp only [List.mem_append, List.mem_reverse, List.mem_filter]
    tauto
  obtain ⟨pushed, folded, members⟩ := foldlM_members (thread.mpBase :: stack) frames
  refine ⟨pushed, folded, fun entry => ?_⟩
  rw [members entry]
  simp only [ThreadRoots.moduleData, ThreadRoots.framePointers, List.mem_cons,
    List.mem_flatMap]
  constructor
  · rintro ((isBase | below) | ⟨frame, member, saved | ⟨inFrame, uncoloured⟩⟩)
    · exact Or.inr (Or.inl (Or.inl isBase))
    · exact Or.inl below
    · exact Or.inr (Or.inl (Or.inr ⟨frame, member, saved⟩))
    · exact Or.inr (Or.inr ⟨⟨frame, member, inFrame⟩, uncoloured⟩)
  · rintro (below | (isBase | ⟨frame, member, saved⟩) | ⟨⟨frame, member, inFrame⟩, uncoloured⟩)
    · exact Or.inl (Or.inr below)
    · exact Or.inl (Or.inl isBase)
    · exact Or.inr ⟨frame, member, Or.inl saved⟩
    · exact Or.inr ⟨frame, member, Or.inr ⟨inFrame, uncoloured⟩⟩

theorem markThreads_members (colour : GcColour)
    (live : ∀ thread ∈ threads, ∀ pointer ∈ thread.pointers, Live heap pointer) :
    ∃ pushed, markThreads heap colour threads = some pushed ∧
      ∀ entry, entry ∈ pushed ↔ ∃ thread ∈ threads, entry ∈ thread.moduleData ∨
        entry ∈ thread.framePointers ∧ pushes heap colour entry = true := by
  have added := fun (state : MarkStack) thread (member : thread ∈ threads) =>
    markThread_members colour state (live thread member)
  obtain ⟨pushed, folded, members⟩ := foldlM_members ([] : MarkStack) added
  exact ⟨pushed, folded, fun entry => by rw [members entry]; simp⟩

/-- The traversal starts with the roots when no module data is absent. -/
theorem traversal_start {colour : GcColour} {pushed : MarkStack}
    (live : ∀ thread ∈ threads, ∀ pointer ∈ thread.pointers, Live heap pointer)
    (members : ∀ entry, entry ∈ pushed ↔ ∃ thread ∈ threads, entry ∈ thread.moduleData ∨
      entry ∈ thread.framePointers ∧ pushes heap colour entry = true)
    (data : ∀ thread ∈ threads, none ∉ thread.moduleData) :
    Traversal heap colour threads ∅ pushed heap where
  coloured := ⟨rfl, fun id => by cases heap.cells id <;> simp⟩
  noNull := by
    intro isNull
    obtain ⟨thread, member, isData | ⟨-, isPushed⟩⟩ := (members none).mp isNull
    · exact data thread member isData
    · cases isPushed
  stackLive entry inStack := by
    obtain ⟨thread, member, isData | ⟨inFrame, -⟩⟩ := (members entry).mp inStack
    · exact live thread member entry (mem_pointers.mpr (Or.inl isData))
    · exact live thread member entry (mem_pointers.mpr (Or.inr inFrame))
  doneLive := by simp
  stackVisited id inStack := by
    obtain ⟨thread, member, isData | ⟨inFrame, isPushed⟩⟩ := (members (some id)).mp inStack
    · exact .moduleData thread member id isData
    · exact .framePointer thread member id inFrame (pushes_some.mp isPushed)
  doneVisited := by simp
  moduleData thread member id isData :=
    Or.inr ((members (some id)).mpr ⟨thread, member, Or.inl isData⟩)
  framePointers thread member id inFrame uncoloured :=
    Or.inr ((members (some id)).mpr
      ⟨thread, member, Or.inr ⟨inFrame, pushes_some.mpr uncoloured⟩⟩)
  fields := by simp
  deep := by simp

/-- When nothing is left on the stack, what was to be visited has been. -/
theorem Traversal.done_iff_visited {colour : GcColour} {done : Finset ℕ} {current : VmHeap}
    (traversal : Traversal heap colour threads done [] current) (id : ℕ) :
    id ∈ done ↔ Visited heap colour threads id := by
  constructor
  · exact traversal.doneVisited id
  · intro visited
    induction visited with
    | moduleData thread member id isData =>
        exact (traversal.moduleData thread member id isData).resolve_right List.not_mem_nil
    | framePointer thread member id inFrame uncoloured =>
        exact (traversal.framePointers thread member id inFrame uncoloured).resolve_right
          List.not_mem_nil
    | field source target _ points ih =>
        exact (traversal.fields source ih target points).resolve_right List.not_mem_nil

end Roots

section Mark

variable {state marking : GcState mutators} {threads : List ThreadRoots}

theorem closed_of_safe (safe : Safe state) : Closed state.heap := by
  rintro id alloc live _ member target rfl
  exact Option.isSome_iff_exists.mpr
    (safe.sound.live_of_refs live (List.reduceOption_mem_iff.mpr member))

/-- What starting a collection that has something to do requires and gives. -/
theorem startCollect_cases (safe : Safe state) (nonempty : state.trackingAllocs ≠ [])
    (started : state.step (.startCollect threads) = some marking) :
    (∀ thread ∈ threads, ∀ pointer ∈ thread.pointers, Live state.heap pointer) ∧
    ∃ pushed, marking = state.popped state.heap pushed ∧
      ∀ entry, entry ∈ pushed ↔ ∃ thread ∈ threads, entry ∈ thread.moduleData ∨
        entry ∈ thread.framePointers ∧
          pushes state.heap (getCurrentColour state.collectionEpoch) entry = true := by
  simp only [step, Option.ite_none_right_eq_some, Option.some.injEq] at started
  obtain ⟨⟨-, -, referenced⟩, rfl⟩ := started
  have live : ∀ thread ∈ threads, ∀ pointer ∈ thread.pointers, Live state.heap pointer := by
    intro thread member
    refine live_of_mem_reduceOption fun id designated => ?_
    exact Option.isSome_iff_exists.mpr
      (safe.live_of_references (referenced thread member id designated))
  obtain ⟨pushed, marked, members⟩ :=
    markThreads_members (getCurrentColour state.collectionEpoch) live
  refine ⟨live, pushed, ?_, members⟩
  rw [GcState.startCollect, if_neg nonempty, marked]
  rfl

/-- With module data everywhere the mark phase ends, having coloured exactly
what it visits. -/
theorem mark_ends (safe : Safe state) (nonempty : state.trackingAllocs ≠ [])
    (started : state.step (.startCollect threads) = some marking)
    (data : ∀ thread ∈ threads, none ∉ thread.moduleData) :
    ∃ heap done, Relation.ReflTransGen CollectorStep marking (state.popped heap []) ∧
      Coloured state.heap (getCurrentColour state.collectionEpoch) done heap ∧
      ∀ id, id ∈ done ↔
        Visited state.heap (getCurrentColour state.collectionEpoch) threads id := by
  obtain ⟨live, pushed, rfl, members⟩ := startCollect_cases safe nonempty started
  obtain ⟨heap, done, path, ended⟩ := mark_finishes (closed_of_safe safe)
    (show (state.popped state.heap pushed).phase = .marking pushed from rfl)
    (traversal_start live members data) rfl
  exact ⟨heap, done, path, ended.coloured, ended.done_iff_visited⟩

/-- The end of the mark phase is out of reach. -/
def MeetsNull (state : GcState mutators) : Prop :=
  state.phase = .crashed ∨ ∃ stack, state.phase = .marking stack ∧ none ∈ stack

theorem markPointerFields_suffix {heap : VmHeap} {colour : GcColour}
    {fields stack pushed : MarkStack}
    (marked : markPointerFields heap colour stack fields = some pushed) :
    ∀ entry ∈ stack, entry ∈ pushed := by
  induction fields generalizing stack with
  | nil =>
      cases marked
      exact fun _ member => member
  | cons field fields ih =>
      rw [markPointerFields, List.foldlM_cons] at marked
      obtain ⟨next, first, rest⟩ := Option.bind_eq_some_iff.mp marked
      have kept : ∀ entry ∈ stack, entry ∈ next := by
        intro entry member
        cases field with
        | none =>
            cases first
            exact member
        | some id =>
            simp only [markPointerMaybe] at first
            split at first
            · cases first
            · cases first
              split
              · exact List.mem_cons_of_mem _ member
              · exact member
      exact fun entry member => ih rest entry (kept entry member)

theorem meetsNull_step {before after : GcState mutators} (meets : MeetsNull before)
    (stepped : CollectorStep before after) : MeetsNull after := by
  obtain crashed | ⟨stack, isMarking, member⟩ := meets
  · simp [CollectorStep, collectNext, crashed] at stepped
  · cases stack with
    | nil => cases member
    | cons current stack =>
        simp only [CollectorStep, collectNext, isMarking, Option.some.injEq] at stepped
        subst stepped
        cases current with
        | none => exact Or.inl rfl
        | some id =>
            have below : none ∈ stack := by simpa using member
            simp only [markNext]
            split
            · exact Or.inr ⟨_, isMarking, member⟩
            · split
              · exact Or.inr ⟨_, isMarking, member⟩
              · rename_i marked
                exact Or.inr ⟨_, rfl, markPointerFields_suffix marked none below⟩

theorem meetsNull_run {before after : GcState mutators} (meets : MeetsNull before)
    (run : Relation.ReflTransGen CollectorStep before after) : MeetsNull after := by
  induction run with
  | refl => exact meets
  | tail _ stepped ih => exact meetsNull_step ih stepped

/-- The mark phase is over. -/
def Marked (state : GcState mutators) : Prop :=
  ∀ stack, state.phase ≠ .marking stack

theorem marked_step {before after : GcState mutators} (marked : Marked before)
    (stepped : CollectorStep before after) : Marked after := by
  unfold CollectorStep collectNext at stepped
  cases phase : before.phase with
  | idle | crashed => simp [phase] at stepped
  | marking stack => exact absurd phase (marked stack)
  | sweeping kept remaining releasing =>
      have kept : ∀ stack, before.touchFreed.phase ≠ .marking stack := marked
      cases releasing with
      | cons id rest =>
          simp only [phase, Option.some.injEq, sweepRelease] at stepped
          subst stepped
          split
          · exact kept
          · simp [Marked]
      | nil =>
          cases remaining with
          | cons id remaining =>
              simp only [phase, Option.some.injEq, sweepNext] at stepped
              subst stepped
              split
              · exact kept
              · split <;> simp [Marked]
          | nil =>
              simp only [phase, Option.some.injEq, endCollect] at stepped
              subst stepped
              simp [Marked]

theorem marked_run {before after : GcState mutators} (marked : Marked before)
    (run : Relation.ReflTransGen CollectorStep before after) : Marked after := by
  induction run with
  | refl => exact marked
  | tail _ stepped ih => exact marked_step ih stepped

theorem collectorStep_unique :
    Relator.RightUnique (fun before after : GcState mutators => CollectorStep before after) := by
  intro before first second one two
  exact Option.some.inj (one.symm.trans two)

/-- A collection has one end of its mark phase. -/
theorem eq_of_marking_nil {first second : GcState mutators}
    (one : Relation.ReflTransGen CollectorStep marking first)
    (two : Relation.ReflTransGen CollectorStep marking second)
    (firstEnds : first.phase = .marking []) (secondEnds : second.phase = .marking []) :
    first = second := by
  have same : ∀ {early late : GcState mutators}, early.phase = .marking [] →
      late.phase = .marking [] → Relation.ReflTransGen CollectorStep early late →
        early = late := by
    intro early late earlyEnds lateEnds run
    obtain rfl | ⟨next, stepped, rest⟩ := Relation.ReflTransGen.cases_head run
    · rfl
    · simp only [CollectorStep, collectNext, earlyEnds, Option.some.injEq] at stepped
      subst stepped
      exact absurd lateEnds (marked_run (by simp [Marked]) rest _)
  rcases Relation.ReflTransGen.total_of_right_unique collectorStep_unique one two with
    run | run
  · exact same firstEnds secondEnds run
  · exact (same secondEnds firstEnds run).symm

end Mark

/-- Reachable through counted pointers of every kind of allocation, from what
the frames and the current and saved module data of the threads designate. -/
inductive FromThreads (heap : VmHeap) (threads : List ThreadRoots) : ℕ → Prop
  | root (thread : ThreadRoots) (member : thread ∈ threads) (id : ℕ)
      (designated : some id ∈ thread.pointers) : FromThreads heap threads id
  | pointer (source target : ℕ) (alloc : VmAlloc) (reached : FromThreads heap threads source)
      (live : heap.cells source = some alloc) (member : target ∈ alloc.pointers) :
      FromThreads heap threads target

/-- The mark phase of a collection ends, with all tracked allocations coloured
that the threads reach.  A mark phase that dereferences null does not end, and
a collection with nothing tracked has none. -/
def MarksAll (state marking : GcState mutators) (threads : List ThreadRoots) : Prop :=
  state.trackingAllocs = [] ∨
  ∃ marked, Relation.ReflTransGen CollectorStep marking marked ∧ marked.phase = .marking [] ∧
    ∀ id ∈ marked.tracked, FromThreads state.heap threads id →
      ∃ alloc, marked.heap.cells id = some alloc ∧
        alloc.gcColour = getCurrentColour marked.collectionEpoch

section Completeness

variable {state marking : GcState mutators} {threads : List ThreadRoots}

/-- Null module data stays on the stack until it ends the process. -/
theorem data_of_mark_ends (safe : Safe state) (nonempty : state.trackingAllocs ≠ [])
    (started : state.step (.startCollect threads) = some marking) {marked : GcState mutators}
    (run : Relation.ReflTransGen CollectorStep marking marked)
    (ended : marked.phase = .marking []) :
    ∀ thread ∈ threads, none ∉ thread.moduleData := by
  intro thread member isNull
  obtain ⟨-, pushed, rfl, members⟩ := startCollect_cases safe nonempty started
  have meets := meetsNull_run
    (Or.inr ⟨pushed, rfl, (members none).mpr ⟨thread, member, Or.inl isNull⟩⟩) run
  rcases meets with crashed | ⟨stack, isMarking, isMember⟩
  · rw [crashed] at ended
    cases ended
  · rw [ended] at isMarking
    cases isMarking
    cases isMember

/-- The colour of an allocation when the mark phase ends. -/
theorem coloured_iff_visited (safe : Safe state) (nonempty : state.trackingAllocs ≠ [])
    (started : state.step (.startCollect threads) = some marking) {marked : GcState mutators}
    (run : Relation.ReflTransGen CollectorStep marking marked)
    (ended : marked.phase = .marking []) {id : ℕ}
    (uncoloured : Uncoloured state.heap (getCurrentColour state.collectionEpoch) id) :
    (∃ alloc, marked.heap.cells id = some alloc ∧
        alloc.gcColour = getCurrentColour marked.collectionEpoch) ↔
      Visited state.heap (getCurrentColour state.collectionEpoch) threads id := by
  obtain ⟨heap, done, path, coloured, visited⟩ := mark_ends safe nonempty started
    (data_of_mark_ends safe nonempty started run ended)
  cases eq_of_marking_nil run path ended rfl
  obtain ⟨earlier, live, other⟩ := uncoloured
  have cell := coloured.2 id
  rw [live, Option.map_some] at cell
  constructor
  · rintro ⟨alloc, found, isCurrent⟩
    by_contra notVisited
    rw [if_neg fun isDone => notVisited ((visited id).mp isDone)] at cell
    cases found.symm.trans cell
    exact other isCurrent
  · intro isVisited
    rw [if_pos ((visited id).mpr isVisited)] at cell
    exact ⟨_, cell, rfl⟩

/-- Marking is complete exactly when no module reference of the threads lacks
module data and every tracked allocation that they reach has the colour already
or is visited through pointer maps of allocations without it. -/
theorem marks_all_iff (reached : Reached state)
    (started : state.step (.startCollect threads) = some marking) :
    MarksAll state marking threads ↔
      state.trackingAllocs = [] ∨
      (∀ thread ∈ threads, none ∉ thread.moduleData) ∧
      ∀ id ∈ state.trackingAllocs, FromThreads state.heap threads id →
        Uncoloured state.heap (getCurrentColour state.collectionEpoch) id →
          Visited state.heap (getCurrentColour state.collectionEpoch) threads id := by
  have safe := safe_of_reached reached
  have idle : state.phase = .idle := by
    simp only [step, Option.ite_none_right_eq_some] at started
    exact started.1.1
  by_cases nonempty : state.trackingAllocs = []
  · exact ⟨fun _ => Or.inl nonempty, fun _ => Or.inl nonempty⟩
  simp only [MarksAll, nonempty, false_or]
  constructor
  · rintro ⟨marked, run, ended, complete⟩
    have data := data_of_mark_ends safe nonempty started run ended
    refine ⟨data, fun id isTracked fromThreads uncoloured => ?_⟩
    refine (coloured_iff_visited safe nonempty started run ended uncoloured).mp
      (complete id ?_ fromThreads)
    obtain ⟨heap, done, path, -, -⟩ := mark_ends safe nonempty started data
    cases eq_of_marking_nil run path ended rfl
    exact isTracked
  · rintro ⟨data, seen⟩
    obtain ⟨heap, done, path, coloured, -⟩ := mark_ends safe nonempty started data
    refine ⟨_, path, rfl, fun id isTracked fromThreads => ?_⟩
    have inTracked : id ∈ state.tracked := by
      rw [tracked, idle]
      exact isTracked
    obtain ⟨alloc, live⟩ := safe.live_of_tracked inTracked
    by_cases uncoloured : alloc.gcColour = getCurrentColour state.collectionEpoch
    · refine ⟨_, (coloured.2 id).trans (congrArg _ live), ?_⟩
      dsimp only
      split
      · rfl
      · exact uncoloured
    · have isUncoloured : Uncoloured state.heap (getCurrentColour state.collectionEpoch) id :=
        ⟨alloc, live, uncoloured⟩
      exact (coloured_iff_visited safe nonempty started path rfl isUncoloured).mpr
        (seen id isTracked fromThreads isUncoloured)

end Completeness

/-- Two ADTs, the second tracked in an earlier epoch and in a list. -/
def adtInList : List (Action 1) :=
  [Mutation.allocate .adt 0, .allocate .list 1, .allocate .adt 0, .trackAllocation 2,
    .addRef 2, .swapSlot 1 0 (some 2)].map solely ++
  [.startCollect [], .collectNext, .collectNext, .collectNext]

/-- A thread with module data and one pointer in its frame. -/
def holder (pointer : ℕ) : ThreadRoots where
  mpBase := some 0
  frames := [{ prevModuleData := none, pointers := [some pointer] }]

theorem marks_all_frame :
    ∃ state marking : GcState 1, state.step (.startCollect [holder 2]) = some marking ∧
      MarksAll state marking [holder 2] := by
  let state := (Transition.execute step init adtInList).get (by decide)
  let marking := (state.step (.startCollect [holder 2])).get (by decide)
  have reached : Reached state := reached_of_replay (Option.some_get _).symm
  have started : state.step (.startCollect [holder 2]) = some marking :=
    (Option.some_get _).symm
  have adt : ∀ id ∈ state.trackingAllocs, some id ∈ (holder 2).framePointers := by decide
  have data : ∀ thread ∈ [holder 2], none ∉ thread.moduleData := by decide
  have marks := (marks_all_iff reached started).mpr (Or.inr ⟨data, fun id isTracked _ isWhite =>
    .framePointer (holder 2) List.mem_cons_self id (adt id isTracked) isWhite⟩)
  exact ⟨state, marking, started, marks⟩

/-- Steps of the collector alone make a run of the collector. -/
theorem collectorRun_of_execute {state after : GcState mutators} (count : ℕ)
    (replayed : Transition.execute step state (List.replicate count .collectNext) = some after) :
    Relation.ReflTransGen CollectorStep state after := by
  induction count generalizing state with
  | zero =>
      cases replayed
      exact .refl
  | succ count ih =>
      rw [List.replicate_succ, Transition.execute] at replayed
      obtain ⟨next, stepped, rest⟩ := Option.bind_eq_some_iff.mp replayed
      exact (ih rest).head stepped

theorem element_of_list_not_marked :
    ∃ state marking : GcState 1, Reached state ∧
      state.step (.startCollect [holder 1]) = some marking ∧
      ¬ MarksAll state marking [holder 1] := by
  let state := (Transition.execute step init adtInList).get (by decide)
  let marking := (state.step (.startCollect [holder 1])).get (by decide)
  let marked := (Transition.execute step marking (List.replicate 2 .collectNext)).get (by decide)
  have reached : Reached state := reached_of_replay (Option.some_get _).symm
  have started : state.step (.startCollect [holder 1]) = some marking :=
    (Option.some_get _).symm
  suffices incomplete : ¬ MarksAll state marking [holder 1] from
    ⟨state, marking, reached, started, incomplete⟩
  have run : Relation.ReflTransGen CollectorStep marking marked :=
    collectorRun_of_execute 2 (Option.some_get _).symm
  rintro (empty | ⟨later, path, ended, complete⟩)
  · exact absurd empty (by decide)
  · have list : FromThreads state.heap [holder 1] 1 :=
      .root (holder 1) List.mem_cons_self 1 (by decide)
    have adt : FromThreads state.heap [holder 1] 2 :=
      .pointer 1 2 ((state.heap.cells 1).get (by decide)) list (Option.some_get _).symm
        (by decide)
    have same : later = marked := eq_of_marking_nil path run ended (by decide)
    rw [same] at complete
    obtain ⟨alloc, found, isCurrent⟩ := complete 2 (by decide) adt
    have colour : (marked.heap.cells 2).map VmAlloc.gcColour =
        some (getCurrentColour marked.collectionEpoch) := by
      rw [found, Option.map_some, isCurrent]
    exact absurd colour (by decide)

end Disvm.GarbageCollector
