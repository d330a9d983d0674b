import Disvm.CollectorSafety

/-!
# What the mark phase colours

The traversal pushes module data whatever its colour, and every other pointer
only while its allocation does not have the current colour; it follows pointer
maps.  It ends, and colours exactly the allocations that such a path visits.
-/

namespace Disvm.GarbageCollector

open RefCounting GcState

variable {mutators : ℕ}

/-- The allocation is in the heap and does not have the colour. -/
def Uncoloured (heap : VmHeap) (colour : GcColour) (id : ℕ) : Prop :=
  ∃ alloc, heap.cells id = some alloc ∧ alloc.gcColour ≠ colour

/-- A mapped field of the first allocation designates the second, which does not
have the colour. -/
def Points (heap : VmHeap) (colour : GcColour) (source target : ℕ) : Prop :=
  (∃ alloc, heap.cells source = some alloc ∧ some target ∈ alloc.mappedFields) ∧
    Uncoloured heap colour target

/-- Pointers that a thread pushes whatever their colour. -/
def ThreadRoots.moduleData (thread : ThreadRoots) : List (Option ℕ) :=
  thread.mpBase :: thread.frames.flatMap fun frame => frame.prevModuleData.toList

/-- Pointers that a thread pushes unless they have the colour. -/
def ThreadRoots.framePointers (thread : ThreadRoots) : List (Option ℕ) :=
  thread.frames.flatMap FrameRoots.pointers

/-- The allocations that the traversal visits. -/
inductive Visited (heap : VmHeap) (colour : GcColour) (threads : List ThreadRoots) : ℕ → Prop
  | moduleData (thread : ThreadRoots) (member : thread ∈ threads) (id : ℕ)
      (pushed : some id ∈ thread.moduleData) : Visited heap colour threads id
  | framePointer (thread : ThreadRoots) (member : thread ∈ threads) (id : ℕ)
      (inFrame : some id ∈ thread.framePointers)
      (uncoloured : Uncoloured heap colour id) : Visited heap colour threads id
  | field (source target : ℕ) (visited : Visited heap colour threads source)
      (points : Points heap colour source target) : Visited heap colour threads target

/-- Whether `mark_pointer_maybe` pushes a pointer. -/
def pushes (heap : VmHeap) (colour : GcColour) : Option ℕ → Bool
  | none => false
  | some id =>
      match heap.cells id with
      | none => false
      | some alloc => alloc.gcColour ≠ colour

theorem pushes_some {heap : VmHeap} {colour : GcColour} {id : ℕ} :
    pushes heap colour (some id) = true ↔ Uncoloured heap colour id := by
  unfold pushes Uncoloured
  cases found : heap.cells id with
  | none => simp [found]
  | some alloc => simp [found]

theorem markPointerFields_eq {heap : VmHeap} {fields : List (Option ℕ)}
    (colour : GcColour) (stack : MarkStack) (live : ∀ pointer ∈ fields, Live heap pointer) :
    markPointerFields heap colour stack fields =
      some ((fields.filter (pushes heap colour)).reverse ++ stack) := by
  induction fields generalizing stack with
  | nil => rfl
  | cons field fields ih =>
      have rest := fun next => ih next fun pointer member =>
        live pointer (List.mem_cons_of_mem field member)
      have first : markPointerMaybe heap colour stack field =
          some (([field].filter (pushes heap colour)).reverse ++ stack) := by
        cases field with
        | none => rfl
        | some id =>
            obtain ⟨alloc, found⟩ :=
              Option.isSome_iff_exists.mp (live _ List.mem_cons_self id rfl)
            by_cases same : alloc.gcColour = colour
            · simp [markPointerMaybe, pushes, found, same]
            · simp [markPointerMaybe, pushes, found, same]
      rw [markPointerFields, List.foldlM_cons, first]
      refine (rest _).trans ?_
      rw [← List.append_assoc, ← List.reverse_append, ← List.filter_append]
      rfl

/-- The heap after the given allocations have been coloured. -/
def Coloured (before : VmHeap) (colour : GcColour) (done : Finset ℕ) (after : VmHeap) : Prop :=
  after.limit = before.limit ∧ ∀ id, after.cells id = (before.cells id).map fun alloc =>
    if id ∈ done then alloc.setGcColour colour else alloc

/-- The state of the traversal: `done` have been popped and coloured.  What is
to be visited is done or on the stack, and below a popped allocation that is on
the stack again nothing is left to push. -/
structure Traversal (heap : VmHeap) (colour : GcColour) (threads : List ThreadRoots)
    (done : Finset ℕ) (stack : MarkStack) (current : VmHeap) : Prop where
  coloured : Coloured heap colour done current
  noNull : none ∉ stack
  stackLive : ∀ entry ∈ stack, Live heap entry
  doneLive : ∀ id ∈ done, (heap.cells id).isSome = true
  stackVisited : ∀ id, some id ∈ stack → Visited heap colour threads id
  doneVisited : ∀ id ∈ done, Visited heap colour threads id
  moduleData : ∀ thread ∈ threads, ∀ id, some id ∈ thread.moduleData →
    id ∈ done ∨ some id ∈ stack
  framePointers : ∀ thread ∈ threads, ∀ id, some id ∈ thread.framePointers →
    Uncoloured heap colour id → id ∈ done ∨ some id ∈ stack
  fields : ∀ source ∈ done, ∀ target, Points heap colour source target →
    target ∈ done ∨ some target ∈ stack
  deep : ∀ above source below, stack = above ++ some source :: below → source ∈ done →
    ∀ target, Points heap colour source target → target ∈ done ∨ some target ∈ above

/-- Pointers in the heap designate allocations in the heap. -/
def Closed (heap : VmHeap) : Prop :=
  ∀ id alloc, heap.cells id = some alloc → ∀ pointer ∈ alloc.slots, Live heap pointer

theorem mappedFields_subset {alloc : VmAlloc} {pointer : Option ℕ}
    (member : pointer ∈ alloc.mappedFields) : pointer ∈ alloc.slots := by
  unfold VmAlloc.mappedFields at member
  split at member
  · exact member
  · cases member

namespace Coloured

variable {before after : VmHeap} {colour : GcColour} {done : Finset ℕ}

theorem isSome (coloured : Coloured before colour done after) (id : ℕ) :
    (after.cells id).isSome = (before.cells id).isSome := by
  rw [coloured.2 id, Option.isSome_map]

theorem live (coloured : Coloured before colour done after) {pointer : Option ℕ}
    (earlier : Live before pointer) : Live after pointer := by
  intro id isPointer
  rw [coloured.isSome]
  exact earlier id isPointer

theorem uncoloured (coloured : Coloured before colour done after) {id : ℕ} :
    Uncoloured after colour id ↔ Uncoloured before colour id ∧ id ∉ done := by
  unfold Uncoloured
  rw [coloured.2 id]
  cases before.cells id with
  | none => simp
  | some alloc =>
      by_cases isDone : id ∈ done
      · simp [isDone, VmAlloc.setGcColour]
      · simp [isDone]

/-- Colouring one more allocation. -/
theorem insert (coloured : Coloured before colour done after) (id : ℕ) :
    Coloured before colour (insert id done)
      (after.modify id (VmAlloc.setGcColour colour)) := by
  refine ⟨coloured.1, fun other => ?_⟩
  by_cases same : other = id
  · subst same
    rw [Heap.modify]
    simp only [if_true, coloured.2 other, Option.map_map, Finset.mem_insert_self]
    congr 1
    funext alloc
    simp only [Function.comp]
    split <;> rfl
  · rw [Heap.modify_other same, coloured.2 other]
    simp [Finset.mem_insert, same]

end Coloured

theorem mem_pushed {heap : VmHeap} {colour : GcColour} {fields : List (Option ℕ)} {id : ℕ} :
    some id ∈ (fields.filter (pushes heap colour)).reverse ↔
      some id ∈ fields ∧ Uncoloured heap colour id := by
  rw [List.mem_reverse, List.mem_filter, pushes_some]

theorem none_notMem_pushed {heap : VmHeap} {colour : GcColour} {fields : List (Option ℕ)} :
    none ∉ (fields.filter (pushes heap colour)).reverse := by
  simp [pushes]

section Step

variable {heap current : VmHeap} {colour : GcColour} {threads : List ThreadRoots}
  {done : Finset ℕ} {stack : MarkStack} {id : ℕ} {alloc : VmAlloc}

/-- The pointers pushed when an allocation is popped. -/
def pushed (current : VmHeap) (colour : GcColour) (id : ℕ) (alloc : VmAlloc) : MarkStack :=
  (alloc.mappedFields.filter
    (pushes (current.modify id (VmAlloc.setGcColour colour)) colour)).reverse

theorem mem_pushed_step (coloured : Coloured heap colour done current)
    (live : heap.cells id = some alloc) {target : ℕ} :
    some target ∈ pushed current colour id alloc ↔
      Points heap colour id target ∧ target ∉ insert id done := by
  unfold pushed Points
  rw [mem_pushed, (coloured.insert id).uncoloured]
  constructor
  · rintro ⟨member, uncoloured, notDone⟩
    exact ⟨⟨⟨alloc, live, member⟩, uncoloured⟩, notDone⟩
  · rintro ⟨⟨⟨other, found, member⟩, uncoloured⟩, notDone⟩
    rw [live] at found
    cases found
    exact ⟨member, uncoloured, notDone⟩

/-- An allocation popped again pushes nothing. -/
theorem pushed_eq_nil (traversal : Traversal heap colour threads done (some id :: stack) current)
    (live : heap.cells id = some alloc) (isDone : id ∈ done) :
    pushed current colour id alloc = [] := by
  refine List.eq_nil_iff_forall_not_mem.mpr fun entry member => ?_
  cases entry with
  | none => exact none_notMem_pushed member
  | some target =>
      obtain ⟨points, notDone⟩ := (mem_pushed_step traversal.coloured live).mp member
      rcases traversal.deep [] id stack rfl isDone target points with already | above
      · exact notDone (Finset.mem_insert_of_mem already)
      · cases above

theorem traversal_step (closed : Closed heap)
    (traversal : Traversal heap colour threads done (some id :: stack) current)
    (live : heap.cells id = some alloc) :
    Traversal heap colour threads (insert id done)
      (pushed current colour id alloc ++ stack)
      (current.modify id (VmAlloc.setGcColour colour)) := by
  have visited := traversal.stackVisited id List.mem_cons_self
  have inPushed : ∀ target, some target ∈ pushed current colour id alloc ↔
      Points heap colour id target ∧ target ∉ insert id done :=
    fun _ => mem_pushed_step traversal.coloured live
  -- what was to be visited still is
  have pending : ∀ target, target ∈ done ∨ some target ∈ some id :: stack →
      target ∈ insert id done ∨ some target ∈ pushed current colour id alloc ++ stack := by
    intro target earlier
    rcases earlier with isDone | inStack
    · exact Or.inl (Finset.mem_insert_of_mem isDone)
    · rcases List.mem_cons.mp inStack with same | below
      · exact Or.inl (Option.some.inj same ▸ Finset.mem_insert_self id done)
      · exact Or.inr (List.mem_append_right _ below)
  have fresh : ∀ target, Points heap colour id target →
      target ∈ insert id done ∨ some target ∈ pushed current colour id alloc := by
    intro target points
    by_cases isDone : target ∈ insert id done
    · exact Or.inl isDone
    · exact Or.inr ((inPushed target).mpr ⟨points, isDone⟩)
  refine ⟨traversal.coloured.insert id, ?_, ?_, ?_, ?_, ?_, ?_, ?_, ?_, ?_⟩
  · intro member
    rcases List.mem_append.mp member with isPushed | below
    · exact none_notMem_pushed isPushed
    · exact traversal.noNull (List.mem_cons_of_mem _ below)
  · intro entry member
    rcases List.mem_append.mp member with isPushed | below
    · refine closed id alloc live entry (mappedFields_subset ?_)
      exact List.mem_of_mem_filter (List.mem_reverse.mp isPushed)
    · exact traversal.stackLive entry (List.mem_cons_of_mem _ below)
  · intro other isDone
    rcases Finset.mem_insert.mp isDone with rfl | earlier
    · rw [live]
      rfl
    · exact traversal.doneLive other earlier
  · intro other member
    rcases List.mem_append.mp member with isPushed | below
    · exact .field id other visited ((inPushed other).mp isPushed).1
    · exact traversal.stackVisited other (List.mem_cons_of_mem _ below)
  · intro other isDone
    rcases Finset.mem_insert.mp isDone with rfl | earlier
    · exact visited
    · exact traversal.doneVisited other earlier
  · exact fun thread member other isData =>
      pending other (traversal.moduleData thread member other isData)
  · exact fun thread member other inFrame uncoloured =>
      pending other (traversal.framePointers thread member other inFrame uncoloured)
  · intro source isDone target points
    rcases Finset.mem_insert.mp isDone with rfl | earlier
    · rcases fresh target points with already | isPushed
      · exact Or.inl already
      · exact Or.inr (List.mem_append_left _ isPushed)
    · exact pending target (traversal.fields source earlier target points)
  · -- an entry of the new stack that is done lies in its old part
    intro above source below split isDone target points
    have old : ∃ between, above = pushed current colour id alloc ++ between ∧
        stack = between ++ some source :: below := by
      rcases List.append_eq_append_iff.mp split with
        ⟨between, aboveIs, stackIs⟩ | ⟨between, pushedIs, restIs⟩
      · exact ⟨between, aboveIs, stackIs⟩
      · cases between with
        | nil => exact ⟨[], by simpa using pushedIs.symm, by simpa using restIs.symm⟩
        | cons entry between =>
            simp only [List.cons_append, List.cons.injEq] at restIs
            have isPushed : some source ∈ pushed current colour id alloc := by
              rw [pushedIs, restIs.1]
              simp
            exact absurd isDone ((inPushed source).mp isPushed).2
    obtain ⟨between, rfl, stackIs⟩ := old
    rcases Finset.mem_insert.mp isDone with rfl | earlier
    · rcases fresh target points with already | isPushed
      · exact Or.inl already
      · exact Or.inr (List.mem_append_left _ isPushed)
    · rcases traversal.deep (some id :: between) source below (by rw [stackIs]; rfl) earlier
        target points with already | inAbove
      · exact Or.inl (Finset.mem_insert_of_mem already)
      · rcases List.mem_cons.mp inAbove with same | inBetween
        · exact Or.inl (Option.some.inj same ▸ Finset.mem_insert_self id done)
        · exact Or.inr (List.mem_append_right _ inBetween)

end Step

/-- The state while marking, after the heap and the stack have changed. -/
def GcState.popped (state : GcState mutators) (heap : VmHeap) (stack : MarkStack) :
    GcState mutators :=
  { state with heap := heap, phase := .marking stack }

/-- One step of the collector. -/
def CollectorStep (before after : GcState mutators) : Prop :=
  before.collectNext = some after

section Runs

variable {state : GcState mutators} {heap : VmHeap} {threads : List ThreadRoots}
  {done : Finset ℕ} {stack : MarkStack} {id : ℕ} {alloc : VmAlloc}

theorem markNext_eq (closed : Closed heap)
    (traversal : Traversal heap (getCurrentColour state.collectionEpoch) threads done
      (some id :: stack) state.heap)
    (live : heap.cells id = some alloc) :
    state.markNext (some id) stack =
      state.popped (state.heap.modify id
          (VmAlloc.setGcColour (getCurrentColour state.collectionEpoch)))
        (pushed state.heap (getCurrentColour state.collectionEpoch) id alloc ++ stack) := by
  have found := traversal.coloured.2 id
  rw [live, Option.map_some] at found
  have fields : ∀ other : VmAlloc,
      other = (if id ∈ done then
        alloc.setGcColour (getCurrentColour state.collectionEpoch) else alloc) →
          other.mappedFields = alloc.mappedFields := by
    rintro _ rfl
    split <;> rfl
  have pointersLive : ∀ pointer ∈ alloc.mappedFields, Live (state.heap.modify id
      (VmAlloc.setGcColour (getCurrentColour state.collectionEpoch))) pointer := by
    intro pointer member
    exact (traversal.coloured.insert id).live
      (closed id alloc live pointer (mappedFields_subset member))
  simp only [markNext, found, fields _ rfl]
  rw [markPointerFields_eq _ stack pointersLive]
  rfl

/-- Only allocations of the heap are done. -/
theorem Traversal.card_done_le {colour : GcColour} {current : VmHeap}
    (traversal : Traversal heap colour threads done stack current) :
    done.card ≤ heap.limit := by
  have inside : done ⊆ Finset.range heap.limit := by
    intro other isDone
    obtain ⟨found, live⟩ := Option.isSome_iff_exists.mp (traversal.doneLive other isDone)
    exact Finset.mem_range.mpr (Heap.lt_limit live)
  simpa using Finset.card_le_card inside

/-- Popping an allocation for the first time leaves fewer to be popped, and
popping it again shortens the stack. -/
theorem mark_finishes (closed : Closed heap) {remaining : ℕ} {state : GcState mutators}
    {done : Finset ℕ} {stack : MarkStack} (marking : state.phase = .marking stack)
    (traversal : Traversal heap (getCurrentColour state.collectionEpoch) threads done
      stack state.heap)
    (bound : heap.limit - done.card = remaining) :
    ∃ after final, Relation.ReflTransGen CollectorStep state (state.popped after []) ∧
      Traversal heap (getCurrentColour state.collectionEpoch) threads final [] after := by
  induction remaining using Nat.strong_induction_on generalizing state done stack with
  | _ remaining outer =>
      induction stack generalizing state with
      | nil =>
          refine ⟨state.heap, done, ?_, traversal⟩
          rw [popped, ← marking]
      | cons entry stack inner =>
          cases entry with
          | none => exact absurd List.mem_cons_self traversal.noNull
          | some id =>
              obtain ⟨alloc, live⟩ := Option.isSome_iff_exists.mp
                (traversal.stackLive _ List.mem_cons_self id rfl)
              have moved := traversal_step closed traversal live
              have first : CollectorStep state (state.markNext (some id) stack) := by
                simp only [CollectorStep, collectNext, marking]
              rw [markNext_eq closed traversal live] at first
              by_cases isDone : id ∈ done
              · rw [pushed_eq_nil traversal live isDone, List.nil_append] at first moved
                rw [Finset.insert_eq_self.mpr isDone] at moved
                obtain ⟨after, final, path, ended⟩ := inner
                  (show (state.popped _ stack).phase = .marking stack from rfl) moved
                exact ⟨after, final, path.head first, ended⟩
              · have card := Finset.card_insert_of_notMem isDone
                have room := moved.card_done_le
                obtain ⟨after, final, path, ended⟩ := outer _ (by omega)
                  (show (state.popped _ _).phase = .marking _ from rfl) moved rfl
                exact ⟨after, final, path.head first, ended⟩

end Runs

end Disvm.GarbageCollector
