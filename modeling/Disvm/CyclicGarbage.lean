import Disvm.MarkCompleteness
import Mathlib.Order.WellFoundedSet

/-!
# What collections reclaim

A collection drops the collector's own reference to what its sweep removes and
leaves the rest to the counts.  References among allocations that are not freed
stay, so garbage goes after one collection for each colour, except for cycles,
which keep themselves.
-/

namespace Disvm.GarbageCollector

open RefCounting GcState

variable {mutators : ℕ}

def Positive (heap : VmHeap) : Prop :=
  ∀ id alloc, heap.cells id = some alloc → 0 < alloc.refCount

namespace Positive

variable {heap : VmHeap} {id : ℕ} {alloc : VmAlloc}

theorem modify (positive : Positive heap) {change : VmAlloc → VmAlloc}
    (changed : ∀ alloc, heap.cells id = some alloc → 0 < (change alloc).refCount) :
    Positive (heap.modify id change) := by
  intro other found live
  by_cases same : other = id
  · subst same
    obtain ⟨earlier, before, rfl⟩ : ∃ earlier, heap.cells other = some earlier ∧
        change earlier = found := by
      simpa [Heap.modify] using live
    exact changed earlier before
  · rw [Heap.modify_other same] at live
    exact positive other found live

theorem erase (positive : Positive heap) (id : ℕ) : Positive (heap.erase id) := by
  intro other found live
  by_cases same : other = id
  · subst same
    rw [Heap.erase_self] at live
    cases live
  · rw [Heap.erase_other same] at live
    exact positive other found live

theorem allocate (positive : Positive heap) (counted : 0 < alloc.refCount) :
    Positive (heap.allocate alloc) := by
  intro other found live
  by_cases same : other = heap.limit
  · subst same
    rw [Heap.allocate_self] at live
    cases live
    exact counted
  · rw [Heap.allocate_other same] at live
    exact positive other found live

theorem decRefCountAndFree (positive : Positive heap) {later : VmHeap} {rest released : List ℕ}
    (decremented : GarbageCollector.decRefCountAndFree heap id rest = some (later, released)) :
    Positive later := by
  unfold GarbageCollector.decRefCountAndFree at decremented
  split at decremented
  · cases decremented
  · rename_i alloc live
    split at decremented
    · cases decremented
      exact positive.erase id
    · rename_i several
      cases decremented
      refine positive.modify fun other found => ?_
      have counted := positive id other found
      rw [live] at found
      cases found
      simp only [VmAlloc.release]
      omega

end Positive

theorem positive_mutate {before after : GcState mutators} {mutator : Fin mutators}
    {mutation : Mutation} (positive : Positive before.heap)
    (mutated : before.mutate mutator mutation = some after) : Positive after.heap := by
  cases mutation with
  | allocate kind slotCount =>
      cases mutated
      exact positive.allocate Nat.one_pos
  | addRef id =>
      simp only [mutate, Option.ite_none_right_eq_some, Option.some.injEq] at mutated
      obtain ⟨-, rfl⟩ := mutated
      unfold GcState.addRef
      split
      · exact positive
      · exact positive.modify fun _ _ => Nat.succ_pos _
  | removeRef id =>
      simp only [mutate, Option.ite_none_right_eq_some, Option.some.injEq] at mutated
      obtain ⟨-, rfl⟩ := mutated
      exact positive
  | releaseNext =>
      simp only [mutate] at mutated
      split at mutated
      · cases mutated
      · cases mutated
        unfold GcState.releaseNext
        split
        · exact positive
        · rename_i decremented
          exact positive.decRefCountAndFree decremented
  | swapSlot owner index value =>
      simp only [mutate, Option.ite_none_right_eq_some, Option.some.injEq] at mutated
      obtain ⟨-, rfl⟩ := mutated
      unfold GcState.swapSlot
      split
      · exact positive
      · exact positive.modify fun alloc live => positive owner alloc live
  | trackAllocation id =>
      simp only [mutate, Option.ite_none_right_eq_some, Option.some.injEq] at mutated
      obtain ⟨-, rfl⟩ := mutated
      unfold GcState.trackAllocation
      split
      · exact positive
      · exact positive.modify fun _ _ => Nat.succ_pos _

/-- The steps of the collector in a safe state. -/
inductive CollectorCase (before : GcState mutators) : GcState mutators → Prop
  | crash (stack : MarkStack) (marking : before.phase = .marking (none :: stack)) :
      CollectorCase before { before with phase := .crashed }
  | colour (id : ℕ) (alloc : VmAlloc) (stack pushed : MarkStack)
      (marking : before.phase = .marking (some id :: stack))
      (live : before.heap.cells id = some alloc)
      (members : ∀ entry ∈ pushed, entry ∈ stack ∨ entry ∈ alloc.mappedFields) :
      CollectorCase before (before.popped (before.heap.modify id
        (VmAlloc.setGcColour (getCurrentColour before.collectionEpoch))) pushed)
  | startSweep (marking : before.phase = .marking []) :
      CollectorCase before { before with phase := .sweeping [] before.trackingAllocs [] }
  | keep (kept : List ℕ) (id : ℕ) (remaining : List ℕ) (alloc : VmAlloc)
      (sweeping : before.phase = .sweeping kept (id :: remaining) [])
      (live : before.heap.cells id = some alloc)
      (coloured : alloc.gcColour ≠ getSweeperColour before.collectionEpoch) :
      CollectorCase before { before with phase := .sweeping (kept ++ [id]) remaining [] }
  | remove (kept : List ℕ) (id : ℕ) (remaining : List ℕ)
      (sweeping : before.phase = .sweeping kept (id :: remaining) []) :
      CollectorCase before { before with phase := .sweeping kept remaining [id] }
  | release (kept remaining : List ℕ) (id : ℕ) (rest : List ℕ) (alloc : VmAlloc)
      (sweeping : before.phase = .sweeping kept remaining (id :: rest))
      (live : before.heap.cells id = some alloc) (several : alloc.refCount ≠ 1) :
      CollectorCase before { before with
        heap := before.heap.modify id VmAlloc.release
        phase := .sweeping kept remaining rest }
  | free (kept remaining : List ℕ) (id : ℕ) (rest : List ℕ) (alloc : VmAlloc)
      (sweeping : before.phase = .sweeping kept remaining (id :: rest))
      (live : before.heap.cells id = some alloc) (last : alloc.refCount = 1) :
      CollectorCase before { before with
        heap := before.heap.erase id
        phase := .sweeping kept remaining (alloc.pointers ++ rest) }
  | finish (kept : List ℕ) (sweeping : before.phase = .sweeping kept [] []) :
      CollectorCase before (before.endCollect kept)

theorem collectorStep_cases {before after : GcState mutators} (safe : Safe before)
    (stepped : CollectorStep before after) : CollectorCase before after := by
  unfold CollectorStep collectNext at stepped
  cases phase : before.phase with
  | idle | crashed => simp [phase] at stepped
  | marking stack =>
      cases stack with
      | nil =>
          simp only [phase, Option.some.injEq] at stepped
          exact stepped ▸ .startSweep phase
      | cons current stack =>
          simp only [phase, Option.some.injEq] at stepped
          cases current with
          | none => exact stepped ▸ .crash stack phase
          | some id =>
              obtain ⟨alloc, live⟩ := Option.isSome_iff_exists.mp
                (safe.marking _ phase _ List.mem_cons_self id rfl)
              have fieldsLive : ∀ pointer ∈ alloc.mappedFields, Live (before.heap.modify id
                  (VmAlloc.setGcColour (getCurrentColour before.collectionEpoch))) pointer := by
                intro pointer member target isTarget
                rw [Heap.modify_isSome]
                exact closed_of_safe safe id alloc live pointer (mappedFields_subset member)
                  target isTarget
              simp only [markNext, live] at stepped
              rw [markPointerFields_eq _ stack fieldsLive] at stepped
              refine stepped ▸ .colour id alloc stack _ phase live fun entry member => ?_
              rcases List.mem_append.mp member with isPushed | below
              · exact Or.inr (List.mem_of_mem_filter (List.mem_reverse.mp isPushed))
              · exact Or.inl below
  | sweeping kept remaining releasing =>
      cases releasing with
      | cons id rest =>
          obtain ⟨alloc, live⟩ := safe.live_of_references
            (show 0 < before.references id by simp [references, sweepReleasing, phase])
          simp only [phase, Option.some.injEq, sweepRelease, decRefCountAndFree, live] at stepped
          by_cases last : alloc.refCount = 1
          · rw [if_pos last] at stepped
            exact stepped ▸ .free kept remaining id rest alloc phase live last
          · rw [if_neg last] at stepped
            exact stepped ▸ .release kept remaining id rest alloc phase live last
      | nil =>
          cases remaining with
          | cons id remaining =>
              obtain ⟨alloc, live⟩ := safe.live_of_tracked
                (show id ∈ before.tracked by simp [tracked, phase])
              simp only [phase, Option.some.injEq, sweepNext, live] at stepped
              by_cases swept : alloc.gcColour = getSweeperColour before.collectionEpoch
              · rw [if_pos swept] at stepped
                exact stepped ▸ .remove kept id remaining phase
              · rw [if_neg swept] at stepped
                exact stepped ▸ .keep kept id remaining alloc phase live swept
          | nil =>
              simp only [phase, Option.some.injEq] at stepped
              exact stepped ▸ .finish kept phase

theorem positive_collectorStep {before after : GcState mutators} (safe : Safe before)
    (positive : Positive before.heap) (stepped : CollectorStep before after) :
    Positive after.heap := by
  cases collectorStep_cases safe stepped with
  | crash | startSweep | keep | remove | finish => exact positive
  | colour id alloc stack pushed marking live =>
      exact positive.modify fun other found => positive id other found
  | release kept remaining id rest alloc sweeping live several =>
      refine positive.modify fun other found => ?_
      have counted := positive id other found
      rw [live] at found
      cases found
      simp only [VmAlloc.release]
      omega
  | free kept remaining id rest alloc sweeping live last => exact positive.erase id

theorem positive_of_reached {state : GcState mutators} (reached : Reached state) :
    Positive state.heap := by
  refine (Transition.Reachable.invariant
    (fun state => Safe state ∧ Positive state.heap) ?_ ?_ reached).2
  · rintro first rfl
    exact ⟨Safe.start, by simp [Positive, init, Heap.empty]⟩
  · rintro before after _ ⟨safe, positive⟩ ⟨action, -, stepped⟩
    refine ⟨safe_step safe stepped, ?_⟩
    cases action with
    | mutate mutator mutation =>
        simp only [step, Option.ite_none_right_eq_some] at stepped
        exact positive_mutate positive stepped.2
    | startCollect threads =>
        simp only [step, Option.ite_none_right_eq_some, Option.some.injEq] at stepped
        obtain ⟨-, rfl⟩ := stepped
        unfold GcState.startCollect
        split
        · exact positive
        · split <;> exact positive
    | collectNext => exact positive_collectorStep safe positive stepped

/-- A reference that a mutator holds or an allocation of the set carries
designates each allocation of the set. -/
def Supported (state : GcState mutators) (kept : Set ℕ) : Prop :=
  ∀ id ∈ kept, (∃ mutator, id ∈ state.held mutator) ∨
    ∃ source ∈ kept, ∃ alloc, state.heap.cells source = some alloc ∧ id ∈ alloc.pointers

section Support

variable {before after : GcState mutators} {kept : Set ℕ}

theorem Supported.held_or_incoming (supported : Supported before kept) {id : ℕ}
    (member : id ∈ kept) : 0 < total before.held id + incoming layout before.heap id := by
  rcases supported id member with ⟨mutator, holds⟩ | ⟨source, -, alloc, live, refers⟩
  · have counted := total_pos holds
    omega
  · have counted := incoming_pos layout live refers
    omega

theorem Supported.references_pos (supported : Supported before kept) {id : ℕ}
    (member : id ∈ kept) : 0 < before.references id := by
  have counted := supported.held_or_incoming member
  unfold references
  omega

/-- A reference that is being released is not the only one to a supported
allocation. -/
theorem Supported.several (safe : Safe before) (supported : Supported before kept)
    {id : ℕ} {alloc : VmAlloc} (member : id ∈ kept) (live : before.heap.cells id = some alloc)
    (releasing : id ∈ before.sweepReleasing) : alloc.refCount ≠ 1 := by
  have counted := safe.refCount live
  have held := supported.held_or_incoming member
  have released : 0 < before.sweepReleasing.count id := List.count_pos_iff.mpr releasing
  unfold references at counted
  omega

/-- The set stays supported when its allocations keep their pointers. -/
theorem Supported.of_cells (supported : Supported before kept)
    (held : after.held = before.held)
    (cells : ∀ id ∈ kept, ∀ alloc, before.heap.cells id = some alloc →
      ∃ later, after.heap.cells id = some later ∧ later.slots = alloc.slots) :
    Supported after kept := by
  intro id member
  rcases supported id member with ⟨mutator, holds⟩ | ⟨source, isKept, alloc, live, refers⟩
  · exact Or.inl ⟨mutator, held ▸ holds⟩
  · obtain ⟨later, found, same⟩ := cells source isKept alloc live
    refine Or.inr ⟨source, isKept, later, found, ?_⟩
    rw [VmAlloc.pointers, same]
    exact refers

theorem supported_collectorStep (safe : Safe before) (supported : Supported before kept)
    (stepped : CollectorStep before after) : Supported after kept := by
  have modified : ∀ (other : ℕ) (change : VmAlloc → VmAlloc),
      (∀ alloc, (change alloc).slots = alloc.slots) →
      ∀ id ∈ kept, ∀ alloc, before.heap.cells id = some alloc →
        ∃ later, (before.heap.modify other change).cells id = some later ∧
          later.slots = alloc.slots := by
    intro other change slots id _ alloc live
    by_cases same : id = other
    · subst same
      exact ⟨change alloc, Heap.modify_self live change, slots alloc⟩
    · exact ⟨alloc, (Heap.modify_other same change).trans live, rfl⟩
  cases collectorStep_cases safe stepped with
  | crash | startSweep | keep | remove | finish => exact supported
  | colour id alloc stack pushed marking live =>
      exact supported.of_cells rfl (modified id _ fun _ => rfl)
  | release kept remaining id rest alloc sweeping live several =>
      exact supported.of_cells rfl (modified id _ fun _ => rfl)
  | free keptIds remaining id rest alloc sweeping live last =>
      refine supported.of_cells rfl fun other member found isLive => ?_
      refine ⟨found, ?_, rfl⟩
      have isOther : other ≠ id := by
        rintro rfl
        exact supported.several safe member live (by simp [sweepReleasing, sweeping]) last
      exact (Heap.erase_other isOther).trans isLive

end Support

/-- What holds from the start of a collection on, for a set of allocations that
nothing outside it designates.  Allocations only go, with their pointers; those
of the set keep their colours, and what has the colour of the sweep is no
longer tracked when the collection ends. -/
structure Collecting (start : GcState mutators) (garbage : Set ℕ) (state : GcState mutators) :
    Prop where
  held : state.held = start.held
  releasing : state.releasing = start.releasing
  cells : ∀ id alloc, state.heap.cells id = some alloc →
    ∃ earlier, start.heap.cells id = some earlier ∧ alloc.slots = earlier.slots ∧
      (id ∈ garbage → alloc.gcColour = earlier.gcColour)
  stack : ∀ stack, state.phase = .marking stack → ∀ id, some id ∈ stack → id ∉ garbage
  tracked : ∀ id ∈ state.tracked, id ∈ start.trackingAllocs
  epoch : state.phase ≠ .idle → state.collectionEpoch = start.collectionEpoch
  nextEpoch : state.phase = .idle → state.collectionEpoch = start.collectionEpoch + 1
  kept : ∀ kept remaining releasing, state.phase = .sweeping kept remaining releasing →
    ∀ id ∈ kept, ∀ alloc, state.heap.cells id = some alloc →
      alloc.gcColour ≠ getSweeperColour start.collectionEpoch
  swept : state.phase = .idle → ∀ id ∈ state.trackingAllocs, ∀ alloc,
    state.heap.cells id = some alloc → alloc.gcColour ≠ getSweeperColour start.collectionEpoch

/-- Only allocations of the set point to allocations of the set. -/
def Isolated (heap : VmHeap) (garbage : Set ℕ) : Prop :=
  ∀ source alloc, heap.cells source = some alloc → ∀ target ∈ alloc.pointers,
    target ∈ garbage → source ∈ garbage

section Collection

variable {start before after : GcState mutators} {garbage kept : Set ℕ}
  {threads : List ThreadRoots}

theorem Collecting.isolated (collecting : Collecting start garbage before)
    (isolated : Isolated start.heap garbage) : Isolated before.heap garbage := by
  intro source alloc live target member inside
  obtain ⟨earlier, found, slots, -⟩ := collecting.cells source alloc live
  refine isolated source earlier found target ?_ inside
  rw [VmAlloc.pointers, ← slots]
  exact member

/-- A cell after a change that keeps slots, and colours in the set. -/
theorem cells_modify {id : ℕ} {change : VmAlloc → VmAlloc}
    (slots : ∀ alloc, (change alloc).slots = alloc.slots)
    (colour : id ∈ garbage → ∀ alloc, (change alloc).gcColour = alloc.gcColour) :
    ∀ other alloc, (before.heap.modify id change).cells other = some alloc →
      ∃ earlier, before.heap.cells other = some earlier ∧ alloc.slots = earlier.slots ∧
        (other ∈ garbage → alloc.gcColour = earlier.gcColour) := by
  intro other alloc live
  by_cases same : other = id
  · subst same
    obtain ⟨earlier, found, rfl⟩ : ∃ earlier, before.heap.cells other = some earlier ∧
        change earlier = alloc := by
      simpa [Heap.modify] using live
    exact ⟨earlier, found, slots earlier, fun member => colour member earlier⟩
  · rw [Heap.modify_other same] at live
    exact ⟨alloc, live, rfl, fun _ => rfl⟩

theorem Collecting.cells_trans (collecting : Collecting start garbage before)
    (changed : ∀ id alloc, after.heap.cells id = some alloc →
      ∃ earlier, before.heap.cells id = some earlier ∧ alloc.slots = earlier.slots ∧
        (id ∈ garbage → alloc.gcColour = earlier.gcColour)) :
    ∀ id alloc, after.heap.cells id = some alloc →
      ∃ earlier, start.heap.cells id = some earlier ∧ alloc.slots = earlier.slots ∧
        (id ∈ garbage → alloc.gcColour = earlier.gcColour) := by
  intro id alloc live
  obtain ⟨middle, found, slots, colour⟩ := changed id alloc live
  obtain ⟨earlier, first, firstSlots, firstColour⟩ := collecting.cells id middle found
  exact ⟨earlier, first, slots.trans firstSlots,
    fun member => (colour member).trans (firstColour member)⟩

/-- The release of a reference keeps the colour of what stays. -/
theorem Collecting.kept_release (collecting : Collecting start garbage before)
    {keptIds earlierRemaining remaining rest released : List ℕ} {heap : VmHeap}
    (sweeping : before.phase = .sweeping keptIds earlierRemaining rest)
    (cells : ∀ id alloc, heap.cells id = some alloc →
      ∃ earlier, before.heap.cells id = some earlier ∧ alloc.gcColour = earlier.gcColour) :
    ∀ kept' remaining' releasing', Phase.sweeping keptIds remaining released =
        .sweeping kept' remaining' releasing' →
      ∀ id ∈ kept', ∀ alloc, heap.cells id = some alloc →
        alloc.gcColour ≠ getSweeperColour start.collectionEpoch := by
  rintro _ _ _ ⟨⟩ id member alloc live
  obtain ⟨earlier, found, colour⟩ := cells id alloc live
  rw [colour]
  exact collecting.kept _ _ _ sweeping id member earlier found

theorem collecting_step (safe : Safe before) (isolated : Isolated start.heap garbage)
    (collecting : Collecting start garbage before) (stepped : CollectorStep before after) :
    Collecting start garbage after := by
  cases collectorStep_cases safe stepped with
  | crash stack marking =>
      have inTracked := collecting.tracked
      rw [GcState.tracked, marking] at inTracked
      exact ⟨collecting.held, collecting.releasing, collecting.cells, by simp, inTracked,
        fun _ => collecting.epoch (by simp [marking]), by simp, by simp, by simp⟩
  | colour id alloc stack pushed marking live members =>
      have outside : id ∉ garbage := collecting.stack _ marking id List.mem_cons_self
      have inTracked := collecting.tracked
      rw [GcState.tracked, marking] at inTracked
      refine ⟨collecting.held, collecting.releasing,
        collecting.cells_trans (cells_modify (fun _ => rfl) fun inside => absurd inside outside),
        ?_, inTracked, fun _ => collecting.epoch (by simp [marking]), by simp [popped],
        by simp [popped], by simp [popped]⟩
      rintro _ ⟨⟩ target isPushed inside
      rcases members _ isPushed with below | isField
      · exact collecting.stack _ marking target (List.mem_cons_of_mem _ below) inside
      · exact outside (collecting.isolated isolated id alloc live target
          (List.reduceOption_mem_iff.mpr (mappedFields_subset isField)) inside)
  | startSweep marking =>
      have inTracked := collecting.tracked
      rw [GcState.tracked, marking] at inTracked
      exact ⟨collecting.held, collecting.releasing, collecting.cells, by simp, inTracked,
        fun _ => collecting.epoch (by simp [marking]), by simp,
        by rintro _ _ _ ⟨⟩ _ ⟨⟩, by simp⟩
  | keep keptIds id remaining alloc sweeping live coloured =>
      have epoch := collecting.epoch (by simp [sweeping])
      have inTracked := collecting.tracked
      rw [GcState.tracked, sweeping] at inTracked
      refine ⟨collecting.held, collecting.releasing, collecting.cells, by simp, ?_,
        fun _ => epoch, by simp, ?_, by simp⟩
      · simpa [GcState.tracked] using inTracked
      · rintro _ _ _ ⟨⟩ other member found isLive
        rcases List.mem_append.mp member with earlier | isNew
        · exact collecting.kept _ _ _ sweeping other earlier found isLive
        · rw [List.mem_singleton.mp isNew, live] at isLive
          cases isLive
          rw [← epoch]
          exact coloured
  | remove keptIds id remaining sweeping =>
      have inTracked := collecting.tracked
      rw [GcState.tracked, sweeping] at inTracked
      refine ⟨collecting.held, collecting.releasing, collecting.cells, by simp, ?_,
        fun _ => collecting.epoch (by simp [sweeping]), by simp,
        collecting.kept_release sweeping fun _ alloc live => ⟨alloc, live, rfl⟩, by simp⟩
      intro other member
      refine inTracked other ?_
      simp only [GcState.tracked, List.mem_append, List.mem_cons] at member ⊢
      tauto
  | release keptIds remaining id rest alloc sweeping live several =>
      have inTracked := collecting.tracked
      rw [GcState.tracked, sweeping] at inTracked
      have changed : ∀ other found, (before.heap.modify id VmAlloc.release).cells other =
          some found → ∃ earlier, before.heap.cells other = some earlier ∧
            found.slots = earlier.slots ∧
            (other ∈ (Set.univ : Set ℕ) → found.gcColour = earlier.gcColour) :=
        cells_modify (fun _ => rfl) fun _ _ => rfl
      refine ⟨collecting.held, collecting.releasing,
        collecting.cells_trans (cells_modify (fun _ => rfl) fun _ _ => rfl), by simp,
        inTracked, fun _ => collecting.epoch (by simp [sweeping]), by simp,
        collecting.kept_release sweeping fun other found isLive => ?_, by simp⟩
      obtain ⟨earlier, before, -, colour⟩ := changed other found isLive
      exact ⟨earlier, before, colour trivial⟩
  | free keptIds remaining id rest alloc sweeping live last =>
      have inTracked := collecting.tracked
      rw [GcState.tracked, sweeping] at inTracked
      have changed : ∀ other found, (before.heap.erase id).cells other = some found →
          before.heap.cells other = some found := by
        intro other found isLive
        have isOther : other ≠ id := by
          rintro rfl
          rw [Heap.erase_self] at isLive
          cases isLive
        rwa [Heap.erase_other isOther] at isLive
      refine ⟨collecting.held, collecting.releasing,
        collecting.cells_trans fun other found isLive =>
          ⟨found, changed other found isLive, rfl, fun _ => rfl⟩, by simp,
        inTracked, fun _ => collecting.epoch (by simp [sweeping]), by simp,
        collecting.kept_release sweeping fun other found isLive => ?_, by simp⟩
      exact ⟨found, changed other found isLive, rfl⟩
  | finish keptIds sweeping =>
      have epoch := collecting.epoch (by simp [sweeping])
      have inTracked := collecting.tracked
      rw [GcState.tracked, sweeping] at inTracked
      refine ⟨collecting.held, collecting.releasing, collecting.cells, by simp [endCollect],
        ?_, by simp [endCollect], fun _ => ?_, by simp [endCollect], ?_⟩
      · simpa [GcState.tracked, endCollect] using inTracked
      · simp [endCollect, epoch]
      · exact fun _ => collecting.kept _ _ _ sweeping

theorem collecting_start {pushed : MarkStack}
    (outside : ∀ id, some id ∈ pushed → id ∉ garbage) :
    Collecting before garbage (before.popped before.heap pushed) where
  held := rfl
  releasing := rfl
  cells _ alloc live := ⟨alloc, live, rfl, fun _ => rfl⟩
  stack := by
    rintro _ ⟨⟩
    exact outside
  tracked _ member := member
  epoch _ := rfl
  nextEpoch := by simp [popped]
  kept := by simp [popped]
  swept := by simp [popped]

theorem safe_run (safe : Safe before)
    (run : Relation.ReflTransGen CollectorStep before after) : Safe after := by
  induction run with
  | refl => exact safe
  | tail _ stepped ih => exact safe_collectNext ih stepped

/-- Each step of a sweep examines an allocation or drops a counted reference. -/
theorem sweep_ends {measure : ℕ} (safe : Safe before) {keptIds remaining releasing : List ℕ}
    (sweeping : before.phase = .sweeping keptIds remaining releasing)
    (bound : totalCount layout before.heap + remaining.length = measure) :
    ∃ after, Relation.ReflTransGen CollectorStep before after ∧ after.phase = .idle := by
  induction measure using Nat.strong_induction_on generalizing before keptIds remaining
    releasing with
  | _ measure ih =>
      obtain ⟨next, stepped⟩ : ∃ next, CollectorStep before next := by
        cases releasing with
        | cons id rest => exact ⟨_, by simp only [CollectorStep, collectNext, sweeping]; rfl⟩
        | nil =>
            cases remaining with
            | cons id remaining =>
                exact ⟨_, by simp only [CollectorStep, collectNext, sweeping]; rfl⟩
            | nil => exact ⟨_, by simp only [CollectorStep, collectNext, sweeping]; rfl⟩
      have later : Safe next := safe_collectNext safe stepped
      have advance : ∀ {keptNow remainingNow releasingNow : List ℕ},
          next.phase = .sweeping keptNow remainingNow releasingNow →
          totalCount layout next.heap + remainingNow.length < measure →
            ∃ after, Relation.ReflTransGen CollectorStep before after ∧ after.phase = .idle := by
        intro _ _ _ phase smaller
        obtain ⟨after, run, ended⟩ := ih _ smaller later phase rfl
        exact ⟨after, run.head stepped, ended⟩
      cases collectorStep_cases safe stepped with
      | crash _ marking | colour _ _ _ _ marking | startSweep marking =>
          rw [sweeping] at marking
          cases marking
      | keep _ id _ _ phase =>
          rw [sweeping] at phase
          cases phase
          refine advance rfl ?_
          rw [List.length_cons] at bound
          dsimp only
          omega
      | remove _ id _ phase =>
          rw [sweeping] at phase
          cases phase
          refine advance rfl ?_
          rw [List.length_cons] at bound
          dsimp only
          omega
      | release _ _ id _ alloc phase live several =>
          rw [sweeping] at phase
          cases phase
          refine advance rfl ?_
          have changed : totalCount layout (before.heap.modify id VmAlloc.release) +
              alloc.refCount = totalCount layout before.heap + (alloc.refCount - 1) :=
            totalCount_modify layout live VmAlloc.release
          have counted := safe.refCount live
          have released : 0 < before.sweepReleasing.count id := by
            simp [sweepReleasing, sweeping]
          unfold references at counted
          dsimp only
          omega
      | free _ _ id _ alloc phase live last =>
          rw [sweeping] at phase
          cases phase
          refine advance rfl ?_
          have changed : totalCount layout (before.heap.erase id) + alloc.refCount =
              totalCount layout before.heap := totalCount_erase layout live
          dsimp only
          omega
      | finish => exact ⟨_, .single stepped, rfl⟩

/-- One call of `collect`. -/
def Collects (state : GcState mutators) (threads : List ThreadRoots)
    (after : GcState mutators) : Prop :=
  ∃ begun, state.step (.startCollect threads) = some begun ∧
    Relation.ReflTransGen CollectorStep begun after ∧ after.phase = .idle

/-- What holds between collections without mutator activity: the threads'
pointers lie in a supported set, and nothing from outside designates the
garbage. -/
structure Between (threads : List ThreadRoots) (garbage kept : Set ℕ)
    (state : GcState mutators) : Prop where
  safe : Safe state
  positive : Positive state.heap
  idle : state.phase = .idle
  quiet : ∀ mutator, state.releasing mutator = []
  supported : Supported state kept
  roots : ∀ thread ∈ threads, ∀ id, some id ∈ thread.pointers → id ∈ kept
  apart : ∀ id ∈ kept, id ∉ garbage
  notHeld : ∀ id ∈ garbage, ∀ mutator, id ∉ state.held mutator
  isolated : Isolated state.heap garbage

theorem no_step_of_idle (idle : before.phase = .idle) : ¬ CollectorStep before after := by
  simp [CollectorStep, collectNext, idle]

theorem Between.started (between : Between threads garbage kept before) :
    before.step (.startCollect threads) = some (before.startCollect threads) := by
  refine if_pos ⟨between.idle, between.quiet, fun thread member id designated => ?_⟩
  exact between.supported.references_pos
    (between.roots thread member id (List.reduceOption_mem_iff.mp designated))

theorem collects_exists (between : Between threads garbage kept before)
    (data : before.trackingAllocs = [] ∨ ∀ thread ∈ threads, none ∉ thread.moduleData) :
    ∃ after, Collects before threads after := by
  by_cases nonempty : before.trackingAllocs = []
  · refine ⟨before, _, between.started, ?_, between.idle⟩
    rw [GcState.startCollect, if_pos nonempty]
  · obtain ⟨heap, done, marks, -, -⟩ := mark_ends between.safe nonempty between.started
      (data.resolve_left nonempty)
    have safe : Safe (before.popped heap []) :=
      safe_run (safe_step between.safe between.started) marks
    have swept : CollectorStep (before.popped heap []) _ := rfl
    obtain ⟨after, sweeps, ended⟩ := sweep_ends (safe_collectNext safe swept) rfl rfl
    exact ⟨after, _, between.started, marks.trans (sweeps.head swept), ended⟩

/-- A run of the collector from the start of a collection. -/
theorem collecting_run (between : Between threads garbage kept before)
    (nonempty : before.trackingAllocs ≠ []) {begun : GcState mutators}
    (started : before.step (.startCollect threads) = some begun)
    (run : Relation.ReflTransGen CollectorStep begun after) :
    Safe after ∧ Positive after.heap ∧ Collecting before garbage after ∧
      ∀ set, Supported before set → Supported after set := by
  induction run with
  | refl =>
      have safe := safe_step between.safe started
      obtain ⟨-, pushed, rfl, members⟩ := startCollect_cases between.safe nonempty started
      refine ⟨safe, between.positive, collecting_start fun id isPushed => ?_,
        fun _ supported => supported⟩
      obtain ⟨thread, member, designated⟩ := (members (some id)).mp isPushed
      refine between.apart id (between.roots thread member id (mem_pointers.mpr ?_))
      exact designated.imp_right And.left
  | tail _ stepped ih =>
      obtain ⟨safe, positive, collecting, supports⟩ := ih
      exact ⟨safe_collectNext safe stepped, positive_collectorStep safe positive stepped,
        collecting_step safe between.isolated collecting stepped,
        fun set supported => supported_collectorStep safe (supports set supported) stepped⟩

/-- What one collection keeps and does. -/
theorem collects_spec (between : Between threads garbage kept before)
    (collects : Collects before threads after) :
    Between threads garbage kept after ∧
    (∀ set, Supported before set → Supported after set) ∧
    (before.trackingAllocs = [] ∧ after = before ∨ Collecting before garbage after) := by
  obtain ⟨begun, started, run, ended⟩ := collects
  by_cases nonempty : before.trackingAllocs = []
  · have same : begun = before := by
      have given := Option.some.inj (between.started.symm.trans started)
      rwa [GcState.startCollect, if_pos nonempty, eq_comm] at given
    subst same
    obtain rfl | ⟨next, stepped, -⟩ := Relation.ReflTransGen.cases_head run
    · exact ⟨between, fun _ supported => supported, Or.inl ⟨nonempty, rfl⟩⟩
    · exact absurd stepped (no_step_of_idle between.idle)
  · obtain ⟨safe, positive, collecting, supports⟩ :=
      collecting_run between nonempty started run
    refine ⟨⟨safe, positive, ended, ?_, supports kept between.supported, between.roots,
      between.apart, ?_, collecting.isolated between.isolated⟩, supports, Or.inr collecting⟩
    · exact fun mutator => by rw [collecting.releasing, between.quiet]
    · exact fun id member mutator => by
        rw [collecting.held]
        exact between.notHeld id member mutator

end Collection

/-- Reachable from the references that mutators hold. -/
inductive FromHeld (state : GcState mutators) : ℕ → Prop
  | held (mutator : Fin mutators) (id : ℕ) (holds : id ∈ state.held mutator) :
      FromHeld state id
  | pointer (source target : ℕ) (alloc : VmAlloc) (reached : FromHeld state source)
      (live : state.heap.cells source = some alloc) (member : target ∈ alloc.pointers) :
      FromHeld state target

/-- Tracked allocations that no reference from outside designates. -/
structure Garbage (state : GcState mutators) (garbage : Set ℕ) : Prop where
  tracked : ∀ id ∈ garbage, id ∈ state.trackingAllocs
  notHeld : ∀ id ∈ garbage, ∀ mutator, id ∉ state.held mutator
  isolated : Isolated state.heap garbage

/-- A pointer from one allocation of the set to another. -/
def RefersWithin (heap : VmHeap) (garbage : Set ℕ) (source target : ℕ) : Prop :=
  source ∈ garbage ∧ target ∈ garbage ∧
    ∃ alloc, heap.cells source = some alloc ∧ target ∈ alloc.pointers

/-- One collection for each colour, without mutator activity, frees the set. -/
def Reclaims (state : GcState mutators) (threads : List ThreadRoots) (garbage : Set ℕ) :
    Prop :=
  ∃ first second third, Collects state threads first ∧ Collects first threads second ∧
    Collects second threads third ∧ ∀ id ∈ garbage, third.heap.cells id = none

section Reclaim

variable {state first second third : GcState mutators} {threads : List ThreadRoots}
  {garbage kept : Set ℕ}

/-- A supported allocation is not freed. -/
theorem not_reclaims_of_supported (between : Between threads garbage kept state)
    {set : Set ℕ} (supported : Supported state set) {id : ℕ} (inSet : id ∈ set)
    (inGarbage : id ∈ garbage) : ¬ Reclaims state threads garbage := by
  rintro ⟨first, second, third, one, two, three, freed⟩
  obtain ⟨afterOne, supportsOne, -⟩ := collects_spec between one
  obtain ⟨afterTwo, supportsTwo, -⟩ := collects_spec afterOne two
  obtain ⟨afterThree, supportsThree, -⟩ := collects_spec afterTwo three
  have stays := supportsThree set (supportsTwo set (supportsOne set supported))
  obtain ⟨alloc, live⟩ := afterThree.safe.live_of_references (stays.references_pos inSet)
  rw [freed id inGarbage] at live
  cases live

/-- The allocations on cycles support each other. -/
theorem supported_of_cycles (state : GcState mutators) (garbage : Set ℕ) :
    Supported state {id | Relation.TransGen (RefersWithin state.heap garbage) id id} := by
  intro id cycle
  obtain ⟨source, path, edge⟩ := Relation.TransGen.tail'_iff.mp cycle
  obtain ⟨inSource, inTarget, alloc, live, member⟩ := edge
  have around : Relation.TransGen (RefersWithin state.heap garbage) source source :=
    Relation.TransGen.head' ⟨inSource, inTarget, alloc, live, member⟩ path
  exact Or.inr ⟨source, around, alloc, live, member⟩

/-- The sweep that has the colour of a garbage allocation drops it from
tracking. -/
theorem untracked_of_swept (collecting : Collecting state garbage first)
    (idle : first.phase = .idle) (safe : Safe first) {id : ℕ} {alloc : VmAlloc}
    (inGarbage : id ∈ garbage) (live : state.heap.cells id = some alloc)
    (colour : alloc.gcColour = getSweeperColour state.collectionEpoch) :
    id ∉ first.trackingAllocs := by
  intro isTracked
  have inTracked : id ∈ first.tracked := by
    rw [tracked, idle]
    exact isTracked
  obtain ⟨later, found⟩ := safe.live_of_tracked inTracked
  obtain ⟨earlier, before, -, kept⟩ := collecting.cells id later found
  rw [live] at before
  cases before
  exact collecting.swept idle id isTracked later found ((kept inGarbage).trans colour)

/-- Sweeps of three consecutive epochs have all colours. -/
theorem sweeper_colours (epoch : ℕ) (colour : GcColour) :
    colour = getSweeperColour epoch ∨ colour = getSweeperColour (epoch + 1) ∨
      colour = getSweeperColour (epoch + 2) := by
  have remainder : epoch % 3 = 0 ∨ epoch % 3 = 1 ∨ epoch % 3 = 2 := by omega
  unfold getSweeperColour
  rcases remainder with is | is | is <;>
    simp only [is, Nat.add_mod, Nat.reduceMod, Nat.reduceAdd] <;> cases colour <;> simp

/-- After three collections nothing of the garbage is tracked. -/
theorem untracked_of_three (between : Between threads garbage kept state)
    (one : Collects state threads first) (two : Collects first threads second)
    (three : Collects second threads third) {id : ℕ} (inGarbage : id ∈ garbage) :
    id ∉ third.trackingAllocs := by
  intro inThird
  obtain ⟨afterOne, -, oneDone⟩ := collects_spec between one
  obtain ⟨afterTwo, -, twoDone⟩ := collects_spec afterOne two
  obtain ⟨afterThree, -, threeDone⟩ := collects_spec afterTwo three
  have third_idle : third.tracked = third.trackingAllocs := by
    rw [tracked, afterThree.idle]
  have second_idle : second.tracked = second.trackingAllocs := by
    rw [tracked, afterTwo.idle]
  have first_idle : first.tracked = first.trackingAllocs := by
    rw [tracked, afterOne.idle]
  -- an allocation tracked at the end was tracked all the time
  obtain ⟨empty, rfl⟩ | threeDone := threeDone
  · rw [empty] at inThird
    cases inThird
  have inSecond := threeDone.tracked id (third_idle ▸ inThird)
  obtain ⟨empty, rfl⟩ | twoDone := twoDone
  · rw [empty] at inSecond
    cases inSecond
  have inFirst := twoDone.tracked id (second_idle ▸ inSecond)
  obtain ⟨empty, rfl⟩ | oneDone := oneDone
  · rw [empty] at inFirst
    cases inFirst
  obtain ⟨last, lastLive⟩ := afterTwo.safe.live_of_tracked (second_idle ▸ inSecond)
  obtain ⟨middle, middleLive, -, lastColour⟩ := twoDone.cells id last lastLive
  obtain ⟨alloc, live, -, middleColour⟩ := oneDone.cells id middle middleLive
  have firstEpoch := oneDone.nextEpoch afterOne.idle
  have secondEpoch := twoDone.nextEpoch afterTwo.idle
  rcases sweeper_colours state.collectionEpoch alloc.gcColour with swept | swept | swept
  · exact untracked_of_swept oneDone afterOne.idle afterOne.safe inGarbage live swept inFirst
  · refine untracked_of_swept twoDone afterTwo.idle afterTwo.safe inGarbage middleLive ?_ inSecond
    rw [middleColour inGarbage, swept, firstEpoch]
  · refine untracked_of_swept threeDone afterThree.idle afterThree.safe inGarbage lastLive ?_
      inThird
    rw [lastColour inGarbage, middleColour inGarbage, swept, secondEpoch, firstEpoch]

/-- Untracked garbage that is still in the heap is designated by garbage. -/
theorem referred_of_live (between : Between threads garbage kept state) {id : ℕ}
    (inGarbage : id ∈ garbage) (untracked : id ∉ state.trackingAllocs)
    (live : (state.heap.cells id).isSome = true) :
    ∃ source, (state.heap.cells source).isSome = true ∧
      RefersWithin state.heap garbage source id := by
  obtain ⟨alloc, found⟩ := Option.isSome_iff_exists.mp live
  have positive := between.positive id alloc found
  have counted := between.safe.refCount found
  have notHeld : total state.held id = 0 :=
    Finset.sum_eq_zero fun mutator _ =>
      List.count_eq_zero.mpr (between.notHeld id inGarbage mutator)
  have notReleasing : total state.releasing id = 0 := by
    refine Finset.sum_eq_zero fun mutator _ => ?_
    rw [between.quiet, List.count_nil]
  have notSwept : state.sweepReleasing.count id = 0 := by
    rw [sweepReleasing, between.idle, List.count_nil]
  have notTracked : id ∉ state.tracked := by
    rw [tracked, between.idle]
    exact untracked
  rw [if_neg notTracked, references, notHeld, notReleasing, notSwept] at counted
  obtain ⟨source, carrier, carries, member⟩ :=
    exists_of_incoming_pos layout (show 0 < incoming layout state.heap id by omega)
  exact ⟨source, by rw [carries]; rfl,
    between.isolated source carrier carries id member inGarbage, inGarbage,
    carrier, carries, member⟩

/-- Garbage without cycles has an allocation that nothing designates, as long as
some of it is in the heap. -/
theorem freed_of_acyclic (between : Between threads garbage kept state)
    (untracked : ∀ id ∈ garbage, id ∉ state.trackingAllocs)
    (acyclic : ∀ id, ¬ Relation.TransGen (RefersWithin state.heap garbage) id id) :
    ∀ id ∈ garbage, state.heap.cells id = none := by
  intro id inGarbage
  by_contra notFreed
  have order : IsStrictOrder ℕ (Relation.TransGen (RefersWithin state.heap garbage)) :=
    { irrefl := acyclic, trans := fun _ _ _ => Relation.TransGen.trans }
  have finite : {other | (state.heap.cells other).isSome = true}.Finite := by
    refine (Set.finite_lt_nat state.heap.limit).subset fun other isLive => ?_
    obtain ⟨alloc, found⟩ := Option.isSome_iff_exists.mp isLive
    exact Heap.lt_limit found
  have none : ∀ other, (state.heap.cells other).isSome = true → other ∉ garbage := by
    intro other isLive
    have founded : Set.WellFoundedOn {other | (state.heap.cells other).isSome = true}
        (Relation.TransGen (RefersWithin state.heap garbage)) := finite.wellFoundedOn
    refine founded.induction isLive (P := (· ∉ garbage)) fun later laterLive ih inSet => ?_
    obtain ⟨source, sourceLive, refers⟩ :=
      referred_of_live between inSet (untracked later inSet) laterLive
    exact ih source sourceLive (.single refers) refers.1
  exact none id (Option.isSome_iff_ne_none.mpr notFreed) inGarbage

/-- A collection makes no new references. -/
theorem refersWithin_of_collects (between : Between threads garbage kept state)
    (collects : Collects state threads first) {source target : ℕ}
    (refers : RefersWithin first.heap garbage source target) :
    RefersWithin state.heap garbage source target := by
  obtain ⟨-, -, ⟨-, rfl⟩ | collecting⟩ := collects_spec between collects
  · exact refers
  · obtain ⟨inSource, inTarget, alloc, live, member⟩ := refers
    obtain ⟨earlier, found, slots, -⟩ := collecting.cells source alloc live
    refine ⟨inSource, inTarget, earlier, found, ?_⟩
    rw [VmAlloc.pointers, ← slots]
    exact member

/-- Threads that designate only what held references reach leave garbage
alone. -/
theorem between_of_garbage (reached : Reached state) (idle : state.phase = .idle)
    (quiet : ∀ mutator, state.releasing mutator = [])
    (roots : ∀ thread ∈ threads, ∀ id, some id ∈ thread.pointers → FromHeld state id)
    (isGarbage : Garbage state garbage) :
    Between threads garbage {id | FromHeld state id} state where
  safe := safe_of_reached reached
  positive := positive_of_reached reached
  idle := idle
  quiet := quiet
  supported := by
    intro id fromHeld
    cases fromHeld with
    | held mutator id holds => exact Or.inl ⟨mutator, holds⟩
    | pointer source target alloc reached live member =>
        exact Or.inr ⟨source, reached, alloc, live, member⟩
  roots := roots
  apart := by
    intro id fromHeld
    induction fromHeld with
    | held mutator id holds => exact fun inGarbage => isGarbage.notHeld id inGarbage mutator holds
    | pointer source target alloc _ live member ih =>
        exact fun inGarbage => ih (isGarbage.isolated source alloc live target member inGarbage)
  notHeld := isGarbage.notHeld
  isolated := isGarbage.isolated

theorem data_of_collects (safe : Safe state) (collects : Collects state threads first) :
    state.trackingAllocs = [] ∨ ∀ thread ∈ threads, none ∉ thread.moduleData := by
  obtain ⟨begun, started, run, ended⟩ := collects
  by_cases nonempty : state.trackingAllocs = []
  · exact Or.inl nonempty
  · refine Or.inr fun thread member isNull => ?_
    obtain ⟨-, pushed, rfl, members⟩ := startCollect_cases safe nonempty started
    rcases meetsNull_run (Or.inr ⟨pushed, rfl, (members none).mpr
      ⟨thread, member, Or.inl isNull⟩⟩) run with crashed | ⟨stack, marking, -⟩
    · rw [crashed] at ended
      cases ended
    · rw [marking] at ended
      cases ended

/-- The next collection can mark if this one could. -/
theorem data_kept (between : Between threads garbage kept state)
    (collects : Collects state threads first)
    (data : state.trackingAllocs = [] ∨ ∀ thread ∈ threads, none ∉ thread.moduleData) :
    first.trackingAllocs = [] ∨ ∀ thread ∈ threads, none ∉ thread.moduleData := by
  rcases data with empty | data
  · obtain ⟨after, -, ⟨-, rfl⟩ | collecting⟩ := collects_spec between collects
    · exact Or.inl empty
    · refine Or.inl (List.eq_nil_iff_forall_not_mem.mpr fun id member => ?_)
      have tracked : id ∈ first.tracked := by
        rw [GcState.tracked, after.idle]
        exact member
      exact List.not_mem_nil (empty ▸ collecting.tracked id tracked)
  · exact Or.inr data

/-- Three collections free all garbage exactly when no garbage is on a cycle of
references, provided that the mark phase finds module data everywhere. -/
theorem reclaims_iff (reached : Reached state) (idle : state.phase = .idle)
    (quiet : ∀ mutator, state.releasing mutator = [])
    (roots : ∀ thread ∈ threads, ∀ id, some id ∈ thread.pointers → FromHeld state id)
    (isGarbage : Garbage state garbage) :
    Reclaims state threads garbage ↔
      (state.trackingAllocs = [] ∨ ∀ thread ∈ threads, none ∉ thread.moduleData) ∧
      ∀ id, ¬ Relation.TransGen (RefersWithin state.heap garbage) id id := by
  have between := between_of_garbage reached idle quiet roots isGarbage
  constructor
  · intro reclaims
    obtain ⟨_, _, _, one, _⟩ := id reclaims
    refine ⟨data_of_collects between.safe one, fun id cycle => ?_⟩
    have inGarbage : id ∈ garbage := by
      obtain ⟨_, _, edge⟩ := Relation.TransGen.tail'_iff.mp cycle
      exact edge.2.1
    exact not_reclaims_of_supported between (supported_of_cycles state garbage) cycle inGarbage
      reclaims
  · rintro ⟨data, acyclic⟩
    obtain ⟨first, one⟩ := collects_exists between data
    obtain ⟨afterOne, -, -⟩ := collects_spec between one
    obtain ⟨second, two⟩ := collects_exists afterOne (data_kept between one data)
    obtain ⟨afterTwo, -, -⟩ := collects_spec afterOne two
    obtain ⟨third, three⟩ := collects_exists afterTwo
      (data_kept afterOne two (data_kept between one data))
    obtain ⟨afterThree, -, -⟩ := collects_spec afterTwo three
    refine ⟨first, second, third, one, two, three, freed_of_acyclic afterThree
      (fun id => untracked_of_three between one two three) fun id cycle => ?_⟩
    refine acyclic id (Relation.TransGen.mono (fun source target refers => ?_) _ _ cycle)
    exact refersWithin_of_collects between one
      (refersWithin_of_collects afterOne two (refersWithin_of_collects afterTwo three refers))

end Reclaim

/-- All allocations are garbage when they are tracked and the only mutator holds none. -/
theorem garbage_of_limit {state : GcState 1} {garbage : Set ℕ}
    (all : ∀ id, id ∈ garbage ↔ id < state.heap.limit)
    (tracked : ∀ id < state.heap.limit, id ∈ state.trackingAllocs) (notHeld : state.held 0 = []) :
    Garbage state garbage where
  tracked id member := tracked id ((all id).mp member)
  notHeld := by
    intro id _ mutator
    rw [Subsingleton.elim mutator 0, notHeld]
    exact List.not_mem_nil
  isolated := by
    intro source alloc live _ _ _
    exact (all source).mpr (Heap.lt_limit live)

/-- Three ADTs, each with a field for the next one, of which the mutator lets the first go. -/
def droppedChain : List (Action 1) :=
  [Mutation.allocate .adt 1, .allocate .adt 1, .allocate .adt 1, .trackAllocation 0,
    .trackAllocation 1, .trackAllocation 2, .swapSlot 0 0 (some 1), .swapSlot 1 0 (some 2),
    .removeRef 0, .releaseNext].map solely

theorem reclaims_droppedChain :
    ∃ state : GcState 1, Transition.execute step init droppedChain = some state ∧
      RefersWithin state.heap {id | id < 3} 0 1 ∧ RefersWithin state.heap {id | id < 3} 1 2 ∧
      Reclaims state [] {id | id < 3} := by
  let state := (Transition.execute step init droppedChain).get (by decide)
  have reached : Reached state := reached_of_replay (Option.some_get _).symm
  have quiet : ∀ mutator, state.releasing mutator = [] := by decide
  have limit : state.heap.limit = 3 := by decide
  have isGarbage : Garbage state {id | id < 3} :=
    garbage_of_limit (by simp [limit]) (by decide) (by decide)
  have first : 1 ∈ ((state.heap.cells 0).get (by decide)).pointers := by decide
  have second : 2 ∈ ((state.heap.cells 1).get (by decide)).pointers := by decide
  have ordered : ∀ source < 3, ∀ alloc ∈ state.heap.cells source, ∀ target ∈ alloc.pointers,
      source < target := by decide
  have acyclic : ∀ id, ¬ Relation.TransGen (RefersWithin state.heap {id | id < 3}) id id := by
    intro id cycle
    have later : Relation.TransGen (· < ·) id id := by
      apply Relation.TransGen.mono _ _ _ cycle
      rintro source target ⟨inside, -, alloc, live, member⟩
      exact ordered source inside alloc live target member
    rw [Relation.transGen_eq_self] at later
    exact lt_irrefl id later
  exact ⟨state, (Option.some_get _).symm,
    ⟨by simp, by simp, _, (Option.some_get _).symm, first⟩,
    ⟨by simp, by simp, _, (Option.some_get _).symm, second⟩,
    (reclaims_iff reached (by decide) quiet (by simp) isGarbage).mpr ⟨by simp, acyclic⟩⟩

/-- An ADT whose own field designates it, let go by its only mutator. -/
def selfReference : List (Action 1) :=
  [Mutation.allocate .adt 1, .trackAllocation 0, .addRef 0, .swapSlot 0 0 (some 0),
    .removeRef 0, .releaseNext].map solely

theorem self_reference_not_reclaimed :
    ∃ state : GcState 1, Reached state ∧ state.phase = .idle ∧
      (∀ mutator, state.releasing mutator = []) ∧ Garbage state {0} ∧
        ¬ Reclaims state [] {0} := by
  let state := (Transition.execute step init selfReference).get (by decide)
  have reached : Reached state := reached_of_replay (Option.some_get _).symm
  have idle : state.phase = .idle := by decide
  have quiet : ∀ mutator, state.releasing mutator = [] := by decide
  have limit : state.heap.limit = 1 := by decide
  have isGarbage : Garbage state {0} :=
    garbage_of_limit (by simp [limit]) (by decide) (by decide)
  have between : Between [] {0} {id | FromHeld state id} state :=
    between_of_garbage reached idle quiet (by simp) isGarbage
  have points : 0 ∈ ((state.heap.cells 0).get (by decide)).pointers := by decide
  have supported : Supported state {0} := by
    rintro id rfl
    exact Or.inr ⟨0, rfl, _, (Option.some_get _).symm, points⟩
  exact ⟨state, reached, idle, quiet, isGarbage,
    not_reclaims_of_supported between supported rfl rfl⟩

end Disvm.GarbageCollector
