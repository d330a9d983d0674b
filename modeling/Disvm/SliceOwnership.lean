import Disvm.ArraySlices

/-!
# Ownership of array storage

With a heap that is sound for the slots and the tracked arrays, what a slot or a
slice designates is there.  The one step that can break this drops a slice
before it takes the reference to the array that the slice keeps alive.
-/

namespace Disvm.ArraySlices

open RefCounting ArrayState

variable {slotCount : ℕ}

/-- The references from outside the heap. -/
def outside (state : ArrayState slotCount) (id : ℕ) : ℕ :=
  state.holders id + state.tracked.count id

/-- What arrays and slices are. -/
structure Shaped (heap : ArrayHeap) (owners : List ℕ) : Prop where
  owner : ∀ id array, heap.cells id = some array → array.original = none →
    array.storage = id ∧ array.offset = 0 ∧ id ∈ owners
  slice : ∀ id array, heap.cells id = some array → array.original.isSome = true → id ∉ owners
  direct : ∀ id array original, heap.cells id = some array → array.original = some original →
    ∃ owner, heap.cells original = some owner ∧ owner.original = none ∧
      array.storage = original ∧ array.offset + array.length ≤ owner.length

structure Safe (state : ArrayState slotCount) : Prop where
  sound : Sound counted.toLayout state.heap (outside state)
  shaped : Shaped state.heap state.owners
  ownersOld : ∀ id ∈ state.owners, id < state.heap.limit
  untouched : ∀ id ∈ state.touchedFreed, id ∉ state.owners ∧ id < state.heap.limit

section Heaps

variable {heap later : ArrayHeap} {owners : List ℕ} {others : ℕ → ℕ}

/-- Arrays do not change their shape when others go. -/
theorem Shaped.shrink (shaped : Shaped heap owners) (shrinks : Shrinks counted heap later)
    (sound : Sound counted.toLayout later others) : Shaped later owners where
  owner id array live isOwner := by
    obtain ⟨earlier, found, same⟩ := shrinks.2 id array live
    rw [same] at isOwner ⊢
    exact shaped.owner id earlier found isOwner
  slice id array live isSlice := by
    obtain ⟨earlier, found, same⟩ := shrinks.2 id array live
    rw [same] at isSlice
    exact shaped.slice id earlier found isSlice
  direct id array original live isSlice := by
    obtain ⟨earlier, found, same⟩ := shrinks.2 id array live
    have refers : original ∈ counted.refs array := by
      simp [counted, isSlice]
    obtain ⟨owner, ownerLive⟩ := sound.live_of_refs live refers
    obtain ⟨before, ownerFound, ownerSame⟩ := shrinks.2 original owner ownerLive
    rw [same] at isSlice
    obtain ⟨known, isKnown, isOwner, storage, inside⟩ :=
      shaped.direct id earlier original found isSlice
    rw [ownerFound] at isKnown
    cases isKnown
    refine ⟨owner, ownerLive, ?_, ?_, ?_⟩
    · rw [ownerSame]
      exact isOwner
    · rw [same]
      exact storage
    · rw [same, ownerSame]
      exact inside

/-- A new array with storage of its own. -/
theorem Shaped.allocateOwner (shaped : Shaped heap owners) {array : VmArray}
    (isOwner : array.original = none)
    (storage : array.storage = heap.limit) (offset : array.offset = 0) :
    Shaped (heap.allocate array) (heap.limit :: owners) where
  owner id found live isOriginal := by
    by_cases same : id = heap.limit
    · subst same
      rw [Heap.allocate_self] at live
      cases live
      exact ⟨storage, offset, List.mem_cons_self⟩
    · rw [Heap.allocate_other same] at live
      obtain ⟨isStorage, isOffset, member⟩ := shaped.owner id found live isOriginal
      exact ⟨isStorage, isOffset, List.mem_cons_of_mem _ member⟩
  slice id found live isSlice := by
    have different : id ≠ heap.limit := by
      rintro rfl
      rw [Heap.allocate_self] at live
      cases live
      rw [isOwner] at isSlice
      cases isSlice
    rw [Heap.allocate_other different] at live
    exact List.not_mem_cons_of_ne_of_not_mem different (shaped.slice id found live isSlice)
  direct id found original live isSlice := by
    have different : id ≠ heap.limit := by
      rintro rfl
      rw [Heap.allocate_self] at live
      cases live
      rw [isOwner] at isSlice
      cases isSlice
    rw [Heap.allocate_other different] at live
    obtain ⟨owner, ownerLive, rest⟩ := shaped.direct id found original live isSlice
    exact ⟨owner, (Heap.allocate_other (Nat.ne_of_lt (Heap.lt_limit ownerLive)) _).trans ownerLive,
      rest⟩

/-- A new slice of an array that owns its storage. -/
theorem Shaped.allocateSlice (shaped : Shaped heap owners)
    (old : ∀ id ∈ owners, id < heap.limit) {array owner : VmArray} {original : ℕ}
    (isSlice : array.original = some original) (ownerLive : heap.cells original = some owner)
    (isOwner : owner.original = none) (storage : array.storage = original)
    (inside : array.offset + array.length ≤ owner.length) :
    Shaped (heap.allocate array) owners where
  owner id found live isOriginal := by
    have different : id ≠ heap.limit := by
      rintro rfl
      rw [Heap.allocate_self] at live
      cases live
      rw [isSlice] at isOriginal
      cases isOriginal
    rw [Heap.allocate_other different] at live
    exact shaped.owner id found live isOriginal
  slice id found live isSome := by
    by_cases same : id = heap.limit
    · subst same
      exact fun member => Nat.lt_irrefl _ (old _ member)
    · rw [Heap.allocate_other same] at live
      exact shaped.slice id found live isSome
  direct id found other live isSome := by
    have kept : ∀ {known cell}, heap.cells known = some cell →
        (heap.allocate array).cells known = some cell := fun isKnown =>
      (Heap.allocate_other (Nat.ne_of_lt (Heap.lt_limit isKnown)) _).trans isKnown
    by_cases same : id = heap.limit
    · subst same
      rw [Heap.allocate_self] at live
      cases live
      rw [isSlice] at isSome
      cases isSome
      exact ⟨owner, kept ownerLive, isOwner, storage, inside⟩
    · rw [Heap.allocate_other same] at live
      obtain ⟨known, isKnown, rest⟩ := shaped.direct id found other live isSome
      exact ⟨known, kept isKnown, rest⟩

end Heaps

section Operations

variable {state : ArrayState slotCount} {others after : ℕ → ℕ}

theorem holders_setSlot (state : ArrayState slotCount) (slot : Fin slotCount)
    (value : Option ℕ) (id : ℕ) :
    (state.setSlot slot value).holders id + (state.slots slot).toList.count id =
      state.holders id + value.toList.count id := by
  have changed := sum_update (fun other => (state.slots other).toList.count id) slot
    (value.toList.count id)
  have same : (fun other => ((state.setSlot slot value).slots other).toList.count id) =
      Function.update (fun other => (state.slots other).toList.count id) slot
        (value.toList.count id) := by
    funext other
    by_cases isOne : other = slot
    · subst isOne
      simp [setSlot]
    · simp [setSlot, isOne]
  unfold holders
  rw [same]
  exact changed

/-- Releasing a reference changes the heap only. -/
theorem decRefCountAndFree_spec (state : ArrayState slotCount) (pointer : Option ℕ)
    (after : ℕ → ℕ) (sound : Sound counted.toLayout state.heap others)
    (shaped : Shaped state.heap state.owners)
    (dropped : ∀ id, after id + pointer.toList.count id = others id) :
    ∃ heap, state.decRefCountAndFree pointer = { state with heap := heap } ∧
      Sound counted.toLayout heap after ∧ Shaped heap state.owners ∧
      heap.limit = state.heap.limit := by
  obtain ⟨heap, released, later, shrinks⟩ := release_sound sound dropped
  refine ⟨heap, ?_, later, shaped.shrink shrinks later, shrinks.1⟩
  unfold decRefCountAndFree
  rw [released]
  rfl

theorem touch_live {id : ℕ} {array : VmArray} (live : state.heap.cells id = some array) :
    state.touch id = state := by
  unfold touch
  rw [live]
  rfl

/-- Taking a reference to an array in the heap. -/
theorem addRef_spec (state : ArrayState slotCount)
    (sound : Sound counted.toLayout state.heap others)
    (shaped : Shaped state.heap state.owners) {id : ℕ} {array : VmArray}
    (live : state.heap.cells id = some array)
    (added : ∀ target, after target = others target + single id target) :
    ∃ heap, state.addRef id = { state with heap := heap } ∧
      Sound counted.toLayout heap after ∧ Shaped heap state.owners ∧
      heap.limit = state.heap.limit ∧
      ∃ later, heap.cells id = some later ∧ later.original = array.original ∧
        later.length = array.length := by
  have later := addRef_sound sound live added
  refine ⟨RefCounting.addRef counted state.heap id, ?_, later,
    shaped.shrink (shrinks_addRef id) later, rfl, _, Heap.modify_self live _, rfl, rfl⟩
  rw [ArrayState.addRef, touch_live live]

theorem safe_init : Safe (init : ArrayState slotCount) where
  sound := by
    refine Sound.empty.congr fun id => ?_
    simp [outside, holders, init]
  shaped := ⟨by simp [init, Heap.empty], by simp [init, Heap.empty], by simp [init, Heap.empty]⟩
  ownersOld := by simp [init]
  untouched := by simp [init]

/-- What a slot holds is in the heap. -/
theorem Safe.live_of_slot (safe : Safe state) {slot : Fin slotCount} {id : ℕ}
    (holds : state.slots slot = some id) : ∃ array, state.heap.cells id = some array := by
  refine safe.sound.live_of_outside ?_
  have released := holders_setSlot state slot none id
  rw [holds] at released
  simp only [Option.toList_some, List.count_cons_self, Option.toList_none, List.count_nil]
    at released
  unfold outside
  omega

/-- The references from outside without those of one slot. -/
def outsideWithout (state : ArrayState slotCount) (slot : Fin slotCount) (id : ℕ) : ℕ :=
  (state.setSlot slot none).holders id + state.tracked.count id

theorem outsideWithout_add (state : ArrayState slotCount) (slot : Fin slotCount) (id : ℕ) :
    outsideWithout state slot id + (state.slots slot).toList.count id = outside state id := by
  have released := holders_setSlot state slot none id
  rw [Option.toList_none, List.count_nil] at released
  unfold outsideWithout outside
  omega

theorem outside_setSlot (state : ArrayState slotCount) (slot : Fin slotCount)
    (value : Option ℕ) (id : ℕ) :
    outside (state.setSlot slot value) id =
      outsideWithout state slot id + value.toList.count id := by
  have changed := holders_setSlot state slot value id
  have released := holders_setSlot state slot none id
  rw [Option.toList_none, List.count_nil] at released
  unfold outside outsideWithout
  rw [show (state.setSlot slot value).tracked = state.tracked from rfl]
  omega

/-- References that a state has from outside depend on its slots and tracked
arrays. -/
theorem safe_of_heap {heap : ArrayHeap} (safe : Safe state)
    (limit : state.heap.limit ≤ heap.limit)
    (sound : Sound counted.toLayout heap others) (shaped : Shaped heap state.owners)
    {later : ArrayState slotCount} (isHeap : later.heap = heap)
    (owners : later.owners = state.owners) (touched : later.touchedFreed = state.touchedFreed)
    (same : ∀ id, outside later id = others id) : Safe later where
  sound := isHeap ▸ sound.congr same
  shaped := by
    rw [isHeap, owners]
    exact shaped
  ownersOld id member := by
    rw [isHeap]
    exact Nat.lt_of_lt_of_le (safe.ownersOld id (owners ▸ member)) limit
  untouched id member := by
    obtain ⟨notOwner, old⟩ := safe.untouched id (touched ▸ member)
    rw [owners, isHeap]
    exact ⟨notOwner, Nat.lt_of_lt_of_le old limit⟩

theorem safe_releaseSlot (safe : Safe state) (slot : Fin slotCount) :
    Safe (state.releaseSlot slot) := by
  obtain ⟨heap, released, sound, shaped, limit⟩ := decRefCountAndFree_spec state
    (state.slots slot) _ safe.sound safe.shaped (outsideWithout_add state slot)
  unfold releaseSlot
  rw [released]
  refine safe_of_heap safe (Nat.le_of_eq limit.symm) sound shaped rfl rfl rfl fun id => ?_
  have changed := outside_setSlot state slot none id
  rw [Option.toList_none, List.count_nil, Nat.add_zero] at changed
  exact changed

theorem safe_movp (safe : Safe state) (dest src : Fin slotCount) :
    Safe (state.movp dest src) := by
  have dropped := outsideWithout_add state dest
  unfold movp
  cases moved : state.slots src with
  | none =>
      obtain ⟨heap, released, sound, shaped, limit⟩ := decRefCountAndFree_spec
        (state.setSlot dest none) (state.slots dest) _ safe.sound safe.shaped dropped
      simp only [Option.elim_none]
      rw [released]
      refine safe_of_heap safe (Nat.le_of_eq limit.symm) sound shaped rfl rfl rfl fun id => ?_
      have changed := outside_setSlot state dest none id
      rw [Option.toList_none, List.count_nil, Nat.add_zero] at changed
      exact changed
  | some id =>
      obtain ⟨array, live⟩ := safe.live_of_slot moved
      obtain ⟨heap, added, sound, shaped, limit, -⟩ :=
        addRef_spec state safe.sound safe.shaped live fun _ => rfl
      simp only [Option.elim_some]
      rw [added]
      obtain ⟨later, released, laterSound, laterShaped, laterLimit⟩ := decRefCountAndFree_spec
        ({ state with heap := heap }.setSlot dest (some id)) (state.slots dest)
        (fun target => outsideWithout state dest target + single id target) sound shaped
        fun target => by
          have balance := dropped target
          omega
      rw [released]
      refine safe_of_heap safe (Nat.le_of_eq (laterLimit.trans limit).symm) laterSound laterShaped
        rfl rfl rfl fun target => ?_
      have changed := outside_setSlot state dest (some id) target
      rw [Option.toList_some, count_cons_single, List.count_nil, Nat.zero_add] at changed
      exact changed

theorem safe_newArray (safe : Safe state) (slot : Fin slotCount) (length : ℕ)
    (trackObject : Bool) : Safe (state.newArray slot (some length) trackObject) := by
  obtain ⟨heap, released, sound, shaped, limit⟩ := decRefCountAndFree_spec state
    (state.slots slot) _ safe.sound safe.shaped (outsideWithout_add state slot)
  unfold newArray
  rw [released]
  let array : VmArray :=
    { refCount := 1, length := length, original := none, storage := heap.limit, offset := 0 }
  let allocated : ArrayState slotCount := { state with
    heap := heap.allocate array
    owners := heap.limit :: state.owners }
  have allocSound : Sound counted.toLayout (heap.allocate array) fun id =>
      outsideWithout state slot id + single heap.limit id :=
    sound.allocate rfl rfl fun _ => rfl
  have allocShaped : Shaped (heap.allocate array) (heap.limit :: state.owners) :=
    shaped.allocateOwner rfl rfl rfl
  have ownersOld : ∀ id ∈ heap.limit :: state.owners, id < (heap.allocate array).limit := by
    intro id member
    rw [show (heap.allocate array).limit = heap.limit + 1 from rfl]
    rcases List.mem_cons.mp member with rfl | earlier
    · exact Nat.lt_succ_self _
    · have old := safe.ownersOld id earlier
      omega
  have untouched : ∀ id ∈ state.touchedFreed,
      id ∉ heap.limit :: state.owners ∧ id < (heap.allocate array).limit := by
    intro id member
    obtain ⟨notOwner, old⟩ := safe.untouched id member
    rw [show (heap.allocate array).limit = heap.limit + 1 from rfl]
    refine ⟨List.not_mem_cons_of_ne_of_not_mem ?_ notOwner, ?_⟩ <;> omega
  have slotHolds : ∀ id, outside (allocated.setSlot slot (some heap.limit)) id =
      outsideWithout state slot id + single heap.limit id := by
    intro id
    have changed := outside_setSlot allocated slot (some heap.limit) id
    rw [Option.toList_some, count_cons_single, List.count_nil, Nat.zero_add] at changed
    exact changed
  cases trackObject with
  | false => exact ⟨allocSound.congr slotHolds, allocShaped, ownersOld, untouched⟩
  | true =>
      obtain ⟨later, added, laterSound, laterShaped, laterLimit, -⟩ :=
        addRef_spec allocated allocSound allocShaped (Heap.allocate_self array)
          fun _ => rfl
      simp only [if_true, trackAllocation]
      rw [show allocated.addRef heap.limit = _ from added]
      rw [← show later.limit = (heap.allocate array).limit from laterLimit] at ownersOld untouched
      refine ⟨laterSound.congr fun id => ?_, laterShaped, ownersOld, untouched⟩
      have held := slotHolds id
      unfold outside at held ⊢
      dsimp only [allocated, setSlot, holders] at held ⊢
      rw [count_cons_single]
      omega

/-- Without overflow the slice lies in the array. -/
theorem sliceable_bounds {array : VmArray} {beginIndex endIndex : ℤ}
    (sliceable : Sliceable array beginIndex endIndex) (isWord : IsWord endIndex)
    (noOverflow : -2 ^ 31 ≤ endIndex - beginIndex) :
    beginIndex.toNat + (wordSub endIndex beginIndex).toNat ≤ array.length := by
  unfold Sliceable at sliceable
  unfold IsWord at isWord
  have exact : wordSub endIndex beginIndex = endIndex - beginIndex := by
    refine Int.bmod_eq_of_le ?_ ?_ <;> omega
  rw [exact] at sliceable ⊢
  omega

theorem safe_putSlice {later : ArrayState slotCount} {array owner : VmArray}
    {original : ℕ} {beginIndex length : ℤ} {slot : Fin slotCount}
    (sound : Sound counted.toLayout later.heap fun id =>
      outsideWithout later slot id + single original id)
    (shaped : Shaped later.heap later.owners)
    (ownersOld : ∀ id ∈ later.owners, id < later.heap.limit)
    (untouched : ∀ id ∈ later.touchedFreed, id ∉ later.owners ∧ id < later.heap.limit)
    (ownerLive : later.heap.cells original = some owner) (isOwner : owner.original = none)
    (storage : array.storage = original)
    (inside : array.offset + beginIndex.toNat + length.toNat ≤ owner.length) :
    Safe ((later.putSlice array original beginIndex length).setSlot slot
      (some later.heap.limit)) where
  sound := by
    refine sound.allocateWith rfl fun id => ?_
    have changed := outside_setSlot (later.putSlice array original beginIndex length) slot
      (some later.heap.limit) id
    rw [Option.toList_some, count_cons_single, List.count_nil, Nat.zero_add] at changed
    rw [changed]
    simp only [counted, Option.toList_some, count_cons_single, List.count_nil]
    rw [show outsideWithout (later.putSlice array original beginIndex length) slot id =
      outsideWithout later slot id from rfl]
    omega
  shaped := shaped.allocateSlice ownersOld rfl ownerLive isOwner storage inside
  ownersOld id member := Nat.lt_succ_of_lt (ownersOld id member)
  untouched id member := by
    obtain ⟨notOwner, old⟩ := untouched id member
    exact ⟨notOwner, Nat.lt_succ_of_lt old⟩

/-- The array that owns the storage of a slice survives the slice when one of
them has another holder. -/
theorem owner_survives {heap : ArrayHeap} {arr original : ℕ} {array owner : VmArray}
    (live : heap.cells arr = some array) (isSlice : array.original = some original)
    (ownerLive : heap.cells original = some owner) (isOwner : owner.original = none)
    (shared : array.refCount = 1 → owner.refCount ≠ 1) :
    ∃ later, (release counted heap [arr]).1.cells original = some later ∧
      later.original = none ∧ later.length = owner.length := by
  have different : original ≠ arr := by
    rintro rfl
    rw [live] at ownerLive
    cases ownerLive
    rw [isSlice] at isOwner
    cases isOwner
  by_cases last : array.refCount = 1
  · have stays : (heap.erase arr).cells original = some owner :=
      (Heap.erase_other different).trans ownerLive
    have refs : counted.refs array ++ [] = [original] := by
      simp [counted, isSlice]
    rw [release_last live last, refs, release_shared stays (shared last), release_nil]
    exact ⟨_, Heap.modify_self stays _, isOwner, rfl⟩
  · rw [release_shared live last, release_nil]
    exact ⟨owner, (Heap.modify_other different _).trans ownerLive, isOwner, rfl⟩

/-- The slice's constructor has not run yet when the old one is looked at. -/
theorem touch_putSlice {arr : ℕ} (old : arr < state.heap.limit) (array : VmArray)
    (original : ℕ) (beginIndex length : ℤ) :
    (state.putSlice array original beginIndex length).touch arr =
      (state.touch arr).putSlice array original beginIndex length := by
  unfold touch putSlice
  dsimp only
  rw [Heap.allocate_other (Nat.ne_of_lt old)]
  split <;> rfl

theorem safe_slicea (safe : Safe state) (slot : Fin slotCount) {beginIndex endIndex : ℤ}
    (isWord : IsWord endIndex)
    (permitted : Permitted state (.slicea slot beginIndex endIndex)) :
    Safe (state.slicea slot beginIndex endIndex) := by
  unfold slicea
  cases holds : state.slots slot with
  | none => exact safe
  | some arr =>
      obtain ⟨array, live⟩ := safe.live_of_slot holds
      have old : arr < state.heap.limit := Heap.lt_limit live
      simp only [live]
      by_cases checked : beginIndex < 0 ∨ array.length < endIndex ∨ wordSub endIndex beginIndex < 0
      · rw [if_pos checked]
        exact safe
      · rw [if_neg checked]
        obtain ⟨noOverflow, shared⟩ := permitted arr array holds live checked
        have bounds := sliceable_bounds checked isWord noOverflow
        have taken := outsideWithout_add state slot
        simp only [holds, Option.toList_some, count_cons_single, List.count_nil, Nat.zero_add]
          at taken
        unfold makeSlice
        cases isSlice : array.original with
        | none =>
            obtain ⟨storage, offset, -⟩ := safe.shaped.owner arr array live isSlice
            simp only
            rw [touch_putSlice old, touch_live live]
            exact safe_putSlice (safe.sound.congr taken) safe.shaped safe.ownersOld
              safe.untouched live isSlice storage (by omega)
        | some original =>
            obtain ⟨owner, ownerLive, isOwner, storage, inside⟩ :=
              safe.shaped.direct arr array original live isSlice
            obtain ⟨heap, released, sound, shaped, limit⟩ := decRefCountAndFree_spec state
              (some arr) (outsideWithout state slot) safe.sound safe.shaped fun id => by
                rw [Option.toList_some, count_cons_single, List.count_nil, Nat.zero_add]
                exact taken id
            obtain ⟨later, laterLive, isLaterOwner, laterLength⟩ := owner_survives live isSlice
              ownerLive isOwner (shared original owner isSlice ownerLive)
            have isHeap : (release counted state.heap [arr]).1 = heap :=
              congrArg ArrayState.heap released
            rw [isHeap] at laterLive
            obtain ⟨final, added, finalSound, finalShaped, finalLimit, last, lastLive, isLast,
              lastLength⟩ := addRef_spec { state with heap := heap } sound shaped
                laterLive fun _ => rfl
            simp only
            rw [released, added]
            have sameLimit : final.limit = state.heap.limit := finalLimit.trans limit
            rw [touch_putSlice (by exact sameLimit ▸ old), ← sameLimit]
            have notOwner := safe.shaped.slice arr array live (by rw [isSlice]; rfl)
            have fits : array.offset + beginIndex.toNat +
                (wordSub endIndex beginIndex).toNat ≤ last.length := by
              rw [lastLength, laterLength]
              omega
            have isOwnerLast : last.original = none := isLast.trans isLaterOwner
            have untouched : ∀ id ∈ arr :: state.touchedFreed,
                id ∉ state.owners ∧ id < final.limit := by
              intro id member
              rw [sameLimit]
              rcases List.mem_cons.mp member with rfl | earlier
              · exact ⟨notOwner, old⟩
              · exact safe.untouched id earlier
            unfold touch
            split
            · exact safe_putSlice finalSound finalShaped
                (fun id member => sameLimit ▸ safe.ownersOld id member)
                (fun id member => untouched id (List.mem_cons_of_mem _ member)) lastLive
                isOwnerLast storage fits
            · exact safe_putSlice finalSound finalShaped
                (fun id member => sameLimit ▸ safe.ownersOld id member) untouched lastLive
                isOwnerLast storage fits

end Operations

/-- The states of runs whose steps are permitted. -/
def Reached : ArrayState slotCount → Prop :=
  Transition.Reachable (· = init) (Transition.StepsBy Permitted step)

theorem safe_step {before after : ArrayState slotCount} (safe : Safe before)
    {action : Action slotCount} (permitted : Permitted before action)
    (stepped : before.step action = some after) : Safe after := by
  cases action with
  | newa slot length trackObject =>
      obtain ⟨size, rfl⟩ := Option.isSome_iff_exists.mp permitted
      simp only [step, Option.ite_none_right_eq_some, Option.some.injEq] at stepped
      exact stepped.2 ▸ safe_newArray safe slot size trackObject
  | slicea slot beginIndex endIndex =>
      simp only [step, Option.ite_none_right_eq_some, Option.some.injEq] at stepped
      exact stepped.2 ▸ safe_slicea safe slot stepped.1.2 permitted
  | movp dest src =>
      cases stepped
      exact safe_movp safe dest src
  | releaseSlot slot =>
      cases stepped
      exact safe_releaseSlot safe slot

theorem safe_of_reached {state : ArrayState slotCount} (reached : Reached state) :
    Safe state := by
  refine Transition.Reachable.invariant Safe ?_ ?_ reached
  · rintro first rfl
    exact safe_init
  · rintro before after _ safe ⟨action, permitted, stepped⟩
    exact safe_step safe permitted stepped

/-- The references of slices to an array are the slices of it. -/
theorem incoming_eq_slicesOf {state : ArrayState slotCount}
    (shaped : Shaped state.heap state.owners) (id : ℕ) :
    incoming counted.toLayout state.heap id = state.slicesOf id := by
  unfold slicesOf
  rw [Finset.card_filter]
  refine Finset.sum_congr rfl fun slice _ => ?_
  cases live : state.heap.cells slice with
  | none => simp [weight, IsSliceOf]
  | some array =>
      cases isSlice : array.original with
      | none => simp [weight, IsSliceOf, counted, isSlice]
      | some original =>
          obtain ⟨-, -, -, storage, -⟩ := shaped.direct slice array original live isSlice
          simp [weight, IsSliceOf, counted, isSlice, storage, List.count_singleton]

/-- In every run of permitted steps array storage is owned. -/
theorem storage_owned {state : ArrayState slotCount} (reached : Reached state) :
    state.Owned where
  counts id array live isOwner := by
    have safe := safe_of_reached reached
    have counts : array.refCount = _ := safe.sound.refCount live
    rw [counts, incoming_eq_slicesOf safe.shaped]
    unfold outside
    omega
  direct := (safe_of_reached reached).shaped.direct
  reached slot id holds := by
    have safe := safe_of_reached reached
    obtain ⟨array, live⟩ := safe.live_of_slot holds
    refine ⟨array, live, ?_⟩
    cases isSlice : array.original with
    | none =>
        rw [(safe.shaped.owner id array live isSlice).1, live]
        rfl
    | some original =>
        obtain ⟨owner, ownerLive, -, storage, -⟩ :=
          safe.shaped.direct id array original live isSlice
        rw [storage, ownerLive]
        rfl
  untouched id member := ((safe_of_reached reached).untouched id member).1

theorem reached_next {before after : ArrayState slotCount} {action : Action slotCount}
    (reached : Reached before) (permitted : Permitted before action)
    (stepped : before.step action = some after) : Reached after :=
  Transition.Reachable.next reached ⟨action, permitted, stepped⟩

/-- A slice and another holder of it; then a slice of the slice. -/
theorem storage_owned_shared : ∃ state : ArrayState 2, Reached state ∧
    state.slots 0 = some 2 ∧ state.slots 1 = some 1 ∧ state.Owned := by
  let first := (step (init : ArrayState 2) (.newa 0 (some 10) false)).get (by decide)
  let second := (step first (.slicea 0 2 8)).get (by decide)
  let third := (step second (.movp 1 0)).get (by decide)
  let last := (step third (.slicea 0 1 3)).get (by decide)
  have started : Reached (init : ArrayState 2) := Transition.Reachable.start rfl
  have atFirst : Reached first :=
    reached_next started (show Permitted init (.newa 0 (some 10) false) from rfl)
      (Option.some_get _).symm
  have atSecond : Reached second := by
    refine reached_next atFirst ?_ (Option.some_get _).symm
    intro arr array holds live _
    refine ⟨by decide, fun original owner isSlice => ?_⟩
    have isFirst : arr = 0 := Option.some.inj (holds.symm.trans (by decide))
    subst isFirst
    have noSlice : ∀ cell ∈ first.heap.cells 0, cell.original = none := by decide
    rw [noSlice array live] at isSlice
    cases isSlice
  have atThird : Reached third :=
    reached_next atSecond (show Permitted second (.movp 1 0) from trivial) (Option.some_get _).symm
  have atLast : Reached last := by
    refine reached_next atThird ?_ (Option.some_get _).symm
    intro arr array holds live _
    refine ⟨by decide, fun original owner _ _ single => ?_⟩
    have isSecond : arr = 1 := Option.some.inj (holds.symm.trans (by decide))
    subst isSecond
    have shared : ∀ cell ∈ third.heap.cells 1, cell.refCount ≠ 1 := by decide
    exact absurd single (shared array live)
  exact ⟨last, atLast, by decide, by decide, storage_owned atLast⟩

/-- A slice of a slice in a program's only slot: the old slice had the last
reference to the array. -/
theorem slice_of_slice_not_owned : ∃ state : ArrayState 1,
    Transition.execute step init [.newa 0 (some 10) false, .slicea 0 2 8, .slicea 0 1 3] =
      some state ∧ ¬ state.Owned := by
  let state := (Transition.execute step (init : ArrayState 1)
    [.newa 0 (some 10) false, .slicea 0 2 8, .slicea 0 1 3]).get (by decide)
  refine ⟨state, (Option.some_get _).symm, fun owned => ?_⟩
  have touched : 0 ∈ state.touchedFreed := by decide
  have isOwner : 0 ∈ state.owners := by decide
  exact owned.untouched 0 touched isOwner

end Disvm.ArraySlices
