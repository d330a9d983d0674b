import Disvm.CallDiscipline
import Disvm.SlotReferences

/-!
# Program data

Instructions that store pointers move references between the data of frames, the
heap and the instruction; the registers and the records do not change.
-/

namespace Disvm.ModuleCalls

open RefCounting ThreadState

section Slots

variable {frame : Frame} {offset : ℕ} {value : Option ℕ}

theorem count_pointers_setSlot (member : offset ∈ frame.frameType.pointers) (value : Option ℕ)
    (id : ℕ) :
    (frame.setSlot offset value).pointers.count id + (frame.slots offset).toList.count id =
      frame.pointers.count id + value.toList.count id :=
  count_filterMap_update frame.frameType.nodup member frame.slots value id

/-- One frame of several changes. -/
theorem count_flatMap_modify {frames : List Frame} {depth : ℕ} (found : frames[depth]? = some frame)
    (change : Frame → Frame) (id : ℕ) :
    ((frames.modify depth change).flatMap Frame.pointers).count id + frame.pointers.count id =
      (frames.flatMap Frame.pointers).count id + (change frame).pointers.count id := by
  induction frames generalizing depth with
  | nil => cases found
  | cons first frames ih =>
      cases depth with
      | zero =>
          cases found
          simp only [List.modify_zero_cons, List.flatMap_cons, List.count_append]
          omega
      | succ depth =>
          have later := @ih depth found
          simp only [List.modify_succ_cons, List.flatMap_cons, List.count_append]
          omega

theorem map_links_modify (frames : List Frame) (depth : ℕ) {change : Frame → Frame}
    (same : ∀ frame, (change frame).links = frame.links) :
    (frames.modify depth change).map Frame.links = frames.map Frame.links := by
  induction frames generalizing depth with
  | nil => rw [List.modify_nil]
  | cons first frames ih =>
      cases depth with
      | zero => rw [List.modify_zero_cons, List.map_cons, List.map_cons, same]
      | succ depth => rw [List.modify_succ_cons, List.map_cons, List.map_cons, ih]

end Slots

section Places

variable {extra : List ℕ} {state : ThreadState} {frame : Frame} {offset : ℕ}
  {value previous : Option ℕ}

theorem frameSlot_some (found : frameSlot frame offset = some previous) :
    offset ∈ frame.frameType.pointers ∧ frame.slots offset = previous := by
  unfold frameSlot at found
  split_ifs at found with member
  exact ⟨member, Option.some.inj found⟩

theorem mem_pointers {id : ℕ} (found : frameSlot frame offset = some (some id)) :
    id ∈ frame.pointers := by
  obtain ⟨member, isSlot⟩ := frameSlot_some found
  exact List.mem_filterMap.mpr ⟨offset, member, isSlot⟩

/-- A slot takes a reference over and gives its own one up. -/
theorem SafeWith.setSlot (depth : ℕ) (value : Option ℕ)
    (safe : SafeWith (value.toList ++ extra) state)
    (found : state.frames[depth]? = some frame) (isSlot : frameSlot frame offset = some previous) :
    SafeWith (previous.toList ++ extra) { state with
      frames := state.frames.modify depth fun frame => frame.setSlot offset value } where
  sound := safe.sound.congr fun id => by
    obtain ⟨member, rfl⟩ := frameSlot_some isSlot
    have one := count_pointers_setSlot member value id
    have all := count_flatMap_modify found (fun frame => frame.setSlot offset value) id
    simp only [references, frameRefs, List.flatMap_append, List.count_append]
    omega
  chained := safe.chained.congr (map_links_modify _ _ fun _ => rfl)
  modules := safe.modules
  allocatedAddress := by
    rw [List.length_modify]
    exact safe.allocatedAddress
  untouched := safe.untouched
  kept := safe.kept

theorem SafeWith.setArgument (safe : SafeWith (value.toList ++ extra) state)
    (found : state.allocated = some frame) (isSlot : frameSlot frame offset = some previous) :
    SafeWith (previous.toList ++ extra) { state with
      allocated := state.allocated.map fun frame => frame.setSlot offset value } where
  sound := safe.sound.congr fun id => by
    obtain ⟨member, rfl⟩ := frameSlot_some isSlot
    have one := count_pointers_setSlot member value id
    simp only [references, frameRefs, found, Option.map_some, Option.toList_some,
      List.flatMap_append, List.flatMap_cons, List.flatMap_nil, List.append_nil,
      List.count_append]
    omega
  chained := safe.chained
  modules := safe.modules
  allocatedAddress changed member := by
    rw [found] at member
    cases member
    exact safe.allocatedAddress frame found
  untouched := safe.untouched
  kept := safe.kept

theorem SafeWith.setField {id index : ℕ} {fields : List (Option ℕ)}
    (safe : SafeWith (value.toList ++ extra) state)
    (isData : contentAt state.heap id = some (.data fields))
    (isField : fields[index]? = some previous) :
    SafeWith (previous.toList ++ extra) { state with
      heap := state.heap.modify id (ThreadState.setField index value) } := by
  obtain ⟨alloc, live, isContent⟩ := live_of_contentAt isData
  have isSet : ThreadState.setField index value alloc =
      { alloc with content := .data (fields.set index value) } := by
    unfold ThreadState.setField
    rw [isContent]
  have inside : index < fields.length := (List.getElem?_eq_some_iff.mp isField).1
  refine safe.setHeap ?_ fun other _ _ => ?_
  · refine safe.sound.modify live _ fun target => ?_
    have changed := count_reduceOption_set inside value target
    rw [isField, Option.join_some] at changed
    rw [isSet]
    simp only [counted, Content.refs, isContent, List.count_append]
    omega
  · unfold moduleRefAt contentAt
    by_cases same : other = id
    · subst same
      rw [Heap.modify_self live, live, Option.map_some, Option.map_some, isSet, isContent]
    · rw [Heap.modify_other same]

/-- What a place holds is in the heap. -/
theorem SafeWith.live_of_place (safe : SafeWith extra state) {place : Place} {id : ℕ}
    (found : state.readPlace place = some (some id)) : ∃ cell, state.heap.cells id = some cell := by
  have inFrames : ∀ frame ∈ state.allocated.toList ++ state.frames, ∀ offset,
      frameSlot frame offset = some (some id) → id ∈ state.references ++ extra := by
    intro frame member offset isSlot
    refine List.mem_append_left _ (List.mem_append_left _ (List.mem_append_left _
      (List.mem_append_left _ ?_)))
    exact List.mem_flatMap.mpr ⟨frame, member, mem_pointers isSlot⟩
  cases place with
  | slot depth offset =>
      obtain ⟨frame, isFrame, isSlot⟩ := Option.bind_eq_some_iff.mp found
      exact safe.live (inFrames frame
        (List.mem_append_right _ (List.mem_of_getElem? isFrame)) offset isSlot)
  | argument offset =>
      obtain ⟨frame, isFrame, isSlot⟩ := Option.bind_eq_some_iff.mp found
      exact safe.live (inFrames frame
        (List.mem_append_left _ (Option.mem_toList.mpr isFrame)) offset isSlot)
  | field holder index =>
      unfold readPlace at found
      dsimp only at found
      split at found
      · rename_i fields isData
        obtain ⟨alloc, live, isContent⟩ := live_of_contentAt isData
        refine safe.sound.live_of_refs live ?_
        simp only [counted, isContent, Content.refs]
        exact List.reduceOption_mem_iff.mpr (List.mem_of_getElem? found)
      · cases found

theorem SafeWith.writePlace {dest : Place} (safe : SafeWith (value.toList ++ extra) state)
    (found : state.readPlace dest = some previous) :
    SafeWith (previous.toList ++ extra) (state.writePlace value dest) := by
  cases dest with
  | slot depth offset =>
      obtain ⟨frame, isFrame, isSlot⟩ := Option.bind_eq_some_iff.mp found
      exact safe.setSlot depth value isFrame isSlot
  | argument offset =>
      obtain ⟨frame, isFrame, isSlot⟩ := Option.bind_eq_some_iff.mp found
      exact safe.setArgument isFrame isSlot
  | field id index =>
      unfold readPlace at found
      dsimp only at found
      split at found
      · rename_i fields isData
        exact safe.setField isData found
      · cases found

end Places

section Values

variable {extra : List ℕ} {state : ThreadState}

/-- The heap grows, and nothing else changes. -/
def Grows (state made : ThreadState) : Prop :=
  ∃ heap, made = { state with heap := heap } ∧
    ∀ id, (∃ cell, state.heap.cells id = some cell) → contentAt heap id = contentAt state.heap id

theorem Grows.refl : Grows state state :=
  ⟨state.heap, rfl, fun _ _ => rfl⟩

theorem Grows.live {made : ThreadState} (grows : Grows state made) {id : ℕ}
    (live : ∃ cell, state.heap.cells id = some cell) : ∃ cell, made.heap.cells id = some cell := by
  obtain ⟨heap, rfl, kept⟩ := grows
  obtain ⟨cell, found⟩ := live
  have isContent : contentAt heap id = some cell.content := by
    rw [kept id ⟨cell, found⟩]
    unfold contentAt
    rw [found]
    rfl
  obtain ⟨later, isLater, -⟩ := live_of_contentAt isContent
  exact ⟨later, isLater⟩

theorem Grows.trans {made later : ThreadState} (first : Grows state made)
    (second : Grows made later) : Grows state later := by
  have stays := fun id => @Grows.live _ _ first id
  obtain ⟨heap, rfl, kept⟩ := first
  obtain ⟨last, rfl, laterKept⟩ := second
  exact ⟨last, rfl, fun id live => (laterKept id (stays id live)).trans (kept id live)⟩

theorem grows_addRef {id : ℕ} (live : ∃ cell, state.heap.cells id = some cell) :
    Grows state (state.addRef id) :=
  ⟨_, addRef_eq state live, fun _ _ => contentAt_addRef id⟩

theorem grows_allocate (content : Content) : Grows state (state.allocate content).1 :=
  ⟨_, rfl, fun _ live => contentAt_allocate live _⟩

theorem Grows.readPlace {made : ThreadState} (grows : Grows state made) {place : Place}
    {value : Option ℕ} (found : state.readPlace place = some value) :
    made.readPlace place = some value := by
  obtain ⟨heap, rfl, kept⟩ := grows
  cases place with
  | slot depth offset => exact found
  | argument offset => exact found
  | field id index =>
      unfold ThreadState.readPlace at found ⊢
      dsimp only at found ⊢
      split at found
      · rename_i fields isData
        obtain ⟨alloc, live, -⟩ := live_of_contentAt isData
        rw [kept id ⟨alloc, live⟩, isData]
        exact found
      · cases found

theorem safe_allocate (content : Content) (extra : List ℕ)
    (safe : SafeWith (content.refs ++ extra) state) :
    SafeWith (state.heap.limit :: extra) (state.allocate content).1 := by
  refine safe.setHeap ?_ fun id _ live => moduleRefAt_congr (contentAt_allocate live _)
  refine safe.sound.allocateWith rfl fun target => ?_
  simp only [counted, List.count_append, count_cons_single]
  omega

theorem safe_addRefs {pointers : List ℕ} (safe : SafeWith extra state)
    (live : ∀ id ∈ pointers, ∃ cell, state.heap.cells id = some cell) :
    SafeWith (pointers ++ extra) (pointers.foldl ThreadState.addRef state) ∧
      Grows state (pointers.foldl ThreadState.addRef state) := by
  induction pointers generalizing extra state with
  | nil => exact ⟨safe, Grows.refl⟩
  | cons id pointers ih =>
      have isLive := live id List.mem_cons_self
      have grows := grows_addRef isLive
      obtain ⟨added, grown⟩ := ih (safe.addRef isLive) fun other member =>
        grows.live (live other (List.mem_cons_of_mem _ member))
      refine ⟨added.perm _ fun target => ?_, grows.trans grown⟩
      simp only [List.cons_append, List.count_append, count_cons_single]
      omega

theorem safe_newModuleRef (safe : SafeWith extra state) {module : Module}
    {functionRefs : List FunctionRef} {made : ThreadState} {pointer : Option ℕ}
    (isMade : state.newModuleRef module functionRefs = some (made, pointer)) :
    SafeWith (pointer.toList ++ extra) made ∧ Grows state made := by
  unfold newModuleRef at isMade
  split at isMade
  · cases isMade
    exact ⟨safe_allocate _ extra safe, grows_allocate _⟩
  · rename_i originalMp isOriginal
    split at isMade
    · rename_i fields isData
      obtain ⟨alloc, live, isContent⟩ := live_of_contentAt isData
      have fieldsLive : ∀ id ∈ fields.reduceOption, ∃ cell, state.heap.cells id = some cell := by
        intro id member
        refine safe.sound.live_of_refs live ?_
        simp only [counted, isContent, Content.refs]
        exact member
      obtain ⟨added, grows⟩ := safe_addRefs safe fieldsLive
      have copied := safe_allocate (.data fields) extra added
      cases isMade
      refine ⟨safe_allocate _ extra copied, ?_⟩
      exact grows.trans ((grows_allocate _).trans (grows_allocate _))
    · cases isMade

theorem safe_evaluate (safe : SafeWith extra state) {value : Value} {made : ThreadState}
    {pointer : Option ℕ} (isMade : state.evaluate value = some (made, pointer)) :
    SafeWith (pointer.toList ++ extra) made ∧ Grows state made := by
  cases value with
  | nil =>
      cases isMade
      exact ⟨safe, Grows.refl⟩
  | copy source =>
      obtain ⟨found, isFound, same⟩ := Option.map_eq_some_iff.mp isMade
      cases same
      cases pointer with
      | none => exact ⟨safe, Grows.refl⟩
      | some id =>
          have live := safe.live_of_place isFound
          exact ⟨safe.addRef live, grows_addRef live⟩
  | string runes =>
      cases isMade
      exact ⟨safe_allocate (.string runes) extra safe, grows_allocate _⟩
  | record fields =>
      cases isMade
      have empty : (Content.data (List.replicate fields none)).refs = [] :=
        List.reduceOption_replicate_none
      refine ⟨safe_allocate _ extra ?_, grows_allocate _⟩
      rw [empty]
      exact safe
  | module module functionRefs => exact safe_newModuleRef safe isMade

/-- A store keeps all but the heap and the data of frames. -/
theorem safe_store (safe : SafeWith extra state) {value : Value} {dest : Place}
    {after : ThreadState} (isAfter : state.store value dest = some after) :
    SafeWith extra after ∧ after.frames.map Frame.links = state.frames.map Frame.links ∧
      after.control = state.control := by
  unfold ThreadState.store at isAfter
  split at isAfter
  · rename_i previous made pointer isPrevious isMade
    cases isAfter
    obtain ⟨made', grows⟩ := safe_evaluate safe isMade
    have written := made'.writePlace (grows.readPlace isPrevious)
    obtain ⟨later, released, isSafe, -⟩ := written.release
    obtain ⟨heap, rfl, -⟩ := grows
    have isReleased : (ThreadState.writePlace { state with heap := heap } pointer
        dest).decRefCountAndFree previous = { ThreadState.writePlace { state with heap := heap }
          pointer dest with heap := later } := released
    rw [isReleased]
    refine ⟨isSafe, ?_, ?_⟩
    · cases dest with
      | slot depth offset => exact map_links_modify _ _ fun _ => rfl
      | argument offset => rfl
      | field id index => rfl
    · cases dest <;> rfl
  · cases isAfter

end Values

end Disvm.ModuleCalls
