import Disvm.RefSurvivors
import Disvm.SlotReferences

/-!
# Objects and the memory of a program

The words of frames and module data, and those of objects.  A word holds a pointer or a
value; a region is a run of words of one owner.  The last word of a value counts as one even
if the value ends inside it.
-/

namespace Disvm.ObjectMemory

open RefCounting

inductive Word where
  | data (value : BitVec 32)
  | pointer (target : Option ℕ)
  deriving DecidableEq, Repr

def Word.target : Word → Option ℕ
  | .data _ => none
  | .pointer target => target

def Word.isPointer : Word → Bool
  | .data _ => false
  | .pointer _ => true

/-- The objects that words refer to. -/
def targets (words : List Word) : List ℕ :=
  (words.map Word.target).reduceOption

/-- `flags[7 - offset % 8]` of the byte for the offset. -/
def designates (pointerMap : List UInt8) (offset : ℕ) : Bool :=
  match pointerMap[offset / 8]? with
  | none => false
  | some words8 => words8.toNat.testBit (7 - offset % 8)

/-- `type_descriptor_t`.  The map designates words of the type. -/
structure TypeDescriptor where
  sizeInBytes : ℕ
  pointerMap : List UInt8
  finalizer : Option ℕ
  fits : ∀ offset < 8 * pointerMap.length, designates pointerMap offset = true →
    4 * offset + 4 ≤ sizeInBytes
  deriving DecidableEq, Repr

namespace TypeDescriptor

def mapInBytes (type : TypeDescriptor) : ℕ :=
  type.pointerMap.length

def wordCount (type : TypeDescriptor) : ℕ :=
  (type.sizeInBytes + 3) / 4

/-- The offsets of `enum_pointer_fields`, in its order. -/
def pointerOffsets (type : TypeDescriptor) : List ℕ :=
  (List.range (8 * type.mapInBytes)).filter (designates type.pointerMap)

/-- Memory that is initialised to zero. -/
def zeroed (type : TypeDescriptor) : List Word :=
  (List.range type.wordCount).map fun offset =>
    if offset ∈ type.pointerOffsets then .pointer none else .data 0

/-- For each word whether it is a pointer. -/
def layout (type : TypeDescriptor) : List Bool :=
  (List.range type.wordCount).map fun offset => decide (offset ∈ type.pointerOffsets)

/-- The words are of the type. -/
def Fits (type : TypeDescriptor) (words : List Word) : Prop :=
  words.map Word.isPointer = type.layout

instance (type : TypeDescriptor) (words : List Word) : Decidable (type.Fits words) :=
  inferInstanceAs (Decidable (words.map Word.isPointer = type.layout))

end TypeDescriptor

/-- `intrinsic_type_desc::type<pointer_t>`. -/
def pointerType : TypeDescriptor where
  sizeInBytes := 4
  pointerMap := [0x80]
  finalizer := none
  fits := by decide

/-- What an object has besides its words. -/
inductive AllocKind where
  | record
  | list (elementType : TypeDescriptor) (tail : Option ℕ)
  | array (elementType : TypeDescriptor) (length : BitVec 32) (original : Option (ℕ × ℕ))
  | moduleRef (mpBase : Option ℕ)
  deriving DecidableEq, Repr

/-- The references that are not in the words: the tail of a list, the array that a slice is
a part of, and the module data of a module reference. -/
def AllocKind.references : AllocKind → List ℕ
  | .record => []
  | .list _ tail => tail.toList
  | .array _ _ original => (original.map Prod.fst).toList
  | .moduleRef mpBase => mpBase.toList

/-- `vm_alloc_t`. -/
structure VmAlloc where
  refCount : ℕ
  words : List Word
  kind : AllocKind
  deriving DecidableEq, Repr

def VmAlloc.modifyWords (change : List Word → List Word) (alloc : VmAlloc) : VmAlloc :=
  { alloc with words := change alloc.words }

/-- What the destructor releases, in order. -/
def counted : Counted VmAlloc where
  refCount := VmAlloc.refCount
  refs alloc := targets alloc.words ++ alloc.kind.references
  setCount count alloc := { alloc with refCount := count }
  refCount_setCount _ _ := rfl
  refs_setCount _ _ := rfl
  setCount_setCount _ _ _ := rfl
  setCount_refCount _ := rfl

inductive Owner where
  | frame
  | object (id : ℕ)
  deriving DecidableEq, Repr

/-- An address. -/
structure Region where
  owner : Owner
  start : ℕ
  deriving DecidableEq, Repr

def Region.shift (region : Region) (offset : ℕ) : Region :=
  { region with start := region.start + offset }

/-- The heap, the words of frames and module data, what the collector tracks, and the freed
objects that have been accessed. -/
structure MemoryState where
  heap : Heap VmAlloc
  frames : List Word
  tracked : List ℕ
  touchedFreed : List ℕ

/-- The values take the place of as many words. -/
def overwrite (words : List Word) (start : ℕ) (values : List Word) : List Word :=
  words.take start ++ values ++ words.drop (start + values.length)

namespace MemoryState

def words (state : MemoryState) : Owner → List Word
  | .frame => state.frames
  | .object id => ((state.heap.cells id).map VmAlloc.words).getD []

def Lives (state : MemoryState) : Owner → Prop
  | .frame => True
  | .object id => (state.heap.cells id).isSome = true

instance (state : MemoryState) : (owner : Owner) → Decidable (state.Lives owner)
  | .frame => inferInstanceAs (Decidable True)
  | .object id => inferInstanceAs (Decidable ((state.heap.cells id).isSome = true))

def wordAt (state : MemoryState) (region : Region) : Option Word :=
  (state.words region.owner)[region.start]?

def read (state : MemoryState) (region : Region) (count : ℕ) : List Word :=
  ((state.words region.owner).drop region.start).take count

def modifyWords (state : MemoryState) (owner : Owner) (change : List Word → List Word) :
    MemoryState :=
  match owner with
  | .frame => { state with frames := change state.frames }
  | .object id => { state with heap := state.heap.modify id (VmAlloc.modifyWords change) }

def setWord (state : MemoryState) (region : Region) (word : Word) : MemoryState :=
  state.modifyWords region.owner fun words => words.set region.start word

def write (state : MemoryState) (region : Region) (values : List Word) : MemoryState :=
  state.modifyWords region.owner fun words => overwrite words region.start values

/-- An access to an object. -/
def touch (state : MemoryState) (id : ℕ) : MemoryState :=
  if (state.heap.cells id).isSome then state
  else { state with touchedFreed := id :: state.touchedFreed }

/-- An access to memory. -/
def touchOwner (state : MemoryState) : Owner → MemoryState
  | .frame => state
  | .object id => state.touch id

def addRef (state : MemoryState) (id : ℕ) : MemoryState :=
  { state.touch id with heap := RefCounting.addRef counted state.heap id }

/-- `release`, which frees nothing. -/
def dropRef (state : MemoryState) (id : ℕ) : MemoryState :=
  { state.touch id with heap := RefCounting.dropRef counted state.heap id }

def decRefCountAndFree (state : MemoryState) (pointer : Option ℕ) : MemoryState :=
  { state with
    heap := (release counted state.heap pointer.toList).1
    touchedFreed := (release counted state.heap pointer.toList).2 ++ state.touchedFreed }

/-- The pointer in a word that is designated by a map. -/
def pointerAt (state : MemoryState) (region : Region) : Option ℕ :=
  (state.wordAt region).bind Word.target

/-- `add_ref_pointer_field`, if the word is not nil. -/
def addRefPointerField (state : MemoryState) (region : Region) : MemoryState :=
  match (state.touchOwner region.owner).pointerAt region with
  | none => state.touchOwner region.owner
  | some id => (state.touchOwner region.owner).addRef id

/-- `dec_ref_and_free_pointer_field`, if the word is not nil.  The word keeps the pointer. -/
def decRefPointerField (state : MemoryState) (region : Region) : MemoryState :=
  (state.touchOwner region.owner).decRefCountAndFree
    ((state.touchOwner region.owner).pointerAt region)

def incRefCountInMemory (state : MemoryState) (type : TypeDescriptor) (data : Region) :
    MemoryState :=
  if type.sizeInBytes = 0 then state
  else type.pointerOffsets.foldl
    (fun state offset => state.addRefPointerField (data.shift offset)) state

def decRefCountInMemory (state : MemoryState) (type : TypeDescriptor) (data : Region) :
    MemoryState :=
  if type.sizeInBytes = 0 then state
  else type.pointerOffsets.foldl
    (fun state offset => state.decRefPointerField (data.shift offset)) state

def memmove (state : MemoryState) (dest src : Region) (count : ℕ) : MemoryState :=
  ((state.touchOwner src.owner).touchOwner dest.owner).write dest (state.read src count)

def allocate (state : MemoryState) (alloc : VmAlloc) : MemoryState :=
  { state with heap := state.heap.allocate alloc }

def trackAllocation (state : MemoryState) (id : ℕ) : MemoryState :=
  { state.addRef id with tracked := id :: state.tracked }

/-- The references from frames, module data and the collector. -/
def outside (state : MemoryState) (id : ℕ) : ℕ :=
  (targets state.frames).count id + state.tracked.count id

end MemoryState

/-- There are words of the type at the region. -/
structure Operand (type : TypeDescriptor) (state : MemoryState) (region : Region) : Prop where
  lives : state.Lives region.owner
  inside : region.start + type.wordCount ≤ (state.words region.owner).length
  fits : type.Fits (state.read region type.wordCount)

/-- Counts are those of the references that there are, with some more. -/
structure Balanced (state : MemoryState) (extra : ℕ → ℕ) : Prop where
  sound : Sound counted.toLayout state.heap fun id => state.outside id + extra id
  positive : Positive counted state.heap

/-- The count of every object is the number of references to it, the objects in the heap
are those that have one, and no freed object has been accessed. -/
structure Exact (state : MemoryState) : Prop where
  balanced : Balanced state fun _ => 0
  untouched : state.touchedFreed = []

namespace TypeDescriptor

variable {type : TypeDescriptor} {offset : ℕ}

theorem pointerOffsets_nodup : type.pointerOffsets.Nodup :=
  List.nodup_range.filter _

theorem pointerOffsets_inside (member : offset ∈ type.pointerOffsets) :
    offset < type.wordCount := by
  obtain ⟨inMap, isDesignated⟩ := List.mem_filter.mp member
  have fits := type.fits offset (List.mem_range.mp inMap) isDesignated
  unfold wordCount
  omega

theorem Fits.isPointer_iff {words : List Word} (fits : type.Fits words) {word : Word}
    (found : words[offset]? = some word) :
    word.isPointer = true ↔ offset ∈ type.pointerOffsets := by
  have same : (words.map Word.isPointer)[offset]? = type.layout[offset]? := by
    rw [show words.map Word.isPointer = type.layout from fits]
  rw [List.getElem?_map, found, layout, List.getElem?_map] at same
  obtain ⟨index, isIndex, isWord⟩ := Option.map_eq_some_iff.mp same.symm
  obtain ⟨_, rfl⟩ := List.getElem?_eq_some_iff.mp isIndex
  rw [List.getElem_range] at isWord
  rw [← isWord, decide_eq_true_eq]

theorem Fits.length_eq {words : List Word} (fits : type.Fits words) :
    words.length = type.wordCount := by
  have same := congrArg List.length fits
  rwa [List.length_map, layout, List.length_map, List.length_range] at same

/-- A type without pointers has words without pointers. -/
theorem Fits.targets_empty {words : List Word} (fits : type.Fits words)
    (empty : type.pointerOffsets = []) : targets words = [] := by
  apply List.eq_nil_iff_forall_not_mem.mpr
  intro id member
  rw [targets, List.reduceOption_mem_iff, List.mem_map] at member
  obtain ⟨word, inWords, isTarget⟩ := member
  obtain ⟨offset, isOffset⟩ := List.getElem?_of_mem inWords
  have isPointer : word.isPointer = true := by
    cases word with
    | data value => cases isTarget
    | pointer target => rfl
  have designated := (fits.isPointer_iff isOffset).mp isPointer
  rw [empty] at designated
  cases designated

theorem targets_zeroed : targets type.zeroed = [] := by
  unfold zeroed targets
  rw [List.map_map, List.reduceOption, List.filterMap_map, List.filterMap_eq_nil_iff]
  intro offset _
  by_cases member : offset ∈ type.pointerOffsets
  · simp only [Function.comp_apply, member, if_true]
    rfl
  · simp only [Function.comp_apply, member, if_false]
    rfl

theorem pointerOffsets_empty (empty : type.sizeInBytes = 0) : type.pointerOffsets = [] := by
  apply List.eq_nil_iff_forall_not_mem.mpr
  intro offset member
  have inside := pointerOffsets_inside member
  unfold wordCount at inside
  omega

end TypeDescriptor

section Words

variable {words values : List Word} {start id : ℕ}

theorem targets_append (first second : List Word) :
    targets (first ++ second) = targets first ++ targets second := by
  rw [targets, List.map_append, List.reduceOption_append, targets, targets]

theorem count_targets_set (words : List Word) (start : ℕ) (inside : start < words.length)
    (word : Word) (id : ℕ) :
    (targets (words.set start word)).count id +
        (words[start]?.bind Word.target).toList.count id =
      (targets words).count id + word.target.toList.count id := by
  have isField : start < (words.map Word.target).length := by rwa [List.length_map]
  have changed := count_reduceOption_set isField word.target id
  have joined : (words[start]?.map Word.target).join = words[start]?.bind Word.target := by
    cases words[start]? <;> rfl
  rwa [← List.map_set, List.getElem?_map, joined] at changed

theorem read_overwrite (inside : start + values.length ≤ words.length) :
    ((overwrite words start values).drop start).take values.length = values := by
  have isStart : (words.take start).length = start := by
    rw [List.length_take]
    omega
  unfold overwrite
  rw [List.append_assoc, List.drop_append_of_le_length (le_of_eq isStart.symm),
    List.drop_eq_nil_of_le (le_of_eq isStart), List.nil_append, List.take_left]

theorem count_targets_overwrite (words : List Word) (start : ℕ) (values : List Word) (id : ℕ) :
    (targets (overwrite words start values)).count id +
        (targets ((words.drop start).take values.length)).count id =
      (targets words).count id + (targets values).count id := by
  have isSplit : words = words.take start ++ ((words.drop start).take values.length ++
      words.drop (start + values.length)) := by
    rw [← List.drop_drop, List.take_append_drop, List.take_append_drop]
  have counts := congrArg (fun list : List Word => (targets list).count id) isSplit
  simp only [targets_append, List.count_append] at counts
  unfold overwrite
  simp only [targets_append, List.count_append]
  omega

end Words

section Accesses

variable {state later : MemoryState} {owner : Owner} {id : ℕ}

theorem touch_of_isSome (live : (state.heap.cells id).isSome = true) : state.touch id = state :=
  if_pos live

theorem touchOwner_of_lives (lives : state.Lives owner) : state.touchOwner owner = state := by
  cases owner with
  | frame => rfl
  | object id => exact touch_of_isSome lives

theorem touch_of_freed (freed : ¬ (state.heap.cells id).isSome = true) :
    (state.touch id).touchedFreed ≠ [] := by
  unfold MemoryState.touch
  rw [if_neg freed]
  exact List.cons_ne_nil _ _

theorem touchOwner_of_freed (freed : ¬ state.Lives owner) :
    (state.touchOwner owner).touchedFreed ≠ [] := by
  cases owner with
  | frame => exact absurd trivial freed
  | object id => exact touch_of_freed freed

theorem addRef_of_isSome (live : (state.heap.cells id).isSome = true) :
    state.addRef id = { state with heap := RefCounting.addRef counted state.heap id } := by
  unfold MemoryState.addRef
  rw [touch_of_isSome live]

theorem addRefPointerField_nil {region : Region} (lives : state.Lives region.owner)
    (isNil : state.pointerAt region = none) : state.addRefPointerField region = state := by
  unfold MemoryState.addRefPointerField
  rw [touchOwner_of_lives lives, isNil]

theorem addRefPointerField_pointer {region : Region} (lives : state.Lives region.owner)
    (isPointer : state.pointerAt region = some id) :
    state.addRefPointerField region = state.addRef id := by
  unfold MemoryState.addRefPointerField
  rw [touchOwner_of_lives lives, isPointer]

@[simp]
theorem touch_heap : (state.touch id).heap = state.heap := by
  unfold MemoryState.touch
  split <;> rfl

@[simp]
theorem touch_frames : (state.touch id).frames = state.frames := by
  unfold MemoryState.touch
  split <;> rfl

@[simp]
theorem touch_tracked : (state.touch id).tracked = state.tracked := by
  unfold MemoryState.touch
  split <;> rfl

@[simp]
theorem touchOwner_heap : (state.touchOwner owner).heap = state.heap := by
  cases owner with
  | frame => rfl
  | object id => exact touch_heap

/-- No accesses are forgotten and no freed object comes back. -/
structure Later (state later : MemoryState) : Prop where
  touched : state.touchedFreed ≠ [] → later.touchedFreed ≠ []
  limit : state.heap.limit ≤ later.heap.limit
  freed : ∀ id < state.heap.limit, state.heap.cells id = none → later.heap.cells id = none

theorem Later.refl : Later state state :=
  ⟨id, Nat.le_refl _, fun _ _ dead => dead⟩

theorem Later.trans {middle : MemoryState} (first : Later state middle)
    (second : Later middle later) : Later state later where
  touched := fun touched => second.touched (first.touched touched)
  limit := Nat.le_trans first.limit second.limit
  freed := fun id inside dead =>
    second.freed id (Nat.lt_of_lt_of_le inside first.limit) (first.freed id inside dead)

theorem later_touch (id : ℕ) : Later state (state.touch id) := by
  unfold MemoryState.touch
  split
  · exact Later.refl
  · exact ⟨fun _ => List.cons_ne_nil _ _, Nat.le_refl _, fun _ _ dead => dead⟩

theorem later_touchOwner (owner : Owner) : Later state (state.touchOwner owner) := by
  cases owner with
  | frame => exact Later.refl
  | object id => exact later_touch id

theorem later_of_shrinks (touched : state.touchedFreed ≠ [] → later.touchedFreed ≠ [])
    (shrinks : Shrinks counted state.heap later.heap) : Later state later where
  touched := touched
  limit := le_of_eq shrinks.1.symm
  freed := by
    intro id _ dead
    cases live : later.heap.cells id with
    | none => rfl
    | some cell =>
        obtain ⟨earlier, found, _⟩ := shrinks.2 id cell live
        rw [dead] at found
        cases found

theorem later_addRef (id : ℕ) : Later state (state.addRef id) :=
  (later_touch id).trans (later_of_shrinks (fun touched => touched) (by
    rw [touch_heap]
    exact shrinks_addRef id))

theorem later_decRefCountAndFree (pointer : Option ℕ) :
    Later state (state.decRefCountAndFree pointer) :=
  later_of_shrinks (fun touched => List.append_ne_nil_of_right_ne_nil _ touched)
    (shrinks_release _)

theorem later_modifyWords (owner : Owner) (change : List Word → List Word) :
    Later state (state.modifyWords owner change) := by
  cases owner with
  | frame => exact ⟨id, Nat.le_refl _, fun _ _ dead => dead⟩
  | object changed =>
      refine ⟨fun touched => touched, Nat.le_refl _, fun other _ dead => ?_⟩
      apply Option.not_isSome_iff_eq_none.mp
      rw [show (state.modifyWords (.object changed) change).heap =
          state.heap.modify changed (VmAlloc.modifyWords change) from rfl,
        Heap.modify_isSome, dead]
      exact Bool.false_ne_true

theorem later_trackAllocation (id : ℕ) : Later state (state.trackAllocation id) := by
  have added : Later state (state.addRef id) := later_addRef id
  exact ⟨added.touched, added.limit, added.freed⟩

theorem touchedFreed_trackAllocation (live : (state.heap.cells id).isSome = true) :
    (state.trackAllocation id).touchedFreed = state.touchedFreed := by
  unfold MemoryState.trackAllocation
  rw [addRef_of_isSome live]

theorem later_addRefPointerField (region : Region) :
    Later state (state.addRefPointerField region) := by
  unfold MemoryState.addRefPointerField
  split
  · exact later_touchOwner _
  · exact (later_touchOwner _).trans (later_addRef _)

theorem touched_addRefPointerField {region : Region} (freed : ¬ state.Lives region.owner) :
    (state.addRefPointerField region).touchedFreed ≠ [] := by
  unfold MemoryState.addRefPointerField
  split
  · exact touchOwner_of_freed freed
  · exact (later_addRef _).touched (touchOwner_of_freed freed)

theorem later_allocate (alloc : VmAlloc) : Later state (state.allocate alloc) where
  touched := id
  limit := Nat.le_succ _
  freed := by
    intro other inside dead
    rw [show (state.allocate alloc).heap = state.heap.allocate alloc from rfl,
      Heap.allocate_other (Nat.ne_of_lt inside)]
    exact dead

theorem mem_targets_of_pointerAt (region : Region) (isPointer : state.pointerAt region = some id) :
    id ∈ targets (state.words region.owner) := by
  obtain ⟨word, isWord, isTarget⟩ := Option.bind_eq_some_iff.mp isPointer
  rw [targets, List.reduceOption_mem_iff, List.mem_map]
  exact ⟨word, List.mem_of_getElem? isWord, isTarget⟩

theorem lives_of_pointerAt {region : Region} (isPointer : state.pointerAt region = some id) :
    state.Lives region.owner := by
  have member := mem_targets_of_pointerAt region isPointer
  cases isOwner : region.owner with
  | frame => trivial
  | object holder =>
      rw [isOwner] at member
      cases found : state.heap.cells holder with
      | none =>
          rw [MemoryState.words, found] at member
          cases member
      | some alloc => exact Option.isSome_iff_exists.mpr ⟨alloc, found⟩

end Accesses

section Contents

variable {state later : MemoryState} {owner : Owner} {id : ℕ}
  {change other : List Word → List Word}

theorem words_object :
    state.words (.object id) = ((state.heap.cells id).map VmAlloc.words).getD [] :=
  rfl

theorem lives_object : state.Lives (.object id) ↔ (state.heap.cells id).isSome = true :=
  Iff.rfl

theorem modifyWords_object : state.modifyWords (.object id) change =
    { state with heap := state.heap.modify id (VmAlloc.modifyWords change) } :=
  rfl

theorem touchedFreed_modifyWords :
    (state.modifyWords owner change).touchedFreed = state.touchedFreed := by
  cases owner <;> rfl

theorem words_of_shrinks (shrinks : Shrinks counted state.heap later.heap)
    (frames : later.frames = state.frames) (lives : later.Lives owner) :
    later.words owner = state.words owner := by
  cases owner with
  | frame => exact frames
  | object id =>
      obtain ⟨alloc, live⟩ := Option.isSome_iff_exists.mp lives
      obtain ⟨earlier, found, same⟩ := shrinks.2 id alloc live
      rw [MemoryState.words, MemoryState.words, live, found, same]
      rfl

theorem Lives.of_shrinks (shrinks : Shrinks counted state.heap later.heap)
    (lives : later.Lives owner) : state.Lives owner := by
  cases owner with
  | frame => trivial
  | object id => exact shrinks.isSome lives

theorem lives_modifyWords (owner changed : Owner) :
    (state.modifyWords changed change).Lives owner ↔ state.Lives owner := by
  cases owner with
  | frame => exact Iff.rfl
  | object id =>
      cases changed with
      | frame => exact Iff.rfl
      | object changed =>
          rw [lives_object, modifyWords_object, Heap.modify_isSome, lives_object]

theorem words_modifyWords (lives : state.Lives owner) :
    (state.modifyWords owner change).words owner = change (state.words owner) := by
  cases owner with
  | frame => rfl
  | object id =>
      obtain ⟨alloc, live⟩ := Option.isSome_iff_exists.mp lives
      rw [words_object, words_object, modifyWords_object, Heap.modify_self live, live]
      rfl

theorem words_modifyWords_other {changed : Owner} (different : owner ≠ changed) :
    (state.modifyWords changed change).words owner = state.words owner := by
  cases owner with
  | frame =>
      cases changed with
      | frame => exact absurd rfl different
      | object changed => rfl
  | object id =>
      cases changed with
      | frame => rfl
      | object changed =>
          rw [words_object, words_object, modifyWords_object,
            Heap.modify_other fun same => different (congrArg Owner.object same)]

theorem modifyWords_modifyWords :
    (state.modifyWords owner change).modifyWords owner other =
      state.modifyWords owner (other ∘ change) := by
  cases owner with
  | frame => rfl
  | object changed =>
      simp only [modifyWords_object]
      congr 1
      refine Heap.ext_cells (funext fun target => ?_) rfl
      unfold Heap.modify
      by_cases same : target = changed
      · simp only [same, if_true, Option.map_map]
        rfl
      · simp only [same, if_false]

/-- Only what the words become matters. -/
theorem modifyWords_congr (other : List Word → List Word)
    (same : change (state.words owner) = other (state.words owner)) :
    state.modifyWords owner change = state.modifyWords owner other := by
  cases owner with
  | frame =>
      unfold MemoryState.modifyWords
      rw [show change state.frames = other state.frames from same]
  | object changed =>
      simp only [modifyWords_object]
      congr 1
      refine Heap.ext_cells (funext fun target => ?_) rfl
      unfold Heap.modify
      by_cases isChanged : target = changed
      · simp only [isChanged, if_true]
        cases found : state.heap.cells changed with
        | none => rfl
        | some alloc =>
            rw [MemoryState.words, found] at same
            simp only [Option.map_some, VmAlloc.modifyWords]
            rw [show change alloc.words = other alloc.words from same]
      · simp only [isChanged, if_false]

theorem modifyWords_id : state.modifyWords owner (fun words => words) = state := by
  cases owner with
  | frame => rfl
  | object changed =>
      have same : state.heap.modify changed (VmAlloc.modifyWords fun words => words) =
          state.heap := by
        refine Heap.ext_cells (funext fun target => ?_) rfl
        unfold Heap.modify
        by_cases same : target = changed
        · subst same
          simp only [if_true]
          cases state.heap.cells target <;> rfl
        · simp only [same, if_false]
      rw [modifyWords_object, same]

theorem keepsCount_modifyWords : KeepsCount counted (VmAlloc.modifyWords change) :=
  ⟨fun _ => rfl, fun _ _ => rfl⟩

theorem touch_modifyWords : (state.modifyWords owner change).touch id =
    (state.touch id).modifyWords owner change := by
  have same : (((state.modifyWords owner change).heap.cells id).isSome = true) ↔
      ((state.heap.cells id).isSome = true) :=
    lives_modifyWords (.object id) owner
  unfold MemoryState.touch
  simp only [same]
  split <;> cases owner <;> rfl

theorem addRef_modifyWords : (state.modifyWords owner change).addRef id =
    (state.addRef id).modifyWords owner change := by
  unfold MemoryState.addRef
  rw [touch_modifyWords]
  cases owner with
  | frame => rfl
  | object changed =>
      simp only [modifyWords_object, addRef_modify keepsCount_modifyWords]

theorem dropRef_modifyWords : (state.modifyWords owner change).dropRef id =
    (state.dropRef id).modifyWords owner change := by
  unfold MemoryState.dropRef
  rw [touch_modifyWords]
  cases owner with
  | frame => rfl
  | object changed =>
      simp only [modifyWords_object, dropRef_modify keepsCount_modifyWords]

/-- What the owner holds makes no difference to a release that it survives. -/
theorem decRefCountAndFree_modifyWords {pointer : Option ℕ} (change : List Word → List Word)
    (survives : (state.decRefCountAndFree pointer).Lives owner) :
    (state.modifyWords owner change).decRefCountAndFree pointer =
      (state.decRefCountAndFree pointer).modifyWords owner change := by
  cases owner with
  | frame => rfl
  | object changed =>
      unfold MemoryState.decRefCountAndFree
      simp only [modifyWords_object, release_modify keepsCount_modifyWords survives]

theorem modifyWords_comm {changed : Owner} (different : owner ≠ changed) :
    (state.modifyWords owner change).modifyWords changed other =
      (state.modifyWords changed other).modifyWords owner change := by
  cases owner with
  | frame =>
      cases changed with
      | frame => exact absurd rfl different
      | object changed => rfl
  | object id =>
      cases changed with
      | frame => rfl
      | object changed =>
          have distinct : id ≠ changed := fun same => different (congrArg Owner.object same)
          simp only [modifyWords_object]
          congr 1
          refine Heap.ext_cells (funext fun target => ?_) rfl
          by_cases isFirst : target = id
          · subst isFirst
            rw [Heap.modify_other distinct]
            simp only [Heap.modify, if_true, if_neg distinct]
          · rw [Heap.modify_other isFirst]
            simp only [Heap.modify, if_neg isFirst, if_neg (Ne.symm distinct)]

theorem allocate_modifyWords (alloc : VmAlloc) (lives : state.Lives owner) :
    (state.modifyWords owner change).allocate alloc =
      (state.allocate alloc).modifyWords owner change := by
  cases owner with
  | frame => rfl
  | object changed =>
      obtain ⟨earlier, found⟩ := Option.isSome_iff_exists.mp lives
      have isOther : changed ≠ state.heap.limit := Nat.ne_of_lt (Heap.lt_limit found)
      unfold MemoryState.allocate
      simp only [modifyWords_object]
      congr 1
      refine Heap.ext_cells (funext fun target => ?_) rfl
      unfold Heap.modify Heap.allocate
      by_cases isNew : target = state.heap.limit
      · subst isNew
        simp only [if_true, if_neg (Ne.symm isOther)]
      · simp only [if_neg isNew, if_neg isOther]

theorem ne_limit (lives : state.Lives owner) : owner ≠ .object state.heap.limit := by
  rintro rfl
  rw [lives_object, state.heap.fresh _ (Nat.le_refl _)] at lives
  cases lives

theorem cells_modifyWords_other (different : owner ≠ .object id) :
    (state.modifyWords owner change).heap.cells id = state.heap.cells id := by
  cases owner with
  | frame => rfl
  | object changed =>
      exact Heap.modify_other (fun same => different (congrArg Owner.object same.symm)) _

theorem lives_allocate (owner : Owner) (alloc : VmAlloc) (lives : state.Lives owner) :
    (state.allocate alloc).Lives owner := by
  cases owner with
  | frame => trivial
  | object held =>
      obtain ⟨earlier, found⟩ := Option.isSome_iff_exists.mp lives
      rw [lives_object]
      unfold MemoryState.allocate
      rw [Heap.allocate_other (Nat.ne_of_lt (Heap.lt_limit found)), found]
      rfl

theorem words_allocate_self (alloc : VmAlloc) :
    (state.allocate alloc).words (.object state.heap.limit) = alloc.words := by
  rw [words_object]
  unfold MemoryState.allocate
  rw [Heap.allocate_self]
  rfl

theorem lives_addRef : (state.addRef id).Lives owner ↔ state.Lives owner := by
  cases owner with
  | frame => exact Iff.rfl
  | object held =>
      rw [lives_object, MemoryState.addRef, RefCounting.addRef, Heap.modify_isSome]
      exact Iff.rfl

theorem lives_dropRef : (state.dropRef id).Lives owner ↔ state.Lives owner := by
  cases owner with
  | frame => exact Iff.rfl
  | object held =>
      rw [lives_object, MemoryState.dropRef, RefCounting.dropRef, Heap.modify_isSome]
      exact Iff.rfl

theorem words_allocate (alloc : VmAlloc) (lives : state.Lives owner) :
    (state.allocate alloc).words owner = state.words owner := by
  cases owner with
  | frame => rfl
  | object held =>
      obtain ⟨earlier, found⟩ := Option.isSome_iff_exists.mp lives
      have isOther : held ≠ state.heap.limit := Nat.ne_of_lt (Heap.lt_limit found)
      rw [words_object, words_object]
      unfold MemoryState.allocate
      rw [Heap.allocate_other isOther]

theorem words_addRef (lives : state.Lives owner) :
    (state.addRef id).words owner = state.words owner := by
  have shrinks : Shrinks counted state.heap (state.addRef id).heap := shrinks_addRef id
  exact words_of_shrinks shrinks touch_frames (lives_addRef.mpr lives)

theorem words_dropRef (lives : state.Lives owner) :
    (state.dropRef id).words owner = state.words owner := by
  have shrinks : Shrinks counted state.heap (state.dropRef id).heap := shrinks_dropRef id
  exact words_of_shrinks shrinks touch_frames (lives_dropRef.mpr lives)

theorem trackAllocation_modifyWords : (state.modifyWords owner change).trackAllocation id =
    (state.trackAllocation id).modifyWords owner change := by
  unfold MemoryState.trackAllocation
  rw [addRef_modifyWords]
  cases owner <;> rfl

/-- The owner gets back what it held. -/
theorem modifyWords_restore : (state.modifyWords owner change).modifyWords owner
    (fun _ => state.words owner) = state := by
  rw [modifyWords_modifyWords]
  exact (modifyWords_congr (fun words => words) rfl).trans modifyWords_id

theorem lives_decRefCountAndFree_modifyWords {pointer : Option ℕ}
    (change : List Word → List Word) :
    ((state.modifyWords owner change).decRefCountAndFree pointer).Lives owner ↔
      (state.decRefCountAndFree pointer).Lives owner := by
  constructor
  · intro survives
    have restored := decRefCountAndFree_modifyWords (fun _ => state.words owner) survives
    rw [modifyWords_restore] at restored
    rw [restored]
    exact (lives_modifyWords owner owner).mpr survives
  · intro survives
    rw [decRefCountAndFree_modifyWords change survives]
    exact (lives_modifyWords owner owner).mpr survives

theorem shrinks_modifyWords (shrinks : Shrinks counted state.heap later.heap) :
    Shrinks counted (state.modifyWords owner change).heap
      (later.modifyWords owner change).heap := by
  cases owner with
  | frame => exact shrinks
  | object changed => exact shrinks.modify keepsCount_modifyWords

end Contents

section SetWord

variable {state : MemoryState} {region : Region} {word other : Word}

theorem setWord_setWord :
    (state.setWord region word).setWord region other = state.setWord region other := by
  unfold MemoryState.setWord
  rw [modifyWords_modifyWords]
  apply modifyWords_congr
  exact List.set_set word

theorem setWord_self (found : state.wordAt region = some word) :
    state.setWord region word = state := by
  unfold MemoryState.setWord
  refine (modifyWords_congr (fun words => words) ?_).trans modifyWords_id
  obtain ⟨inside, rfl⟩ := List.getElem?_eq_some_iff.mp found
  exact List.set_getElem_self inside

theorem lives_of_wordAt (found : state.wordAt region = some word) : state.Lives region.owner := by
  obtain ⟨inside, -⟩ := List.getElem?_eq_some_iff.mp found
  cases isOwner : region.owner with
  | frame => trivial
  | object id =>
      rw [isOwner] at inside
      cases live : state.heap.cells id with
      | none =>
          rw [words_object, live] at inside
          cases inside
      | some alloc => exact Option.isSome_iff_exists.mpr ⟨alloc, live⟩

end SetWord

namespace Balanced

variable {state later : MemoryState} {extra after : ℕ → ℕ} {id : ℕ}

theorem congr (balanced : Balanced state extra) (same : ∀ id, after id = extra id) :
    Balanced state after :=
  ⟨balanced.sound.congr fun id => by rw [same id], balanced.positive⟩

theorem isSome_of_extra (balanced : Balanced state extra) (held : 0 < extra id) :
    (state.heap.cells id).isSome = true :=
  Option.isSome_iff_exists.mpr (balanced.sound.live_of_outside (Nat.add_pos_right _ held))

theorem isSome_of_words (balanced : Balanced state extra) (owner : Owner)
    (refers : id ∈ targets (state.words owner)) : (state.heap.cells id).isSome = true := by
  apply Option.isSome_iff_exists.mpr
  cases owner with
  | frame =>
      apply balanced.sound.live_of_outside
      have held : 0 < (targets state.frames).count id := List.count_pos_iff.mpr refers
      unfold MemoryState.outside
      omega
  | object holder =>
      cases found : state.heap.cells holder with
      | none =>
          rw [MemoryState.words, found] at refers
          cases refers
      | some alloc =>
          rw [MemoryState.words, found] at refers
          exact balanced.sound.live_of_refs found (List.mem_append_left _ refers)

theorem addRef (balanced : Balanced state extra) (live : (state.heap.cells id).isSome = true) :
    Balanced (state.addRef id) fun target => extra target + single id target := by
  obtain ⟨alloc, found⟩ := Option.isSome_iff_exists.mp live
  unfold MemoryState.addRef
  rw [touch_of_isSome live]
  exact ⟨addRef_sound balanced.sound found fun target => (Nat.add_assoc _ _ _).symm,
    balanced.positive.addRef id⟩

/-- A count goes down and a reference that is not the last one goes. -/
theorem dropRef {alloc : VmAlloc} (balanced : Balanced state extra)
    (live : state.heap.cells id = some alloc) (several : alloc.refCount ≠ 1)
    (dropped : ∀ target, after target + single id target = extra target) :
    Balanced (state.dropRef id) after := by
  have positive := balanced.positive id alloc live
  unfold MemoryState.dropRef
  rw [touch_of_isSome (Option.isSome_iff_exists.mpr ⟨alloc, live⟩)]
  refine ⟨?_, balanced.positive.dropRef live several⟩
  refine balanced.sound.dropRef live ?_ (counted.refs_setCount _ alloc) fun target => ?_
  · rw [counted.refCount_setCount]
    omega
  · rw [Nat.add_assoc, dropped target]
    rfl

theorem decRefCountAndFree {pointer : Option ℕ} (balanced : Balanced state extra)
    (after : ℕ → ℕ)
    (dropped : ∀ target, after target + pointer.toList.count target = extra target) :
    Balanced (state.decRefCountAndFree pointer) after ∧
      (state.decRefCountAndFree pointer).touchedFreed = state.touchedFreed ∧
      Shrinks counted state.heap (state.decRefCountAndFree pointer).heap := by
  have balance : ∀ target, (state.outside target + after target) + pointer.toList.count target =
      state.outside target + extra target := by
    intro target
    rw [Nat.add_assoc, dropped target]
  obtain ⟨heap, released, sound, shrinks⟩ := release_sound balanced.sound balance
  have positive := balanced.positive.release pointer.toList
  rw [released] at positive
  unfold MemoryState.decRefCountAndFree
  rw [released]
  exact ⟨⟨sound, positive⟩, rfl, shrinks⟩

/-- The objects that survive a release. -/
theorem survives_iff {pointer : Option ℕ} (balanced : Balanced state extra) (after : ℕ → ℕ)
    (dropped : ∀ target, after target + pointer.toList.count target = extra target) :
    ((state.decRefCountAndFree pointer).heap.cells id).isSome = true ↔
      Kept counted state.heap (fun target => state.outside target + after target) id :=
  release_survives_iff balanced.sound balanced.positive fun target => by
    rw [Nat.add_assoc, dropped target]

/-- References move between the words of an owner and the rest. -/
theorem modifyWords (balanced : Balanced state extra) (owner : Owner)
    {change : List Word → List Word} (lives : state.Lives owner)
    (moved : ∀ target, after target + (targets (change (state.words owner))).count target =
      extra target + (targets (state.words owner)).count target) :
    Balanced (state.modifyWords owner change) after := by
  cases owner with
  | frame =>
      refine ⟨balanced.sound.congr fun target => ?_, balanced.positive⟩
      have balance : after target + (targets (change state.frames)).count target =
        extra target + (targets state.frames).count target := moved target
      unfold MemoryState.outside MemoryState.modifyWords
      dsimp only
      omega
  | object changed =>
      obtain ⟨alloc, found⟩ := Option.isSome_iff_exists.mp lives
      constructor
      · refine balanced.sound.modify found _ fun target => ?_
        have balance := moved target
        rw [MemoryState.words, found] at balance
        have isRefs : ∀ other : VmAlloc, (counted.refs other).count target =
            (targets other.words).count target + other.kind.references.count target :=
          fun other => List.count_append
        rw [isRefs, isRefs]
        simp only [Option.map_some, Option.getD_some] at balance
        have sameCount : counted.refCount (alloc.modifyWords change) = counted.refCount alloc :=
          rfl
        have sameFrames : (state.modifyWords (.object changed) change).outside target =
          state.outside target := rfl
        rw [sameCount, sameFrames]
        unfold VmAlloc.modifyWords
        dsimp only
        omega
      · apply balanced.positive.modify
        intro earlier isFound
        exact balanced.positive changed earlier isFound

/-- A pointer is replaced by another one. -/
theorem setPointer (balanced : Balanced state extra) {region : Region} {before value : Option ℕ}
    (found : state.wordAt region = some (.pointer before))
    (moved : ∀ target, after target + value.toList.count target =
      extra target + before.toList.count target) :
    Balanced (state.setWord region (.pointer value)) after := by
  refine balanced.modifyWords region.owner (lives_of_wordAt found) fun target => ?_
  obtain ⟨inside, -⟩ := List.getElem?_eq_some_iff.mp found
  have changed := count_targets_set _ _ inside (.pointer value) target
  have isBefore : ((state.words region.owner)[region.start]?.bind Word.target) = before := by
    rw [show (state.words region.owner)[region.start]? = some (.pointer before) from found]
    rfl
  have balance := moved target
  rw [isBefore] at changed
  have isValue : (Word.pointer value).target = value := rfl
  rw [isValue] at changed
  omega

theorem allocate (balanced : Balanced state extra) {alloc : VmAlloc} (counts : alloc.refCount = 1)
    (moved : ∀ target, after target + (counted.refs alloc).count target =
      extra target + single state.heap.limit target) :
    Balanced (state.allocate alloc) after := by
  refine ⟨balanced.sound.allocateWith counts fun target => ?_, balanced.positive.allocate ?_⟩
  · have balance := moved target
    have sameOutside : (state.allocate alloc).outside target = state.outside target := rfl
    rw [sameOutside]
    omega
  · rw [show counted.refCount alloc = 1 from counts]
    exact Nat.one_pos

theorem trackAllocation (balanced : Balanced state extra)
    (live : (state.heap.cells id).isSome = true) : Balanced (state.trackAllocation id) extra := by
  have added := balanced.addRef live
  refine ⟨added.sound.congr fun target => ?_, added.positive⟩
  have isOutside : (state.trackAllocation id).outside target =
      state.outside target + single id target := by
    unfold MemoryState.outside MemoryState.trackAllocation MemoryState.addRef
    simp only [touch_frames, count_cons_single]
    omega
  have sameOutside : (state.addRef id).outside target = state.outside target := by
    unfold MemoryState.outside MemoryState.addRef
    simp only [touch_frames, touch_tracked]
  rw [isOutside, sameOutside]
  omega

end Balanced

end Disvm.ObjectMemory
