import Disvm.ArrayCopies

/-!
# Pointer instructions

Moves of a pointer, lists, and new objects and arrays.  A move adds its reference before it
releases the pointer that it replaces, and a list takes over the reference of the slot that
it is stored in.  A new object or array is made after the release of the pointer that it
replaces, and the destination, and the length of an array, are accessed after that.
-/

namespace Disvm.ObjectMemory

open RefCounting

section Instructions

variable (state : MemoryState) (dest src : Region)

def addPointer : Option ℕ → MemoryState
  | none => state
  | some id => state.addRef id

/-- `_mov_<vm_alloc_t>`. -/
def mov (prev value : Option ℕ) : MemoryState :=
  ((addPointer state value).setWord dest (.pointer value)).decRefCountAndFree prev

/-- An instruction has no result when it throws or its operands are not what it takes. -/
def movp : Option MemoryState :=
  match state.wordAt dest, state.wordAt src with
  | some (.pointer prev), some (.pointer value) => some (mov state dest prev value)
  | _, _ => none

/-- The element type and the tail of a list. -/
def MemoryState.list (id : ℕ) : Option (TypeDescriptor × Option ℕ) :=
  match (state.heap.cells id).map VmAlloc.kind with
  | some (.list elementType tail) => some (elementType, tail)
  | _ => none

def headp : Option MemoryState :=
  match state.pointerAt src with
  | none => none
  | some head =>
      match state.list head with
      | none => none
      | some _ => movp state dest ⟨.object head, 0⟩

/-- The tail is moved from a local variable. -/
def tail : Option MemoryState :=
  match state.pointerAt src with
  | none => none
  | some head =>
      match state.list head, state.wordAt dest with
      | some (_, tail), some (.pointer prev) => some (mov state dest prev tail)
      | _, _ => none

/-- The constructor of a list, which throws if the tail has another element type. -/
def newList (elementType : TypeDescriptor) : Option ℕ → Option MemoryState
  | none => some (state.allocate ⟨1, elementType.zeroed, .list elementType none⟩)
  | some tail =>
      if (state.list tail).map Prod.fst = some elementType then
        some ((state.addRef tail).allocate ⟨1, elementType.zeroed, .list elementType (some tail)⟩)
      else none

/-- A list with the tail at the destination, whose reference goes over to the list. -/
def linkList (elementType : TypeDescriptor) : Option MemoryState :=
  match state.wordAt dest with
  | some (.pointer none) => newList state elementType none
  | some (.pointer (some tail)) =>
      (newList state elementType (some tail)).map fun created => created.dropRef tail
  | _ => none

/-- `_cons`, for an element type without pointers. -/
def cons (elementType : TypeDescriptor) : Option MemoryState :=
  if state.Lives src.owner ∧ elementType.Fits (state.read src elementType.wordCount) ∧
      elementType.pointerOffsets = [] then
    (linkList state dest elementType).map fun linked =>
      (linked.write ⟨.object state.heap.limit, 0⟩
        (linked.read src elementType.wordCount)).setWord dest (.pointer (some state.heap.limit))
  else none

def consp : Option MemoryState :=
  if state.Lives src.owner then
    (linkList state dest pointerType).bind fun linked =>
      match linked.wordAt src with
      | some (.pointer none) =>
          some ((linked.write ⟨.object state.heap.limit, 0⟩ [.pointer none]).setWord dest
            (.pointer (some state.heap.limit)))
      | some (.pointer (some alloc)) =>
          some ((((linked.addRef alloc).write ⟨.object state.heap.limit, 0⟩
            [.pointer (some alloc)]).trackAllocation state.heap.limit).setWord dest
              (.pointer (some state.heap.limit)))
      | _ => none
  else none

def consmp (type : TypeDescriptor) : Option MemoryState :=
  if state.Lives src.owner ∧ type.Fits (state.read src type.wordCount) then
    let added := state.incRefCountInMemory type src
    (linkList added dest type).map fun linked =>
      let moved := linked.memmove ⟨.object added.heap.limit, 0⟩ src type.wordCount
      let tracked :=
        if 0 < type.sizeInBytes then moved.trackAllocation added.heap.limit else moved
      tracked.setWord dest (.pointer (some added.heap.limit))
  else none

/-- A new object for the destination, which the collector tracks if it may hold pointers. -/
def store (type : TypeDescriptor) (alloc : VmAlloc) : MemoryState :=
  let created := state.allocate alloc
  let tracked :=
    if 0 < type.mapInBytes then created.trackAllocation state.heap.limit else created
  (tracked.touchOwner dest.owner).setWord dest (.pointer (some state.heap.limit))

/-- `new_instance`. -/
def newInstance (type : TypeDescriptor) : Option MemoryState :=
  match state.wordAt dest with
  | some (.pointer prev) =>
      if type.sizeInBytes = 0 then none
      else some (store (state.decRefCountAndFree prev) dest type ⟨1, type.zeroed, .record⟩)
  | _ => none

/-- The elements that the memory of an array has room for. -/
def arrayWords (type : TypeDescriptor) (length : BitVec 32) : List Word :=
  (List.replicate ((length * BitVec.ofNat 32 type.sizeInBytes).toNat / type.sizeInBytes)
    type.zeroed).flatten

/-- `new_array`.  Any value may be found in freed memory. -/
def newArray (type : TypeDescriptor) : Option MemoryState :=
  match state.wordAt dest, state.wordAt src with
  | some (.pointer prev), some (.data _) =>
      let released := (state.decRefCountAndFree prev).touchOwner src.owner
      let arraySize := match released.wordAt src with
        | some (.data value) => value
        | _ => 0
      if arraySize.toInt < 0 ∨ (arraySize * BitVec.ofNat 32 type.sizeInBytes).toInt < 0 then none
      else some (store released dest type
        ⟨1, arrayWords type arraySize, .array type arraySize none⟩)
  | _, _ => none

end Instructions

/-- The operands besides the destination. -/
inductive Instruction where
  | movp (src : Region)
  | headp (src : Region)
  | tail (src : Region)
  | cons (elementType : TypeDescriptor) (src : Region)
  | consp (src : Region)
  | consmp (type : TypeDescriptor) (src : Region)
  | new (type : TypeDescriptor)
  | newa (type : TypeDescriptor) (src : Region)
  deriving DecidableEq, Repr

def Instruction.exec (state : MemoryState) (dest : Region) : Instruction → Option MemoryState
  | .movp src => ObjectMemory.movp state dest src
  | .headp src => ObjectMemory.headp state dest src
  | .tail src => ObjectMemory.tail state dest src
  | .cons elementType src => ObjectMemory.cons state dest src elementType
  | .consp src => ObjectMemory.consp state dest src
  | .consmp type src => ObjectMemory.consmp state dest src type
  | .new type => newInstance state dest type
  | .newa type src => newArray state dest src type

/-- The states after each instruction, if all have a result. -/
def trace : MemoryState → List (Instruction × Region) → Option (List MemoryState)
  | _, [] => some []
  | state, (instruction, dest) :: program =>
      (instruction.exec state dest).bind fun after =>
        (trace after program).map fun states => after :: states

/-- There are references that keep the owner besides the pointer at the destination. -/
def OwnerStays (state : MemoryState) (dest : Region) : Owner → Prop
  | .frame => True
  | .object id => Kept counted (state.setWord dest (.pointer none)).heap
      (state.setWord dest (.pointer none)).outside id

/-- What the instruction still accesses is not freed with the pointer that it replaces. -/
def Instruction.Permitted (state : MemoryState) (dest : Region) : Instruction → Prop
  | .new _ => OwnerStays state dest dest.owner
  | .newa _ src => OwnerStays state dest dest.owner ∧ OwnerStays state dest src.owner
  | _ => True

section Moves

variable {state after : MemoryState} {dest src : Region} {extra : ℕ → ℕ} {id : ℕ}

theorem addPointer_spec {value : Option ℕ} (balanced : Balanced state extra)
    (alive : ∀ id, value = some id → (state.heap.cells id).isSome = true) :
    Balanced (addPointer state value) (fun target => extra target + value.toList.count target) ∧
      (addPointer state value).touchedFreed = state.touchedFreed := by
  cases value with
  | none => exact ⟨balanced.congr fun target => rfl, rfl⟩
  | some pointer =>
      have live := alive pointer rfl
      refine ⟨(balanced.addRef live).congr fun target => ?_, ?_⟩
      · rw [Option.toList_some, count_cons_single, List.count_nil, Nat.zero_add]
      · rw [addPointer, addRef_of_isSome live]

theorem wordAt_addPointer {region : Region} {word : Word} {value : Option ℕ}
    (found : state.wordAt region = some word) :
    (addPointer state value).wordAt region = some word := by
  cases value with
  | none => exact found
  | some pointer =>
      unfold MemoryState.wordAt addPointer
      rw [words_addRef (lives_of_wordAt found)]
      exact found

theorem mov_exact {prev value : Option ℕ} (exact : Exact state)
    (isPrev : state.wordAt dest = some (.pointer prev))
    (alive : ∀ id, value = some id → (state.heap.cells id).isSome = true) :
    Exact (mov state dest prev value) := by
  obtain ⟨added, touched⟩ := addPointer_spec exact.balanced alive
  have stored : Balanced ((addPointer state value).setWord dest (.pointer value))
      fun target => 0 + prev.toList.count target := by
    refine added.setPointer (wordAt_addPointer isPrev) fun target => ?_
    omega
  obtain ⟨released, untouched, -⟩ := stored.decRefCountAndFree (fun _ => 0) fun _ => rfl
  refine ⟨released, untouched.trans ?_⟩
  unfold MemoryState.setWord
  rw [touchedFreed_modifyWords, touched]
  exact exact.untouched

theorem Exact.alive {region : Region} (exact : Exact state)
    (isPointer : state.pointerAt region = some id) : (state.heap.cells id).isSome = true :=
  exact.balanced.isSome_of_words _ (mem_targets_of_pointerAt _ isPointer)

theorem pointerAt_of_wordAt {region : Region} {value : Option ℕ}
    (found : state.wordAt region = some (.pointer value)) : state.pointerAt region = value := by
  unfold MemoryState.pointerAt
  rw [found]
  rfl

/-- The tail of a list is in the heap. -/
theorem Exact.alive_of_list {head : ℕ} {elementType : TypeDescriptor} (exact : Exact state)
    (isList : state.list head = some (elementType, some id)) :
    (state.heap.cells id).isSome = true := by
  unfold MemoryState.list at isList
  cases found : state.heap.cells head with
  | none =>
      rw [found] at isList
      cases isList
  | some alloc =>
      rw [found, Option.map_some] at isList
      have refers : id ∈ counted.refs alloc := by
        apply List.mem_append_right
        cases isKind : alloc.kind with
        | record =>
            rw [isKind] at isList
            cases isList
        | list type tail =>
            rw [isKind] at isList
            obtain ⟨-, rfl⟩ := Prod.mk.inj (Option.some.inj isList)
            exact List.mem_singleton_self id
        | array type length original =>
            rw [isKind] at isList
            cases isList
        | moduleRef mpBase =>
            rw [isKind] at isList
            cases isList
      exact Option.isSome_iff_exists.mpr (exact.balanced.sound.live_of_refs found refers)

theorem movp_exact (exact : Exact state) (done : movp state dest src = some after) :
    Exact after := by
  unfold movp at done
  split at done
  · rename_i prev value isPrev isValue
    obtain rfl := Option.some.inj done
    refine mov_exact exact isPrev ?_
    rintro id rfl
    exact exact.alive (pointerAt_of_wordAt isValue)
  · cases done

theorem headp_exact (exact : Exact state) (done : headp state dest src = some after) :
    Exact after := by
  unfold headp at done
  split at done
  · cases done
  · split at done
    · cases done
    · exact movp_exact exact done

theorem tail_exact (exact : Exact state) (done : tail state dest src = some after) :
    Exact after := by
  unfold tail at done
  split at done
  · cases done
  · split at done
    · rename_i elementType tail prev isList isPrev
      obtain rfl := Option.some.inj done
      refine mov_exact exact isPrev ?_
      rintro id rfl
      exact exact.alive_of_list isList
    · cases done

end Moves

section Lists

variable {state linked after : MemoryState} {dest src : Region} {type : TypeDescriptor}
  {extra : ℕ → ℕ} {id : ℕ}

/-- What making a list and storing it leaves. -/
structure Linked (state : MemoryState) (dest : Region) (type : TypeDescriptor)
    (extra : ℕ → ℕ) (linked : MemoryState) : Prop where
  destLives : state.Lives dest.owner
  balanced : Balanced (linked.setWord dest (.pointer (some state.heap.limit))) extra
  touched : linked.touchedFreed = state.touchedFreed
  words : linked.words (.object state.heap.limit) = type.zeroed
  live : linked.Lives (.object state.heap.limit)
  kept : ∀ owner, state.Lives owner →
    linked.Lives owner ∧ linked.words owner = state.words owner

theorem linkList_nil (balanced : Balanced state extra)
    (isTail : state.wordAt dest = some (.pointer none)) :
    Linked state dest type extra
      (state.allocate ⟨1, type.zeroed, .list type none⟩) := by
  have noRefs : ∀ target, (counted.refs ⟨1, type.zeroed, .list type none⟩).count target = 0 := by
    intro target
    change (targets type.zeroed ++ []).count target = 0
    rw [TypeDescriptor.targets_zeroed]
    rfl
  have created : Balanced (state.allocate ⟨1, type.zeroed, .list type none⟩)
      fun target => extra target + single state.heap.limit target :=
    balanced.allocate rfl fun target => by rw [noRefs, Nat.add_zero]
  have isWord : (state.allocate ⟨1, type.zeroed, .list type none⟩).wordAt dest =
      some (.pointer none) := by
    unfold MemoryState.wordAt
    rw [words_allocate _ (lives_of_wordAt isTail)]
    exact isTail
  constructor
  · exact lives_of_wordAt isTail
  · refine created.setPointer isWord fun target => ?_
    rw [Option.toList_some, count_cons_single, Option.toList_none, List.count_nil]
    omega
  · rfl
  · exact words_allocate_self _
  · rw [lives_object]
    unfold MemoryState.allocate
    rw [Heap.allocate_self]
    rfl
  · intro owner lives
    exact ⟨lives_allocate _ _ lives, words_allocate _ lives⟩

/-- The list has its own reference to the tail before that of the slot is given up. -/
theorem linkList_tail {tail : ℕ} (balanced : Balanced state extra)
    (isTail : state.wordAt dest = some (.pointer (some tail)))
    (live : (state.heap.cells tail).isSome = true) :
    Linked state dest type extra (((state.addRef tail).allocate
      ⟨1, type.zeroed, .list type (some tail)⟩).dropRef tail) := by
  obtain ⟨alloc, isAlloc⟩ : ∃ alloc : VmAlloc,
    alloc = ⟨1, type.zeroed, .list type (some tail)⟩ := ⟨_, rfl⟩
  rw [← isAlloc]
  have refs : ∀ target, (counted.refs alloc).count target = single tail target := by
    intro target
    rw [isAlloc]
    change (targets type.zeroed ++ [tail]).count target = single tail target
    rw [TypeDescriptor.targets_zeroed, List.nil_append, count_cons_single, List.count_nil,
      Nat.zero_add]
  have destLives := lives_of_wordAt isTail
  have isLimit : (state.addRef tail).heap.limit = state.heap.limit := rfl
  have created : Balanced ((state.addRef tail).allocate alloc)
      fun target => extra target + single state.heap.limit target := by
    refine (balanced.addRef live).allocate (by rw [isAlloc]) fun target => ?_
    rw [refs, isLimit]
    omega
  have isWord : ((state.addRef tail).allocate alloc).wordAt dest =
      some (.pointer (some tail)) := by
    unfold MemoryState.wordAt
    rw [words_allocate _ (lives_addRef.mpr destLives), words_addRef destLives]
    exact isTail
  have stored : Balanced (((state.addRef tail).allocate alloc).setWord dest
      (.pointer (some state.heap.limit))) fun target => extra target + single tail target := by
    refine created.setPointer isWord fun target => ?_
    rw [Option.toList_some, Option.toList_some, count_cons_single, count_cons_single,
      List.count_nil]
    omega
  have newCell : (((state.addRef tail).allocate alloc).setWord dest
      (.pointer (some state.heap.limit))).heap.cells state.heap.limit = some alloc := by
    unfold MemoryState.setWord
    rw [cells_modifyWords_other (ne_limit destLives)]
    exact Heap.allocate_self alloc
  have held : 0 < extra tail + single tail tail := by
    rw [single_self]
    omega
  obtain ⟨tailAlloc, found⟩ := Option.isSome_iff_exists.mp (stored.isSome_of_extra held)
  have several : tailAlloc.refCount ≠ 1 := by
    have counts := stored.sound.refCount found
    have held : 0 < incoming counted.toLayout (((state.addRef tail).allocate alloc).setWord dest
        (.pointer (some state.heap.limit))).heap tail := by
      apply incoming_pos counted.toLayout newCell
      apply List.count_pos_iff.mp
      rw [refs, single_self]
      exact Nat.one_pos
    rw [single_self] at counts
    have isCount : counted.refCount tailAlloc = tailAlloc.refCount := rfl
    omega
  constructor
  · exact destLives
  · unfold MemoryState.setWord at stored found ⊢
    rw [← dropRef_modifyWords]
    exact stored.dropRef found several fun target => rfl
  · have tailLives : (((state.addRef tail).allocate alloc).heap.cells tail).isSome = true :=
      lives_allocate (.object tail) alloc (lives_addRef.mpr live)
    unfold MemoryState.dropRef
    rw [touch_of_isSome tailLives]
    unfold MemoryState.allocate
    rw [addRef_of_isSome live]
  · have newLives : ((state.addRef tail).allocate alloc).Lives (.object state.heap.limit) := by
      rw [lives_object]
      unfold MemoryState.allocate
      rw [← isLimit, Heap.allocate_self]
      rfl
    rw [words_dropRef newLives, ← isLimit, words_allocate_self, isAlloc]
  · have newLives : ((state.addRef tail).allocate alloc).Lives (.object state.heap.limit) := by
      rw [lives_object]
      unfold MemoryState.allocate
      rw [← isLimit, Heap.allocate_self]
      rfl
    exact lives_dropRef.mpr newLives
  · intro owner lives
    have addedLives : (state.addRef tail).Lives owner := lives_addRef.mpr lives
    refine ⟨lives_dropRef.mpr (lives_allocate _ _ addedLives), ?_⟩
    rw [words_dropRef (lives_allocate _ _ addedLives), words_allocate _ addedLives,
      words_addRef lives]

theorem linkList_linked (balanced : Balanced state extra)
    (done : linkList state dest type = some linked) : Linked state dest type extra linked := by
  unfold linkList at done
  split at done
  · rename_i isTail
    obtain rfl := Option.some.inj done
    exact linkList_nil balanced isTail
  · rename_i tail isTail
    obtain ⟨created, isCreated, rfl⟩ := Option.map_eq_some_iff.mp done
    simp only [newList] at isCreated
    split_ifs at isCreated with sameType
    obtain rfl := Option.some.inj isCreated
    exact linkList_tail balanced isTail (balanced.isSome_of_words _
      (mem_targets_of_pointerAt _ (pointerAt_of_wordAt isTail)))
  · cases done

/-- The element is written into the list. -/
theorem Linked.fill (made : Linked state dest type extra linked) (values : List Word)
    (remaining : ℕ → ℕ) (length : values.length = type.wordCount)
    (moved : ∀ target, remaining target + (targets values).count target = extra target) :
    Balanced ((linked.write ⟨.object state.heap.limit, 0⟩ values).setWord dest
      (.pointer (some state.heap.limit))) remaining := by
  have different : dest.owner ≠ .object state.heap.limit := ne_limit made.destLives
  have isOrder : (linked.write ⟨.object state.heap.limit, 0⟩ values).setWord dest
      (.pointer (some state.heap.limit)) = (linked.setWord dest
        (.pointer (some state.heap.limit))).write ⟨.object state.heap.limit, 0⟩ values :=
    modifyWords_comm (Ne.symm different)
  rw [isOrder]
  have lives : (linked.setWord dest (.pointer (some state.heap.limit))).Lives
      (.object state.heap.limit) := (lives_modifyWords _ dest.owner).mpr made.live
  refine made.balanced.modifyWords (.object state.heap.limit) lives fun target => ?_
  have isWords : (linked.setWord dest (.pointer (some state.heap.limit))).words
      (.object state.heap.limit) = type.zeroed :=
    (words_modifyWords_other (Ne.symm different)).trans made.words
  have written := count_targets_overwrite type.zeroed 0 values target
  have isWhole : ((type.zeroed.drop 0).take values.length) = type.zeroed := by
    rw [List.drop_zero, length, List.take_of_length_le]
    unfold TypeDescriptor.zeroed
    rw [List.length_map, List.length_range]
  rw [isWhole, TypeDescriptor.targets_zeroed, List.count_nil] at written
  rw [isWords, TypeDescriptor.targets_zeroed, List.count_nil]
  have balance := moved target
  dsimp only
  omega

theorem Linked.addRef (made : Linked state dest type extra linked)
    (live : (state.heap.cells id).isSome = true) :
    Linked state dest type (fun target => extra target + single id target)
      (linked.addRef id) := by
  have isLive : (linked.heap.cells id).isSome = true := (made.kept (.object id) live).1
  constructor
  · exact made.destLives
  · unfold MemoryState.setWord
    rw [← addRef_modifyWords]
    exact made.balanced.addRef ((lives_modifyWords (.object id) dest.owner).mpr isLive)
  · rw [addRef_of_isSome isLive]
    exact made.touched
  · rw [words_addRef made.live]
    exact made.words
  · exact lives_addRef.mpr made.live
  · intro owner lives
    obtain ⟨linkedLives, words⟩ := made.kept owner lives
    exact ⟨lives_addRef.mpr linkedLives, (words_addRef linkedLives).trans words⟩

theorem cons_exact (exact : Exact state) (done : cons state dest src type = some after) :
    Exact after := by
  unfold cons at done
  split_ifs at done with operand
  obtain ⟨sourceLives, fits, empty⟩ := operand
  obtain ⟨linked, isLinked, rfl⟩ := Option.map_eq_some_iff.mp done
  have made := linkList_linked exact.balanced isLinked
  have isRead : linked.read src type.wordCount = state.read src type.wordCount := by
    unfold MemoryState.read
    rw [(made.kept src.owner sourceLives).2]
  rw [isRead]
  constructor
  · refine made.fill _ _ fits.length_eq fun target => ?_
    rw [fits.targets_empty empty]
    rfl
  · unfold MemoryState.setWord MemoryState.write
    rw [touchedFreed_modifyWords, touchedFreed_modifyWords, made.touched]
    exact exact.untouched

/-- The collector's reference to the list. -/
theorem Linked.track (made : Linked state dest type extra linked) {values : List Word}
    {remaining : ℕ → ℕ}
    (filled : Balanced ((linked.write ⟨.object state.heap.limit, 0⟩ values).setWord dest
      (.pointer (some state.heap.limit))) remaining) :
    Balanced (((linked.write ⟨.object state.heap.limit, 0⟩ values).trackAllocation
        state.heap.limit).setWord dest (.pointer (some state.heap.limit))) remaining ∧
      ((linked.write ⟨.object state.heap.limit, 0⟩ values).trackAllocation
        state.heap.limit).touchedFreed = state.touchedFreed := by
  have live : ((linked.write ⟨.object state.heap.limit, 0⟩ values).heap.cells
      state.heap.limit).isSome = true :=
    (lives_modifyWords (.object state.heap.limit) _).mpr made.live
  constructor
  · unfold MemoryState.setWord at filled ⊢
    rw [← trackAllocation_modifyWords]
    exact filled.trackAllocation
      ((lives_modifyWords (.object state.heap.limit) dest.owner).mpr live)
  · rw [touchedFreed_trackAllocation live]
    exact touchedFreed_modifyWords.trans made.touched

theorem consp_exact (exact : Exact state) (done : consp state dest src = some after) :
    Exact after := by
  unfold consp at done
  split_ifs at done with sourceLives
  obtain ⟨linked, isLinked, isAfter⟩ := Option.bind_eq_some_iff.mp done
  have made := linkList_linked exact.balanced isLinked
  have isWord : linked.wordAt src = state.wordAt src := by
    unfold MemoryState.wordAt
    rw [(made.kept src.owner sourceLives).2]
  rw [isWord] at isAfter
  split at isAfter
  · obtain rfl := Option.some.inj isAfter
    constructor
    · exact made.fill _ _ rfl fun target => rfl
    · unfold MemoryState.setWord MemoryState.write
      rw [touchedFreed_modifyWords, touchedFreed_modifyWords, made.touched]
      exact exact.untouched
  · rename_i alloc isAlloc
    obtain rfl := Option.some.inj isAfter
    have added := made.addRef (exact.alive (pointerAt_of_wordAt isAlloc))
    have isTargets : targets [Word.pointer (some alloc)] = [alloc] := rfl
    have filled := added.fill [.pointer (some alloc)] (fun _ => 0) rfl
      fun target => by rw [isTargets, count_cons_single, List.count_nil, Nat.zero_add]
    obtain ⟨tracked, touched⟩ := added.track filled
    refine ⟨tracked, ?_⟩
    unfold MemoryState.setWord
    rw [touchedFreed_modifyWords, touched]
    exact exact.untouched
  · cases isAfter

/-- The references for the element's pointers have been added. -/
theorem incRefCountInMemory_passed (type : TypeDescriptor) (exact : Exact state)
    (lives : state.Lives src.owner) :
    Passed src src state (type.pointerOffsets.map .increment)
      (state.incRefCountInMemory type src) := by
  rw [incRefCountInMemory_eq src]
  have noneReleased : (type.pointerOffsets.map CountStep.increment).filterMap
      CountStep.released = [] := released_increments
  rcases countPass_spec (type.pointerOffsets.map .increment) exact lives
      (by rw [noneReleased]; exact List.nodup_nil)
      (by rw [noneReleased]; exact fun _ member => absurd member List.not_mem_nil) with
    ⟨_, passed⟩ | ⟨forbidden, _⟩
  · exact passed
  · exact absurd (increments_permitted exact lives) forbidden

theorem consmp_exact (exact : Exact state) (done : consmp state dest src type = some after) :
    Exact after := by
  unfold consmp at done
  by_cases operand : state.Lives src.owner ∧ type.Fits (state.read src type.wordCount)
  swap
  · rw [if_neg operand] at done
    cases done
  rw [if_pos operand] at done
  obtain ⟨sourceLives, fits⟩ := operand
  obtain ⟨linked, isLinked, rfl⟩ := Option.map_eq_some_iff.mp done
  have passed := incRefCountInMemory_passed type exact sourceLives
  have added : Balanced (state.incRefCountInMemory type src)
      fun target => (targets (state.read src type.wordCount)).count target := by
    have balanced := passed.balanced
    rw [released_increments, cleared_nil] at balanced
    exact balanced.congr fun target => (fits.gained_eq target).symm
  have made := linkList_linked added isLinked
  have addedLives : (state.incRefCountInMemory type src).Lives src.owner := passed.lives
  obtain ⟨linkedLives, isWords⟩ := made.kept src.owner addedLives
  have isRead : linked.read src type.wordCount = state.read src type.wordCount := by
    unfold MemoryState.read
    rw [isWords, words_of_shrinks passed.shrinks passed.frames addedLives]
  have isMove : linked.memmove ⟨.object (state.incRefCountInMemory type src).heap.limit, 0⟩ src
      type.wordCount = linked.write
        ⟨.object (state.incRefCountInMemory type src).heap.limit, 0⟩
          (state.read src type.wordCount) := by
    unfold MemoryState.memmove
    rw [touchOwner_of_lives linkedLives, touchOwner_of_lives made.live, isRead]
  have filled := made.fill _ (fun _ => 0) fits.length_eq fun target => Nat.zero_add _
  dsimp only
  rw [isMove]
  split_ifs with tracks
  · obtain ⟨tracked, touched⟩ := made.track filled
    refine ⟨tracked, ?_⟩
    unfold MemoryState.setWord
    rw [touchedFreed_modifyWords, touched]
    exact passed.untouched
  · refine ⟨filled, ?_⟩
    unfold MemoryState.setWord MemoryState.write
    rw [touchedFreed_modifyWords, touchedFreed_modifyWords, made.touched]
    exact passed.untouched

end Lists

section News

variable {state base after : MemoryState} {dest src : Region} {type : TypeDescriptor}
  {prev : Option ℕ} {alloc : VmAlloc}

/-- The pointer at the destination is given up before it is released. -/
theorem release_stays (exact : Exact state) (isPrev : state.wordAt dest = some (.pointer prev)) :
    Balanced ((state.setWord dest (.pointer none)).decRefCountAndFree prev) (fun _ => 0) ∧
      ((state.setWord dest (.pointer none)).decRefCountAndFree prev).touchedFreed = [] ∧
      ∀ owner, ((state.setWord dest (.pointer none)).decRefCountAndFree prev).Lives owner ↔
        OwnerStays state dest owner := by
  have given : Balanced (state.setWord dest (.pointer none))
      fun target => 0 + prev.toList.count target :=
    exact.balanced.setPointer isPrev fun target => rfl
  obtain ⟨released, untouched, -⟩ := given.decRefCountAndFree (fun _ => 0) fun _ => rfl
  refine ⟨released, untouched.trans (touchedFreed_modifyWords.trans exact.untouched), ?_⟩
  intro owner
  cases owner with
  | frame => exact Iff.rfl
  | object id =>
      rw [lives_object, given.survives_iff (fun _ => 0) fun _ => rfl]
      exact Iff.rfl

theorem release_setWord (isPrev : state.wordAt dest = some (.pointer prev))
    (stays : ((state.setWord dest (.pointer none)).decRefCountAndFree prev).Lives dest.owner) :
    state.decRefCountAndFree prev =
      ((state.setWord dest (.pointer none)).decRefCountAndFree prev).setWord dest
        (.pointer prev) := by
  have isState : (state.setWord dest (.pointer none)).setWord dest (.pointer prev) = state :=
    setWord_setWord.trans (setWord_self isPrev)
  have released := decRefCountAndFree_modifyWords
    (fun words => words.set dest.start (.pointer prev)) stays
  change ((state.setWord dest (.pointer none)).setWord dest (.pointer prev)).decRefCountAndFree
    prev = _ at released
  rwa [isState] at released

theorem release_lives (isPrev : state.wordAt dest = some (.pointer prev))
    (destLives : (state.decRefCountAndFree prev).Lives dest.owner) (owner : Owner) :
    (state.decRefCountAndFree prev).Lives owner ↔
      ((state.setWord dest (.pointer none)).decRefCountAndFree prev).Lives owner := by
  have stays : ((state.setWord dest (.pointer none)).decRefCountAndFree prev).Lives dest.owner :=
    (lives_decRefCountAndFree_modifyWords _).mpr destLives
  rw [release_setWord isPrev stays]
  exact lives_modifyWords _ dest.owner

/-- A new object takes the place of whatever the destination still holds. -/
theorem store_exact (balanced : Balanced base fun _ => 0) (untouched : base.touchedFreed = [])
    (isNil : base.wordAt dest = some (.pointer none)) (counts : alloc.refCount = 1)
    (noRefs : counted.refs alloc = []) :
    Exact (store (base.setWord dest (.pointer prev)) dest type alloc) := by
  have lives := lives_of_wordAt isNil
  have createdLives := lives_allocate dest.owner alloc lives
  have newLives : ((base.allocate alloc).heap.cells base.heap.limit).isSome = true := by
    unfold MemoryState.allocate
    rw [Heap.allocate_self]
    rfl
  have created : Balanced (base.allocate alloc) fun target => single base.heap.limit target :=
    balanced.allocate counts fun target => by
      rw [noRefs, List.count_nil, Nat.add_zero, Nat.zero_add]
  have isLimit : (base.setWord dest (.pointer prev)).heap.limit = base.heap.limit := by
    unfold MemoryState.setWord
    cases dest.owner <;> rfl
  have isCreated : (base.setWord dest (.pointer prev)).allocate alloc =
      (base.allocate alloc).setWord dest (.pointer prev) := allocate_modifyWords alloc lives
  -- Tracking changes neither the words nor the balance.
  obtain ⟨tracked, isTracked, trackedBalanced, trackedTouched, trackedLives, trackedWords⟩ :
      ∃ tracked, (if 0 < type.mapInBytes then
          ((base.allocate alloc).setWord dest (.pointer prev)).trackAllocation base.heap.limit
        else (base.allocate alloc).setWord dest (.pointer prev)) =
          tracked.setWord dest (.pointer prev) ∧
        Balanced tracked (fun target => single base.heap.limit target) ∧
        tracked.touchedFreed = [] ∧ tracked.Lives dest.owner ∧
        tracked.words dest.owner = base.words dest.owner := by
    by_cases tracks : 0 < type.mapInBytes
    · refine ⟨(base.allocate alloc).trackAllocation base.heap.limit, ?_,
        created.trackAllocation newLives, ?_, ?_, ?_⟩
      · rw [if_pos tracks]
        exact trackAllocation_modifyWords
      · rw [touchedFreed_trackAllocation newLives]
        exact untouched
      · exact lives_addRef.mpr createdLives
      · exact (words_addRef createdLives).trans (words_allocate alloc lives)
    · exact ⟨base.allocate alloc, if_neg tracks, created, untouched, createdLives,
        words_allocate alloc lives⟩
  have isWord : tracked.wordAt dest = some (.pointer none) := by
    unfold MemoryState.wordAt
    rw [trackedWords]
    exact isNil
  have destLives : (tracked.setWord dest (.pointer prev)).Lives dest.owner :=
    (lives_modifyWords _ dest.owner).mpr trackedLives
  unfold store
  rw [isLimit, isCreated]
  dsimp only
  rw [isTracked, touchOwner_of_lives destLives, setWord_setWord]
  constructor
  · refine trackedBalanced.setPointer isWord fun target => ?_
    rw [Option.toList_some, count_cons_single, Option.toList_none, List.count_nil]
    omega
  · unfold MemoryState.setWord
    rw [touchedFreed_modifyWords]
    exact trackedTouched

/-- A freed destination is accessed. -/
theorem store_freed {id : ℕ} (isOwner : dest.owner = .object id) (inside : id < base.heap.limit)
    (freed : base.heap.cells id = none) :
    (store base dest type alloc).touchedFreed ≠ [] := by
  unfold store
  have created : Later base (if 0 < type.mapInBytes then
      (base.allocate alloc).trackAllocation base.heap.limit else base.allocate alloc) := by
    split_ifs
    · exact (later_allocate alloc).trans (later_trackAllocation _)
    · exact later_allocate alloc
  apply (later_modifyWords dest.owner _).touched
  apply touchOwner_of_freed
  rw [isOwner, lives_object, created.freed id inside freed]
  exact Bool.false_ne_true

theorem store_touched (touched : base.touchedFreed ≠ []) :
    (store base dest type alloc).touchedFreed ≠ [] := by
  unfold store
  apply ((later_touchOwner dest.owner).trans (later_modifyWords dest.owner _)).touched
  split_ifs
  · exact ((later_allocate alloc).trans (later_trackAllocation _)).touched touched
  · exact touched

theorem store_exact_iff (exact : Exact state)
    (isPrev : state.wordAt dest = some (.pointer prev)) (counts : alloc.refCount = 1)
    (noRefs : counted.refs alloc = []) :
    Exact (store (state.decRefCountAndFree prev) dest type alloc) ↔
      OwnerStays state dest dest.owner := by
  obtain ⟨released, untouched, stays⟩ := release_stays exact isPrev
  rw [← stays dest.owner]
  constructor
  · intro stored
    by_contra freed
    have isFreed : ¬ (state.decRefCountAndFree prev).Lives dest.owner := fun lives =>
      freed ((lives_decRefCountAndFree_modifyWords _).mpr lives)
    cases isOwner : dest.owner with
    | frame =>
        rw [isOwner] at isFreed
        exact isFreed trivial
    | object id =>
        rw [isOwner, lives_object] at isFreed
        have lives := lives_of_wordAt isPrev
        rw [isOwner] at lives
        obtain ⟨held, found⟩ := Option.isSome_iff_exists.mp lives
        have sameLimit : (state.decRefCountAndFree prev).heap.limit = state.heap.limit :=
          (shrinks_release prev.toList).1
        exact store_freed isOwner (by rw [sameLimit]; exact Heap.lt_limit found)
          (Option.not_isSome_iff_eq_none.mp isFreed) stored.untouched
  · intro lives
    rw [release_setWord isPrev lives]
    refine store_exact released untouched ?_ counts noRefs
    have given : (state.setWord dest (.pointer none)).words dest.owner =
        (state.words dest.owner).set dest.start (.pointer none) :=
      words_modifyWords (lives_of_wordAt isPrev)
    have kept : ((state.setWord dest (.pointer none)).decRefCountAndFree prev).words dest.owner =
        (state.setWord dest (.pointer none)).words dest.owner :=
      words_of_shrinks (shrinks_release prev.toList) rfl lives
    obtain ⟨inside, -⟩ := List.getElem?_eq_some_iff.mp isPrev
    unfold MemoryState.wordAt
    rw [kept, given]
    exact List.getElem?_set_self inside

theorem newInstance_exact_iff (exact : Exact state)
    (done : newInstance state dest type = some after) :
    Exact after ↔ OwnerStays state dest dest.owner := by
  unfold newInstance at done
  split at done
  · rename_i prev isPrev
    split_ifs at done with empty
    obtain rfl := Option.some.inj done
    refine store_exact_iff exact isPrev rfl ?_
    change targets type.zeroed ++ [] = []
    rw [TypeDescriptor.targets_zeroed]
    rfl
  · cases done

theorem targets_arrayWords (length : BitVec 32) : targets (arrayWords type length) = [] := by
  unfold arrayWords
  induction (length * BitVec.ofNat 32 type.sizeInBytes).toNat / type.sizeInBytes with
  | zero => rfl
  | succ count ih =>
      rw [List.replicate_succ, List.flatten_cons, targets_append, TypeDescriptor.targets_zeroed,
        ih]
      rfl

theorem newArray_exact_iff (exact : Exact state)
    (done : newArray state dest src type = some after) :
    Exact after ↔ OwnerStays state dest dest.owner ∧ OwnerStays state dest src.owner := by
  unfold newArray at done
  split at done
  · rename_i prev size isPrev isSize
    dsimp only at done
    split_ifs at done with negative
    obtain rfl := Option.some.inj done
    obtain ⟨-, -, stays⟩ := release_stays exact isPrev
    have noRefs : ∀ arraySize, counted.refs
        ⟨1, arrayWords type arraySize, .array type arraySize none⟩ = [] := by
      intro arraySize
      change targets (arrayWords type arraySize) ++ [] = []
      rw [targets_arrayWords]
      rfl
    by_cases sourceLives : (state.decRefCountAndFree prev).Lives src.owner
    · rw [touchOwner_of_lives sourceLives, store_exact_iff exact isPrev rfl (noRefs _)]
      refine (and_iff_left_of_imp fun destStays => ?_).symm
      have destLives :=
        (lives_decRefCountAndFree_modifyWords _).mp ((stays dest.owner).mpr destStays)
      exact (stays src.owner).mp ((release_lives isPrev destLives src.owner).mp sourceLives)
    · constructor
      · intro stored
        exact absurd stored.untouched (store_touched (touchOwner_of_freed sourceLives))
      · rintro ⟨destStays, sourceStays⟩
        have destLives :=
          (lives_decRefCountAndFree_modifyWords _).mp ((stays dest.owner).mpr destStays)
        exact absurd ((release_lives isPrev destLives src.owner).mpr
          ((stays src.owner).mpr sourceStays)) sourceLives
  · cases done

end News

section Programs

variable {state after : MemoryState} {dest : Region} {instruction : Instruction}

/-- An instruction keeps counts exact if and only if it is permitted. -/
theorem exec_exact_iff (exact : Exact state) (done : instruction.exec state dest = some after) :
    Exact after ↔ instruction.Permitted state dest := by
  cases instruction with
  | movp src => exact iff_of_true (movp_exact exact done) trivial
  | headp src => exact iff_of_true (headp_exact exact done) trivial
  | tail src => exact iff_of_true (tail_exact exact done) trivial
  | cons elementType src => exact iff_of_true (cons_exact exact done) trivial
  | consp src => exact iff_of_true (consp_exact exact done) trivial
  | consmp type src => exact iff_of_true (consmp_exact exact done) trivial
  | new type => exact newInstance_exact_iff exact done
  | newa type src => exact newArray_exact_iff exact done

/-- Counts are exact after each instruction of a program if and only if every instruction is
permitted where it is executed. -/
theorem trace_exact_iff {program : List (Instruction × Region)} {states : List MemoryState}
    (exact : Exact state) (done : trace state program = some states) :
    (∀ reached ∈ states, Exact reached) ↔
      ∀ before ∈ (state :: states).zip program,
        before.2.1.Permitted before.1 before.2.2 := by
  induction program generalizing state states with
  | nil =>
      obtain rfl := Option.some.inj done
      simp
  | cons first program ih =>
      obtain ⟨instruction, dest⟩ := first
      obtain ⟨after, isAfter, rest⟩ := Option.bind_eq_some_iff.mp done
      obtain ⟨later, isLater, rfl⟩ := Option.map_eq_some_iff.mp rest
      have step := exec_exact_iff exact isAfter
      rw [List.forall_mem_cons, List.zip_cons_cons, List.forall_mem_cons, ← step]
      exact and_congr_right fun afterExact => ih afterExact isLater

end Programs

section Resized

def wordType : TypeDescriptor where
  sizeInBytes := 4
  pointerMap := []
  finalizer := none
  fits := by decide

/-- An array of one word in the first of three variables. -/
def listed : MemoryState where
  heap := Heap.empty.allocate ⟨1, [.data 3], .array wordType 1 none⟩
  frames := [.pointer (some 0), .pointer none, .pointer none]
  tracked := []
  touchedFreed := []

/-- An array whose length is the word is put in front of a list of the first array, and then
replaces the first array. -/
def relist : List (Instruction × Region) :=
  [(.newa wordType ⟨.object 0, 0⟩, ⟨.frame, 1⟩), (.consp ⟨.frame, 0⟩, ⟨.frame, 2⟩),
    (.consp ⟨.frame, 1⟩, ⟨.frame, 2⟩), (.headp ⟨.frame, 2⟩, ⟨.frame, 0⟩),
    (.tail ⟨.frame, 2⟩, ⟨.frame, 2⟩), (.movp ⟨.frame, 2⟩, ⟨.frame, 1⟩)]

theorem listed_exact : Exact listed := by
  refine ⟨⟨?_, positive_empty.allocate Nat.one_pos⟩, rfl⟩
  apply Sound.congr (Sound.allocateFirst rfl rfl)
  exact fun target => rfl

theorem listed_trace : ∃ states, trace listed relist = some states ∧ states.length = 6 ∧
    ∀ reached ∈ states, Exact reached := by
  obtain ⟨states, done, length⟩ : ∃ states, trace listed relist = some states ∧
      states.length = 6 := ⟨_, rfl, rfl⟩
  refine ⟨states, done, length, (trace_exact_iff listed_exact done).mpr ?_⟩
  intro before member
  rcases List.mem_cons.mp member with rfl | later
  · exact ⟨trivial, kept_of_outside (by decide)⟩
  · have isLater := (List.of_mem_zip later).2
    simp only [List.mem_cons, List.not_mem_nil, or_false] at isLater
    rcases isLater with same | same | same | same | same <;> rw [same] <;> trivial

/-- An array of one word, to which only the frame refers. -/
def resized : MemoryState where
  heap := Heap.empty.allocate ⟨1, [.data 3], .array wordType 1 none⟩
  frames := [.pointer (some 0)]
  tracked := []
  touchedFreed := []

/-- The array is replaced by one whose length is its first element. -/
def resize : List (Instruction × Region) :=
  [(.newa wordType ⟨.object 0, 0⟩, ⟨.frame, 0⟩)]

theorem resized_exact : Exact resized := by
  refine ⟨⟨?_, positive_empty.allocate Nat.one_pos⟩, rfl⟩
  apply Sound.congr (Sound.allocateFirst rfl rfl)
  exact fun target => rfl

/-- The length is read from the array that has been freed. -/
theorem resized_freed : Exact resized ∧ ∃ states, trace resized resize = some states ∧
    ¬ ∀ reached ∈ states, Exact reached := by
  refine ⟨resized_exact, _, rfl, fun exact => ?_⟩
  have touched := (exact _ (List.mem_singleton_self _)).untouched
  revert touched
  decide

end Resized

end Disvm.ObjectMemory
