import Disvm.SlotReferences
import Disvm.StringContents
import Disvm.StringInstructions

/-!
# Strings as lists of runes

Slots that hold lists of runes, which every instruction replaces as a whole.
The instructions on shared, mutable strings refine it.
-/

namespace Disvm.Strings

open RefCounting Utf8

abbrev Contents (slotCount : ℕ) := Fin slotCount → List ℕ

inductive Result where
  | done
  | throws
  | rune (value : ℕ)
  | text (bytes : List UInt8)
  deriving DecidableEq, Repr

namespace Contents

variable {slotCount : ℕ}

def perform (contents : Contents slotCount) :
    StringState.Action slotCount → Contents slotCount × Result
  | .movp dest src => (Function.update contents dest (contents src), .done)
  | .insc dest rune index =>
      if rune ≤ maxSupportedCodepoint ∧ 0 ≤ index ∧ index ≤ (contents dest).length then
        (Function.update contents dest (putRune (contents dest) index.toNat rune), .done)
      else (contents, .throws)
  | .addc src mid dest => (Function.update contents dest (contents mid ++ contents src), .done)
  | .slicec dest start stop =>
      if 0 ≤ start ∧ start ≤ stop ∧ stop ≤ (contents dest).length then
        (Function.update contents dest (sliceRunes (contents dest) start.toNat stop.toNat), .done)
      else (contents, .throws)
  | .indc src index =>
      if 0 ≤ index then
        (contents, (contents src)[index.toNat]?.elim .throws .rune)
      else (contents, .throws)
  | .text slot => (contents, .text (encodeText (contents slot)))

def run (contents : Contents slotCount) :
    List (StringState.Action slotCount) → Contents slotCount × List Result
  | [] => (contents, [])
  | action :: actions =>
      let (later, result) := contents.perform action
      let (last, results) := later.run actions
      (last, result :: results)

end Contents

/-- What an outcome says about the lists of runes. -/
def Outcome.result : Outcome → Result
  | .done => .done
  | .threw _ => .throws
  | .rune value => .rune value
  | .text bytes => .text bytes

namespace StringState

variable {slotCount : ℕ}

def contents (state : StringState slotCount) : Contents slotCount := fun slot =>
  (state.load slot).elim [] VmString.runes

/-- Counts cover the slots, with strings that nothing designates any more, and
all strings are well formed. -/
structure Coherent (state : StringState slotCount) : Prop where
  counts : ∃ leaked : ℕ → ℕ, Sound counted.toLayout state.heap fun id =>
    slotRefs state.slots id + leaked id
  strings : ∀ id string, state.heap.cells id = some string → WellFormed string

end StringState

section Heaps

variable {heap later : StringHeap} {others : ℕ → ℕ} {id : ℕ} {string : VmString}

theorem incoming_strings (heap : StringHeap) (id : ℕ) : incoming counted.toLayout heap id = 0 := by
  refine Finset.sum_eq_zero fun other _ => ?_
  cases heap.cells other with
  | none => rfl
  | some string => rfl

theorem refCount_strings (sound : Sound counted.toLayout heap others)
    (live : heap.cells id = some string) : string.refCount = others id := by
  have counts := sound.refCount live
  rwa [incoming_strings, Nat.zero_add] at counts

theorem WellFormed.setCount (wellFormed : WellFormed string) (count : ℕ) :
    WellFormed (counted.setCount count string) where
  cells := wellFormed.cells
  ascii := wellFormed.ascii
  supported := wellFormed.supported
  encoded encoded cached := by
    have text := wellFormed.encoded encoded cached
    cases encoded with
    | storage => exact text
    | alloc size bytes => exact text
  size := wellFormed.size
  encodedSize := wellFormed.encodedSize

/-- A string that is still referenced keeps its runes when others go. -/
theorem runes_of_shrinks (shrinks : Shrinks counted heap later)
    (sound : Sound counted.toLayout later others) (held : 0 < others id)
    (live : heap.cells id = some string) :
    ∃ kept, later.cells id = some kept ∧ kept.runes = string.runes := by
  obtain ⟨kept, isKept⟩ := sound.live_of_outside held
  obtain ⟨earlier, found, same⟩ := shrinks.2 id kept isKept
  rw [live] at found
  cases found
  exact ⟨kept, isKept, by rw [same]; rfl⟩

theorem wellFormed_of_shrinks (shrinks : Shrinks counted heap later)
    (wellFormed : ∀ id string, heap.cells id = some string → WellFormed string)
    {id : ℕ} {string : VmString} (live : later.cells id = some string) : WellFormed string := by
  obtain ⟨earlier, found, same⟩ := shrinks.2 id string live
  rw [same]
  exact (wellFormed id earlier found).setCount _

end Heaps

namespace StringState

variable {slotCount : ℕ} {state : StringState slotCount}

theorem contents_none (state : StringState slotCount) {slot : Fin slotCount}
    (isNil : state.slots slot = none) :
    state.contents slot = [] := by
  unfold contents load
  rw [isNil]
  rfl

theorem contents_some (state : StringState slotCount) {slot : Fin slotCount} {id : ℕ}
    {string : VmString}
    (holds : state.slots slot = some id) (live : state.heap.cells id = some string) :
    state.contents slot = string.runes := by
  unfold contents load
  rw [holds, Option.bind_some, live]
  rfl

/-- A slot that is not nil holds a string. -/
theorem Coherent.live (coherent : Coherent state) {slot : Fin slotCount} {id : ℕ}
    (holds : state.slots slot = some id) : ∃ string, state.heap.cells id = some string := by
  obtain ⟨leaked, sound⟩ := coherent.counts
  have held := slotRefs_pos holds
  exact sound.live_of_outside (by omega)

theorem Coherent.load_eq_none (coherent : Coherent state) {slot : Fin slotCount} :
    state.load slot = none ↔ state.slots slot = none := by
  unfold load
  constructor
  · intro missing
    cases holds : state.slots slot with
    | none => rfl
    | some id =>
        obtain ⟨string, live⟩ := coherent.live holds
        rw [holds, Option.bind_some, live] at missing
        cases missing
  · intro isNil
    rw [isNil]
    rfl

theorem load_some {slot : Fin slotCount} {string : VmString}
    (loaded : state.load slot = some string) :
    ∃ id, state.slots slot = some id ∧ state.heap.cells id = some string :=
  Option.bind_eq_some_iff.mp loaded

/-- A slot gives up its string for a new one. -/
def putNew (state : StringState slotCount) (dest : Fin slotCount) (string : VmString) :
    StringState slotCount where
  heap := (release counted (state.heap.allocate string) (state.slots dest).toList).1
  slots := Function.update state.slots dest (some state.heap.limit)

theorem allocated_strings (coherent : Coherent state) {string : VmString}
    (wellFormed : WellFormed string) {id : ℕ} {found : VmString}
    (live : (state.heap.allocate string).cells id = some found) : WellFormed found := by
  by_cases isNew : id = state.heap.limit
  · subst isNew
    rw [Heap.allocate_self] at live
    cases live
    exact wellFormed
  · rw [Heap.allocate_other isNew] at live
    exact coherent.strings id found live

/-- A new string that no slot holds changes nothing. -/
theorem coherent_allocate (coherent : Coherent state) {string : VmString}
    (wellFormed : WellFormed string) (count : string.refCount = 1) :
    Coherent (state.allocate string) ∧ (state.allocate string).contents = state.contents := by
  obtain ⟨leaked, sound⟩ := coherent.counts
  refine ⟨⟨⟨fun id => leaked id + single state.heap.limit id, ?_⟩, ?_⟩, ?_⟩
  · refine sound.allocate count rfl fun id => ?_
    rw [show (state.allocate string).slots = state.slots from rfl]
    exact (Nat.add_assoc _ _ _).symm
  · exact fun id found live => allocated_strings coherent wellFormed live
  · funext slot
    cases holds : state.slots slot with
    | none => rw [contents_none state holds, contents_none (state.allocate string) holds]
    | some id =>
        obtain ⟨found, live⟩ := coherent.live holds
        have kept : (state.allocate string).heap.cells id = some found :=
          (Heap.allocate_other (Nat.ne_of_lt (Heap.lt_limit live)) _).trans live
        rw [contents_some state holds live, contents_some (state.allocate string) holds kept]

/-- A slot designates another string, in a heap without its old reference. -/
theorem retarget_spec (coherent : Coherent state) (dest : Fin slotCount) (value : Option ℕ)
    {later : StringHeap} {leaked : ℕ → ℕ}
    (sound : Sound counted.toLayout later fun id =>
      otherRefs state.slots dest id + value.toList.count id + leaked id)
    (shrinks : Shrinks counted state.heap later) :
    Coherent ⟨later, Function.update state.slots dest value⟩ ∧
      contents ⟨later, Function.update state.slots dest value⟩ =
        Function.update state.contents dest
          ((value.bind state.heap.cells).elim [] VmString.runes) := by
  refine ⟨⟨⟨leaked, ?_⟩, fun id found live =>
    wellFormed_of_shrinks shrinks coherent.strings live⟩, ?_⟩
  · refine sound.congr fun id => ?_
    rw [slotRefs_set]
  · funext slot
    by_cases isDest : slot = dest
    · subst isDest
      rw [Function.update_self]
      have holds : Function.update state.slots slot value slot = value := Function.update_self _ _ _
      cases value with
      | none => exact contents_none _ holds
      | some id =>
          have held :
              0 < otherRefs state.slots slot id + (some id).toList.count id + leaked id := by
            rw [Option.toList_some, List.count_cons_self]
            omega
          obtain ⟨kept, isKept⟩ := sound.live_of_outside held
          obtain ⟨earlier, found, same⟩ := shrinks.2 id kept isKept
          rw [contents_some _ holds isKept, Option.bind_some, found, same]
          rfl
    · have sameSlot : Function.update state.slots dest value slot = state.slots slot :=
        Function.update_of_ne isDest _ _
      rw [Function.update_of_ne isDest]
      cases holds : state.slots slot with
      | none => rw [contents_none state holds, contents_none _ (sameSlot.trans holds)]
      | some id =>
          obtain ⟨found, live⟩ := coherent.live holds
          have held := otherRefs_pos isDest holds
          obtain ⟨kept, isKept, sameRunes⟩ := runes_of_shrinks shrinks sound (by omega) live
          rw [contents_some state holds live, contents_some _ (sameSlot.trans holds) isKept,
            sameRunes]

/-- A slot gives up its string. -/
theorem drop_spec (coherent : Coherent state) (dest : Fin slotCount) :
    ∃ heap, release counted state.heap (state.slots dest).toList = (heap, []) ∧
      Coherent ⟨heap, Function.update state.slots dest none⟩ ∧
      contents ⟨heap, Function.update state.slots dest none⟩ =
        Function.update state.contents dest [] := by
  obtain ⟨leaked, sound⟩ := coherent.counts
  obtain ⟨heap, released, later, shrinks⟩ : ∃ heap,
      release counted state.heap (state.slots dest).toList = (heap, []) ∧
        Sound counted.toLayout heap (fun id => otherRefs state.slots dest id +
          (none : Option ℕ).toList.count id + leaked id) ∧
        Shrinks counted state.heap heap := by
    refine release_sound sound fun id => ?_
    have balance := otherRefs_add state.slots dest id
    rw [Option.toList_none, List.count_nil]
    omega
  exact ⟨heap, released, retarget_spec coherent dest none later shrinks⟩

theorem putNew_spec (coherent : Coherent state) (dest : Fin slotCount) {string : VmString}
    (wellFormed : WellFormed string) (count : string.refCount = 1) :
    Coherent (state.putNew dest string) ∧
      (state.putNew dest string).contents =
        Function.update state.contents dest string.runes := by
  obtain ⟨leaked, sound⟩ := coherent.counts
  have added : Sound counted.toLayout (state.heap.allocate string) fun id =>
      slotRefs state.slots id + leaked id + single state.heap.limit id :=
    sound.allocate count rfl fun _ => rfl
  obtain ⟨heap, released, later, shrinks⟩ : ∃ heap,
      release counted (state.heap.allocate string) (state.slots dest).toList = (heap, []) ∧
        Sound counted.toLayout heap (fun id => otherRefs state.slots dest id +
          (some state.heap.limit).toList.count id + leaked id) ∧
        Shrinks counted (state.heap.allocate string) heap := by
    refine release_sound added fun id => ?_
    have balance := otherRefs_add state.slots dest id
    rw [Option.toList_some, count_cons_single, List.count_nil]
    omega
  obtain ⟨allocated, sameContents⟩ := coherent_allocate coherent wellFormed count
  have retargeted := retarget_spec allocated dest (some state.heap.limit) later shrinks
  unfold putNew
  rw [released]
  rw [sameContents, Option.bind_some] at retargeted
  rw [show (state.allocate string).heap.cells state.heap.limit = some string from
    Heap.allocate_self string] at retargeted
  exact retargeted

theorem movp_spec (coherent : Coherent state) (dest src : Fin slotCount) :
    Coherent (state.movp dest src) ∧
      (state.movp dest src).contents =
        Function.update state.contents dest (state.contents src) := by
  obtain ⟨leaked, sound⟩ := coherent.counts
  have isContents : state.contents src =
      ((state.slots src).bind state.heap.cells).elim [] VmString.runes := rfl
  rw [isContents]
  unfold movp
  cases moved : state.slots src with
  | none =>
      obtain ⟨heap, released, dropped⟩ := drop_spec coherent dest
      simp only [Option.elim_none, decRefCountAndFree, setSlot]
      rw [released]
      exact dropped
  | some id =>
      obtain ⟨string, live⟩ := coherent.live moved
      have added := addRef_sound sound live fun _ => rfl
      obtain ⟨heap, released, later, shrinks⟩ : ∃ heap,
          release counted (RefCounting.addRef counted state.heap id) (state.slots dest).toList =
              (heap, []) ∧
            Sound counted.toLayout heap (fun target => otherRefs state.slots dest target +
              (some id).toList.count target + leaked target) ∧
            Shrinks counted (RefCounting.addRef counted state.heap id) heap := by
        refine release_sound added fun target => ?_
        have balance := otherRefs_add state.slots dest target
        rw [Option.toList_some, count_cons_single, List.count_nil]
        omega
      have retargeted := retarget_spec coherent dest (some id) later
        ((shrinks_addRef id).trans shrinks)
      simp only [Option.elim_some, decRefCountAndFree, setSlot, addRef]
      rw [released]
      exact retargeted

/-- A string is written over with the same count. -/
theorem coherent_overwrite (coherent : Coherent state) {dest : Fin slotCount} {id : ℕ}
    {string written : VmString} (holds : state.slots dest = some id)
    (live : state.heap.cells id = some string) (wellFormed : WellFormed written)
    (count : written.refCount = string.refCount) : Coherent (state.overwrite dest written) := by
  obtain ⟨leaked, sound⟩ := coherent.counts
  have isHeap : state.overwrite dest written =
      { state with heap := state.heap.modify id fun _ => written } := by
    unfold overwrite
    rw [holds]
  rw [isHeap]
  refine ⟨⟨leaked, sound.keep live count rfl⟩, fun other found isFound => ?_⟩
  by_cases same : other = id
  · subst same
    rw [Heap.modify_self live] at isFound
    cases isFound
    exact wellFormed
  · rw [Heap.modify_other same] at isFound
    exact coherent.strings other found isFound

theorem contents_overwrite (coherent : Coherent state) {dest slot : Fin slotCount} {id : ℕ}
    {string written : VmString} (holds : state.slots dest = some id)
    (live : state.heap.cells id = some string) :
    (state.overwrite dest written).contents slot =
      if state.slots slot = some id then written.runes else state.contents slot := by
  have isHeap : state.overwrite dest written =
      { state with heap := state.heap.modify id fun _ => written } := by
    unfold overwrite
    rw [holds]
  rw [isHeap]
  let later : StringState slotCount :=
    { state with heap := state.heap.modify id fun _ => written }
  split_ifs with isSame
  · exact contents_some later isSame (Heap.modify_self live _)
  · cases slotHolds : state.slots slot with
    | none => rw [contents_none state slotHolds, contents_none later slotHolds]
    | some other =>
        obtain ⟨found, isFound⟩ := coherent.live slotHolds
        have different : other ≠ id := by
          rintro rfl
          exact isSame slotHolds
        have kept : later.heap.cells other = some found :=
          (Heap.modify_other different _).trans isFound
        rw [contents_some state slotHolds isFound, contents_some later slotHolds kept]

/-- A string with a single reference is changed for one slot only. -/
theorem contents_overwrite_unshared (coherent : Coherent state) {dest : Fin slotCount} {id : ℕ}
    {string written : VmString} (holds : state.slots dest = some id)
    (live : state.heap.cells id = some string) (unshared : ¬ 1 < string.refCount) :
    (state.overwrite dest written).contents =
      Function.update state.contents dest written.runes := by
  obtain ⟨leaked, sound⟩ := coherent.counts
  have counts := refCount_strings sound live
  have others := otherRefs_add state.slots dest id
  rw [holds, Option.toList_some, List.count_cons_self] at others
  funext slot
  rw [contents_overwrite coherent holds live]
  by_cases isDest : slot = dest
  · subst isDest
    rw [if_pos holds, Function.update_self]
  · have notShared : state.slots slot ≠ some id := fun slotHolds => by
      have held := otherRefs_pos isDest slotHolds
      omega
    rw [if_neg notShared, Function.update_of_ne isDest]

/-- An instruction does to the contents what the abstract one does. -/
structure Matches (state : StringState slotCount) (action : Action slotCount)
    (after : StringState slotCount × Outcome) : Prop where
  coherent : Coherent after.1
  contents : after.1.contents = (state.contents.perform action).1
  result : after.2.result = (state.contents.perform action).2

theorem contents_load {slot : Fin slotCount} {string : VmString}
    (loaded : state.load slot = some string) : state.contents slot = string.runes := by
  unfold contents
  rw [loaded]
  rfl

theorem Coherent.load_wellFormed (coherent : Coherent state) {slot : Fin slotCount}
    {string : VmString} (loaded : state.load slot = some string) : WellFormed string := by
  obtain ⟨id, -, live⟩ := load_some loaded
  exact coherent.strings id string live

/-- The copy of a string that is changed instead of it. -/
theorem copy_spec {string : VmString} (wellFormed : WellFormed string) :
    ∃ copy, string.slice 0 string.length = .ok copy ∧ WellFormed copy ∧
      copy.runes = string.runes ∧ copy.refCount = 1 := by
  obtain ⟨copy, made, copyFormed, isRunes, count⟩ :=
    slice_ok wellFormed (Int.le_refl 0) (Int.natCast_nonneg _) (Int.le_refl _)
  refine ⟨copy, made, copyFormed, ?_, count⟩
  rw [isRunes, Int.toNat_zero, Int.toNat_natCast, ← length_runes, sliceRunes_all]

theorem inscNew_spec (coherent : Coherent state) (dest : Fin slotCount) {string : VmString}
    (wellFormed : WellFormed string) (count : string.refCount = 1)
    (isRunes : string.runes = state.contents dest) (rune : ℕ) (index : ℤ) :
    Matches state (.insc dest rune index) (state.inscNew dest string rune index) := by
  have length : (state.contents dest).length = string.length := by
    rw [← isRunes, length_runes]
  unfold inscNew
  by_cases accepted : rune ≤ maxSupportedCodepoint ∧ 0 ≤ index ∧ index ≤ string.length
  · obtain ⟨written, isWritten, writtenFormed, writtenRunes, sameCount⟩ :=
      setRune_ok wellFormed accepted.1 accepted.2.1 accepted.2.2
    obtain ⟨later, contents⟩ := putNew_spec coherent dest writtenFormed (sameCount.trans count)
    rw [isWritten]
    refine ⟨later, ?_, ?_⟩
    · rw [Contents.perform, length, if_pos accepted, ← isRunes, ← writtenRunes]
      exact contents
    · rw [Contents.perform, length, if_pos accepted]
      rfl
  · obtain ⟨exception, refused⟩ := setRune_error true accepted
    obtain ⟨later, contents⟩ := coherent_allocate coherent wellFormed count
    rw [refused]
    refine ⟨later, ?_, ?_⟩
    · rw [Contents.perform, length, if_neg accepted]
      exact contents
    · rw [Contents.perform, length, if_neg accepted]
      rfl

theorem insc_spec (coherent : Coherent state) (dest : Fin slotCount) (rune : ℕ) (index : ℤ) :
    Matches state (.insc dest rune index) (state.insc dest rune index) := by
  unfold insc
  cases loaded : state.load dest with
  | none =>
      have isNil : state.contents dest = [] := contents_none state (coherent.load_eq_none.mp loaded)
      exact inscNew_spec coherent dest wellFormed_empty rfl isNil.symm rune index
  | some string =>
      have wellFormed := coherent.load_wellFormed loaded
      have isRunes := contents_load loaded
      dsimp only
      split_ifs with shared
      · obtain ⟨copy, made, copyFormed, copyRunes, count⟩ := copy_spec wellFormed
        rw [made]
        exact inscNew_spec coherent dest copyFormed count (copyRunes.trans isRunes.symm) rune index
      · obtain ⟨id, holds, live⟩ := load_some loaded
        have length : (state.contents dest).length = string.length := by
          rw [isRunes, length_runes]
        by_cases accepted : rune ≤ maxSupportedCodepoint ∧ 0 ≤ index ∧ index ≤ string.length
        · obtain ⟨written, isWritten, writtenFormed, writtenRunes, sameCount⟩ :=
            setRune_ok wellFormed accepted.1 accepted.2.1 accepted.2.2
          rw [isWritten]
          refine ⟨coherent_overwrite coherent holds live writtenFormed sameCount, ?_, ?_⟩
          · rw [Contents.perform, length, if_pos accepted, isRunes, ← writtenRunes]
            exact contents_overwrite_unshared coherent holds live shared
          · rw [Contents.perform, length, if_pos accepted]
            rfl
        · obtain ⟨exception, refused⟩ := setRune_error true accepted
          rw [refused]
          refine ⟨coherent_overwrite coherent holds live wellFormed rfl, ?_, ?_⟩
          · rw [Contents.perform, length, if_neg accepted]
            dsimp only
            rw [contents_overwrite_unshared coherent holds live shared, ← isRunes,
              Function.update_eq_self]
          · rw [Contents.perform, length, if_neg accepted]
            rfl

/-- `concat_string` makes the string of both runes, in place only where the first
string may change. -/
theorem concatString_spec (coherent : Coherent state) (mid src : Fin slotCount)
    (tryAppend : Bool) :
    (∃ string, concatString (state.load mid) (state.load src) tryAppend = .ok (.new string) ∧
      WellFormed string ∧ string.refCount = 1 ∧
      string.runes = state.contents mid ++ state.contents src) ∨
    (∃ first string, concatString (state.load mid) (state.load src) tryAppend =
        .ok (.inPlace string) ∧ tryAppend = true ∧ state.load mid = some first ∧
      ¬ 1 < first.refCount ∧ WellFormed string ∧ string.refCount = first.refCount ∧
      string.runes = state.contents mid ++ state.contents src) := by
  unfold concatString
  cases first : state.load mid with
  | none =>
      have noFirst : state.contents mid = [] :=
        contents_none state (coherent.load_eq_none.mp first)
      rw [noFirst, List.nil_append]
      cases second : state.load src with
      | none =>
          have noSecond : state.contents src = [] :=
            contents_none state (coherent.load_eq_none.mp second)
          exact Or.inl ⟨_, rfl, wellFormed_empty, rfl, noSecond.symm⟩
      | some s2 =>
          obtain ⟨copy, made, copyFormed, copyRunes, count⟩ :=
            copy_spec (coherent.load_wellFormed second)
          refine Or.inl ⟨copy, ?_, copyFormed, count, copyRunes.trans (contents_load second).symm⟩
          simp only [made]
          rfl
  | some s1 =>
      have firstFormed := coherent.load_wellFormed first
      rw [contents_load first]
      dsimp only
      generalize isTry : (if 1 < s1.refCount then false else tryAppend) = append
      have unshared : append = true → ¬ 1 < s1.refCount ∧ tryAppend = true := by
        intro isAppend
        rw [isAppend] at isTry
        split_ifs at isTry with shared
        exact ⟨shared, isTry⟩
      cases second : state.load src with
      | none =>
          have noSecond : state.contents src = [] :=
            contents_none state (coherent.load_eq_none.mp second)
          rw [noSecond, List.append_nil]
          cases append with
          | true =>
              obtain ⟨single, isTry⟩ := unshared rfl
              exact Or.inr ⟨s1, s1, rfl, isTry, rfl, single, firstFormed, rfl, rfl⟩
          | false =>
              obtain ⟨copy, made, copyFormed, copyRunes, count⟩ := copy_spec firstFormed
              refine Or.inl ⟨copy, ?_, copyFormed, count, copyRunes⟩
              simp only [made]
              rfl
      | some s2 =>
          have secondFormed := coherent.load_wellFormed second
          rw [contents_load second]
          cases append with
          | true =>
              obtain ⟨single, isTry⟩ := unshared rfl
              obtain ⟨appended, made, appendedFormed, isRunes, count⟩ :=
                append_spec firstFormed secondFormed
              refine Or.inr ⟨s1, appended, ?_, isTry, rfl, single, appendedFormed, count, isRunes⟩
              simp only [made]
              rfl
          | false =>
              exact Or.inl ⟨s1.concat s2, rfl, wellFormed_concat firstFormed secondFormed, rfl,
                runes_concat s1 s2⟩

theorem addc_spec (coherent : Coherent state) (src mid dest : Fin slotCount) :
    Matches state (.addc src mid dest) (state.addc src mid dest) := by
  unfold addc
  rcases concatString_spec coherent mid src (decide (mid = dest)) with
    ⟨string, made, wellFormed, count, isRunes⟩ |
    ⟨first, string, made, same, loaded, single, wellFormed, count, isRunes⟩
  · rw [made]
    obtain ⟨later, contents⟩ := putNew_spec coherent dest wellFormed count
    rw [isRunes] at contents
    exact ⟨later, contents, rfl⟩
  · rw [made]
    obtain ⟨id, holds, live⟩ := load_some loaded
    have contents := @contents_overwrite_unshared _ _ coherent _ _ _ string holds live single
    rw [isRunes] at contents
    refine ⟨coherent_overwrite coherent holds live wellFormed count, ?_, rfl⟩
    rw [Contents.perform, ← of_decide_eq_true same]
    exact contents

theorem slicec_spec (coherent : Coherent state) (dest : Fin slotCount) (start stop : ℤ) :
    Matches state (.slicec dest start stop) (state.slicec dest start stop) := by
  unfold slicec
  cases loaded : state.load dest with
  | none =>
      have isNil : state.slots dest = none := coherent.load_eq_none.mp loaded
      have noRunes := contents_none state isNil
      dsimp only
      by_cases whole : start = 0 ∧ stop = 0
      · have accepted : 0 ≤ start ∧ start ≤ stop ∧ stop ≤ (state.contents dest).length := by
          omega
        have unchanged : state.setSlot dest none = state := by
          unfold setSlot
          rw [← isNil, Function.update_eq_self]
        rw [if_pos whole, unchanged]
        refine ⟨coherent, ?_, ?_⟩
        · rw [Contents.perform, if_pos accepted, noRunes]
          dsimp only [sliceRunes]
          rw [List.drop_nil, List.take_nil, ← noRunes, Function.update_eq_self]
        · rw [Contents.perform, if_pos accepted]
          rfl
      · have refused : ¬ (0 ≤ start ∧ start ≤ stop ∧ stop ≤ (state.contents dest).length) := by
          rw [noRunes, List.length_nil]
          omega
        rw [if_neg whole]
        refine ⟨coherent, ?_, ?_⟩
        · rw [Contents.perform, if_neg refused]
        · rw [Contents.perform, if_neg refused]
          rfl
  | some string =>
      have wellFormed := coherent.load_wellFormed loaded
      have isRunes := contents_load loaded
      have length : (state.contents dest).length = string.length := by
        rw [isRunes, length_runes]
      dsimp only
      by_cases accepted : 0 ≤ start ∧ start ≤ stop ∧ stop ≤ string.length
      · obtain ⟨sliced, made, slicedFormed, slicedRunes, count⟩ :=
          slice_ok wellFormed accepted.1 accepted.2.1 accepted.2.2
        obtain ⟨later, contents⟩ := putNew_spec coherent dest slicedFormed count
        rw [made]
        refine ⟨later, ?_, ?_⟩
        · rw [Contents.perform, length, if_pos accepted, isRunes, ← slicedRunes]
          exact contents
        · rw [Contents.perform, length, if_pos accepted]
          rfl
      · obtain ⟨exception, refused⟩ := slice_error accepted
        rw [refused]
        refine ⟨coherent, ?_, ?_⟩
        · rw [Contents.perform, length, if_neg accepted]
        · rw [Contents.perform, length, if_neg accepted]
          rfl

theorem indc_spec (coherent : Coherent state) (src : Fin slotCount) (index : ℤ) :
    Matches state (.indc src index) (state, state.indc src index) := by
  refine ⟨coherent, ?_, ?_⟩
  · rw [Contents.perform]
    split_ifs <;> rfl
  · unfold indc
    rw [Contents.perform]
    cases loaded : state.load src with
    | none =>
        have noRunes := contents_none state (coherent.load_eq_none.mp loaded)
        rw [noRunes]
        split_ifs <;> rfl
    | some string =>
        rw [contents_load loaded, getElem?_runes]
        simp only [getRune_spec]
        by_cases inside : 0 ≤ index ∧ index < string.length
        · rw [if_pos inside, if_pos inside.1, if_pos (show index.toNat < string.length by omega)]
          rfl
        · rw [if_neg inside]
          split_ifs with low high
          · omega
          · rfl
          · rfl

theorem text_spec (coherent : Coherent state) (slot : Fin slotCount) :
    Matches state (.text slot) (state.text slot) := by
  unfold text
  cases loaded : state.load slot with
  | none =>
      have noRunes := contents_none state (coherent.load_eq_none.mp loaded)
      refine ⟨coherent, rfl, ?_⟩
      rw [Contents.perform, noRunes]
      rfl
  | some string =>
      obtain ⟨id, holds, live⟩ := load_some loaded
      obtain ⟨wellFormed, sameRunes, isText, count⟩ := str_spec (coherent.load_wellFormed loaded)
      refine ⟨coherent_overwrite coherent holds live wellFormed count, ?_, ?_⟩
      · funext other
        dsimp only [Contents.perform]
        rw [contents_overwrite coherent holds live]
        split_ifs with isSame
        · rw [sameRunes, contents_some state isSame live]
        · rfl
      · rw [Contents.perform, contents_load loaded, ← isText]
        rfl

theorem perform_spec (coherent : Coherent state) (action : Action slotCount) :
    Matches state action (state.perform action) := by
  cases action with
  | movp dest src =>
      obtain ⟨later, contents⟩ := movp_spec coherent dest src
      exact ⟨later, contents, rfl⟩
  | insc dest rune index => exact insc_spec coherent dest rune index
  | addc src mid dest => exact addc_spec coherent src mid dest
  | slicec dest start stop => exact slicec_spec coherent dest start stop
  | indc src index => exact indc_spec coherent src index
  | text slot => exact text_spec coherent slot

/-- Every sequence of string instructions does to the contents of the slots what
the abstract instructions do, with the same results. -/
theorem run_refines (coherent : Coherent state) (actions : List (Action slotCount)) :
    Coherent (state.run actions).1 ∧
      (state.run actions).1.contents = (state.contents.run actions).1 ∧
      (state.run actions).2.map Outcome.result = (state.contents.run actions).2 := by
  induction actions generalizing state with
  | nil => exact ⟨coherent, rfl, rfl⟩
  | cons action actions ih =>
      have matched := perform_spec coherent action
      obtain ⟨later, contents, results⟩ := ih matched.coherent
      rw [matched.contents] at contents results
      refine ⟨later, contents, ?_⟩
      simp only [run, Contents.run, List.map_cons, matched.result, results]

/-- Slots that are all nil. -/
def init : StringState slotCount where
  heap := Heap.empty
  slots _ := none

theorem coherent_init : Coherent (init : StringState slotCount) where
  counts := by
    refine ⟨fun _ => 0, Sound.empty.congr fun id => ?_⟩
    simp [slotRefs, init]
  strings id string live := by cases live

/-- A string shared by two slots is copied before it is widened; then it is
appended to itself. -/
theorem run_refines_shared :
    let actions : List (Action 2) :=
      [.insc 0 0x61 0, .movp 1 0, .insc 0 0x308f 1, .addc 0 0 0, .text 1, .text 0]
    let state := (init.run actions).1
    state.contents 0 = [0x61, 0x308f, 0x61, 0x308f] ∧ state.contents 1 = [0x61] := by
  intro actions state
  obtain ⟨-, contents, -⟩ := run_refines (coherent_init : Coherent (init : StringState 2)) actions
  rw [show state.contents = _ from contents]
  decide

end StringState

end Disvm.Strings
