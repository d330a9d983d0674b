import Disvm.DataReading

/-!
# What initial values leave in memory

Pieces that come one behind the other do not touch each other: after all of them have been
stored, each of them is there.
-/

namespace Disvm.DataWriter

open ModuleReader ModuleWriter TypeLayout DataSection

/-- The bytes from an address on. -/
def Has (memory : Memory) (address : DataSection.Address) (data : List Cell) : Prop :=
  0 ≤ address.offset ∧ ∀ i < data.length,
    (memory.cells address.region)[address.offset.toNat + i]? = data[i]?

/-- Bytes that no piece says anything about are zero. -/
def ZeroElsewhere (memory : Memory) (region : Region) (first last : ℕ) (pieces : List Piece) :
    Prop :=
  ∀ i : ℕ, first ≤ i → i < last →
    (∀ piece ∈ pieces, i < piece.offset ∨ piece.offset + piece.size ≤ i) →
    (memory.cells region)[i]? = some (.byte 0)

section Shown

variable (setting : Setting)

mutual

/-- A piece is in memory, and its objects are not among the first ones.  Elements of an array that
are not given are zero. -/
def Piece.Shown (memory : Memory) : Piece → (old : ℕ) → (base : DataSection.Address) → Prop
  | .value offset v, _, base => Has memory (base.plus offset) v.cells
  | .text offset name, old, base => ∃ object ≥ old,
      Has memory (base.plus offset) (pointerCells object) ∧
        memory.objects[object]? = some (.string name)
  | .array offset desc left, old, base => ∃ object ≥ old,
      Has memory (base.plus offset) (pointerCells object) ∧
        memory.objects[object]? = some (arrayObject setting desc left)
  | .elements offset desc left pieces, old, base => ∃ object ≥ old,
      Has memory (base.plus offset) (pointerCells object) ∧
        (∃ cells : List Cell, cells.length = arraySize setting desc left ∧
          memory.objects[object]? =
            some (.array ((setting.typeAt desc).elim 0 TypeDescriptor.sizeInBytes) left cells)) ∧
        Shown memory pieces (object + 1) ⟨.elements object, 0⟩ ∧
        ZeroElsewhere memory (.elements object) 0 (arraySize setting desc left) pieces

def Shown (memory : Memory) : List Piece → (old : ℕ) → (base : DataSection.Address) → Prop
  | [], _, _ => True
  | piece :: pieces, old, base => piece.Shown memory old base ∧ Shown memory pieces old base

end

end Shown

/-- Only the bytes of a range have changed, and new objects have been made. -/
structure Outside (memory memory' : Memory) (region : Region) (first last : ℤ) : Prop where
  count : memory.objects.length ≤ memory'.objects.length
  objects : ∀ number < memory.objects.length, region ≠ .elements number →
    memory'.objects[number]? = memory.objects[number]?
  moduleData : region ≠ .moduleData → memory'.moduleData = memory.moduleData
  length : (memory'.cells region).length = (memory.cells region).length
  cells : ∀ i : ℕ, (i < first ∨ last ≤ i) →
    (memory'.cells region)[i]? = (memory.cells region)[i]?
  array : ∀ number, region = .elements number → ∀ elementSize length cells,
    memory.objects[number]? = some (.array elementSize length cells) →
      ∃ cells', memory'.objects[number]? = some (.array elementSize length cells')

/-- The block of an address is there. -/
def Known (memory : Memory) : Region → Prop
  | .moduleData => True
  | .elements number => number < memory.objects.length

section Outside

variable {memory memory' memory'' : Memory} {region other : Region} {first last further : ℤ}

theorem Outside.refl (memory : Memory) (region : Region) (first last : ℤ) :
    Outside memory memory region first last :=
  ⟨le_rfl, fun _ _ _ => rfl, fun _ => rfl, rfl, fun _ _ => rfl, fun _ _ _ _ cells is => ⟨cells, is⟩⟩

theorem Outside.mono (outside : Outside memory memory' region first last) {before behind : ℤ}
    (isBefore : before ≤ first) (isBehind : last ≤ behind) :
    Outside memory memory' region before behind where
  count := outside.count
  objects := outside.objects
  moduleData := outside.moduleData
  length := outside.length
  cells i isOutside := outside.cells i (by omega)
  array := outside.array

theorem Outside.trans (one : Outside memory memory' region first last)
    (two : Outside memory' memory'' region first last) :
    Outside memory memory'' region first last where
  count := one.count.trans two.count
  objects number old isOther :=
    (two.objects number (old.trans_le one.count) isOther).trans (one.objects number old isOther)
  moduleData isOther := (two.moduleData isOther).trans (one.moduleData isOther)
  length := two.length.trans one.length
  cells i isOutside := (two.cells i isOutside).trans (one.cells i isOutside)
  array number isRegion elementSize length cells isArray := by
    obtain ⟨cells', isArray'⟩ := one.array number isRegion elementSize length cells isArray
    exact two.array number isRegion elementSize length cells' isArray'

/-- Other blocks stay as they are. -/
theorem Outside.cells_other (outside : Outside memory memory' region first last)
    (known : Known memory other) (isOther : region ≠ other) :
    memory'.cells other = memory.cells other := by
  cases other with
  | moduleData => exact outside.moduleData isOther
  | elements number =>
      simp only [Memory.cells]
      rw [outside.objects number known isOther]

theorem new_ne (known : Known memory region) : .elements memory.objects.length ≠ region := by
  rintro rfl
  exact lt_irrefl _ known

/-- What is stored in a new block does not matter. -/
theorem Outside.inner {before behind : ℤ} (one : Outside memory memory' region first last)
    (two : Outside memory' memory'' (.elements memory.objects.length) before behind)
    (known : Known memory region) : Outside memory memory'' region first last := by
  have same : memory''.cells region = memory'.cells region := by
    apply two.cells_other _ (new_ne known)
    cases region with
    | moduleData => trivial
    | elements number => exact lt_of_lt_of_le known one.count
  have old : ∀ number < memory.objects.length,
      memory''.objects[number]? = memory'.objects[number]? := by
    intro number isOld
    apply two.objects number (isOld.trans_le one.count)
    intro isNew
    exact isOld.ne (Region.elements.inj isNew).symm
  refine ⟨one.count.trans two.count, ?_, ?_, same ▸ one.length, ?_, ?_⟩
  · exact fun number isOld isOther => (old number isOld).trans (one.objects number isOld isOther)
  · exact fun isOther => (two.moduleData nofun).trans (one.moduleData isOther)
  · exact fun i isOutside => same ▸ one.cells i isOutside
  · intro number isRegion elementSize length cells isArray
    have isOld := (List.getElem?_eq_some_iff.mp isArray).choose
    obtain ⟨cells', isArray'⟩ := one.array number isRegion elementSize length cells isArray
    exact ⟨cells', (old number isOld).trans isArray'⟩

theorem Known.mono (known : Known memory region)
    (count : memory.objects.length ≤ memory'.objects.length) : Known memory' region := by
  cases region with
  | moduleData => trivial
  | elements number => exact lt_of_lt_of_le known count

theorem known_of_held {address : DataSection.Address} {size : ℕ} (holds : memory.Holds address size)
    (nonempty : 0 < size) : Known memory address.region := by
  cases isRegion : address.region with
  | moduleData => trivial
  | elements number =>
      obtain ⟨elementSize, length, cells, isArray⟩ := known_of_holds holds nonempty isRegion
      exact (List.getElem?_eq_some_iff.mp isArray).choose

theorem Has.congr {address : DataSection.Address} {data : List Cell} (has : Has memory address data)
    (same : ∀ i : ℕ, address.offset ≤ i → i < address.offset + data.length →
      (memory'.cells address.region)[i]? = (memory.cells address.region)[i]?) :
    Has memory' address data := by
  obtain ⟨isNat, isData⟩ := has
  refine ⟨isNat, fun i inside => ?_⟩
  rw [← isData i inside]
  apply same <;> omega

end Outside

section Shown

variable {setting : Setting} {memory memory' : Memory}

mutual

/-- A piece stays there if its bytes and its objects stay as they are. -/
theorem Piece.Shown.congr : ∀ (piece : Piece) {old : ℕ} {base : DataSection.Address},
    piece.Shown setting memory old base →
    (∀ number, old ≤ number → number < memory.objects.length →
      memory'.objects[number]? = memory.objects[number]?) →
    (∀ i : ℕ, base.offset + piece.offset ≤ i → i < base.offset + piece.offset + piece.size →
      (memory'.cells base.region)[i]? = (memory.cells base.region)[i]?) →
    piece.Shown setting memory' old base
  | .value offset v, old, base, shown, _, cells => by
      rw [Piece.Shown] at shown ⊢
      apply Has.congr shown
      rw [length_cells]
      exact cells
  | .text offset name, old, base, shown, objects, cells => by
      rw [Piece.Shown] at shown ⊢
      obtain ⟨object, isNew, has, isObject⟩ := shown
      refine ⟨object, isNew, Has.congr has ?_, ?_⟩
      · rw [length_pointerCells]
        exact cells
      · rw [objects object isNew (List.getElem?_eq_some_iff.mp isObject).choose, isObject]
  | .array offset desc left, old, base, shown, objects, cells => by
      rw [Piece.Shown] at shown ⊢
      obtain ⟨object, isNew, has, isObject⟩ := shown
      refine ⟨object, isNew, Has.congr has ?_, ?_⟩
      · rw [length_pointerCells]
        exact cells
      · rw [objects object isNew (List.getElem?_eq_some_iff.mp isObject).choose, isObject]
  | .elements offset desc left pieces, old, base, shown, objects, cells => by
      rw [Piece.Shown] at shown ⊢
      obtain ⟨object, isNew, has, ⟨elements, isLength, isObject⟩, areShown, zero⟩ := shown
      have same := objects object isNew (List.getElem?_eq_some_iff.mp isObject).choose
      have sameCells : memory'.cells (.elements object) = memory.cells (.elements object) := by
        simp only [Memory.cells]
        rw [same]
      refine ⟨object, isNew, Has.congr has ?_, ⟨elements, isLength, same.trans isObject⟩, ?_, ?_⟩
      · rw [length_pointerCells]
        exact cells
      · apply Shown.congr pieces areShown
        · intro number behind inside
          exact objects number (by omega) inside
        · exact fun i => by rw [sameCells]
      · unfold ZeroElsewhere
        rw [sameCells]
        exact zero

theorem Shown.congr : ∀ (pieces : List Piece) {old : ℕ} {base : DataSection.Address},
    Shown setting memory pieces old base →
    (∀ number, old ≤ number → number < memory.objects.length →
      memory'.objects[number]? = memory.objects[number]?) →
    (∀ i : ℕ, (memory'.cells base.region)[i]? = (memory.cells base.region)[i]?) →
    Shown setting memory' pieces old base
  | [], _, _, _, _, _ => trivial
  | piece :: pieces, _, _, shown, objects, cells =>
      ⟨Piece.Shown.congr piece shown.1 objects fun i _ _ => cells i,
        Shown.congr pieces shown.2 objects cells⟩

end

mutual

theorem Piece.Shown.mono : ∀ (piece : Piece) {old older : ℕ} {base : DataSection.Address},
    piece.Shown setting memory old base → older ≤ old → piece.Shown setting memory older base
  | .value _ _, _, _, _, shown, _ => by
      rw [Piece.Shown] at shown ⊢
      exact shown
  | .text _ _, _, _, _, shown, le => by
      rw [Piece.Shown] at shown ⊢
      exact shown.imp fun _ found => ⟨le.trans found.1, found.2⟩
  | .array _ _ _, _, _, _, shown, le => by
      rw [Piece.Shown] at shown ⊢
      exact shown.imp fun _ found => ⟨le.trans found.1, found.2⟩
  | .elements _ _ _ _, _, _, _, shown, le => by
      rw [Piece.Shown] at shown ⊢
      exact shown.imp fun _ found => ⟨le.trans found.1, found.2⟩

theorem Shown.mono : ∀ (pieces : List Piece) {old older : ℕ} {base : DataSection.Address},
    Shown setting memory pieces old base → older ≤ old → Shown setting memory pieces older base
  | [], _, _, _, _, _ => trivial
  | piece :: pieces, _, _, _, shown, le =>
      ⟨Piece.Shown.mono piece shown.1 le, Shown.mono pieces shown.2 le⟩

end

end Shown

section Stores

variable {setting : Setting} {memory memory' : Memory} {base : DataSection.Address} {offset : ℤ}

theorem getElem?_overwrite {cells data : List Cell} {offset : ℕ}
    (inside : offset + data.length ≤ cells.length) (i : ℕ) :
    (overwrite cells offset data)[i]? =
      if i < offset then cells[i]? else if i < offset + data.length then data[i - offset]?
        else cells[i]? := by
  have isLength : (cells.take offset).length = offset := by
    rw [List.length_take]
    omega
  unfold overwrite
  rw [List.append_assoc]
  split_ifs with before behind
  · rw [List.getElem?_append_left (by omega), List.getElem?_take_of_lt before]
  · rw [List.getElem?_append_right (by omega), isLength, List.getElem?_append_left (by omega)]
  · rw [List.getElem?_append_right (by omega), isLength, List.getElem?_append_right (by omega),
      List.getElem?_drop]
    congr 1
    omega

/-- The block after a write. -/
theorem cells_write {data : List Cell} (holds : memory.Holds (base.plus offset) data.length)
    (nonempty : 0 < data.length) :
    (memory.write (base.plus offset) data).cells base.region =
      overwrite (memory.cells base.region) (base.offset + offset).toNat data := by
  unfold Memory.write DataSection.Address.plus
  cases isRegion : base.region with
  | moduleData => rfl
  | elements number =>
      obtain ⟨elementSize, length, cells, isArray⟩ := known_of_holds holds nonempty isRegion
      simp [Memory.cells, isArray, Object.overwrite, Object.cells]

theorem outside_write {data : List Cell} (isStart : base.offset = 0)
    (holds : memory.Holds (base.plus offset) data.length) (nonempty : 0 < data.length) :
    Outside memory (memory.write (base.plus offset) data) base.region offset
      (offset + data.length) where
  count := by
    unfold Memory.write
    cases (base.plus offset).region <;> simp
  objects number old isOther := by
    unfold Memory.write DataSection.Address.plus
    cases isRegion : base.region with
    | moduleData => rfl
    | elements target =>
        rw [isRegion] at isOther
        have different : target ≠ number := fun same => isOther (congrArg _ same)
        simp [different]
  moduleData isOther := by
    unfold Memory.write DataSection.Address.plus
    cases isRegion : base.region with
    | moduleData => exact absurd isRegion isOther
    | elements target => rfl
  length := length_cells_write holds base.region
  cells i isOutside := by
    have inside := holds.2
    have isNat := holds.1
    simp only [DataSection.Address.plus] at inside isNat
    rw [cells_write holds nonempty, getElem?_overwrite (by omega)]
    split_ifs with before behind
    · rfl
    · omega
    · rfl
  array number isRegion elementSize length cells isArray := by
    unfold Memory.write DataSection.Address.plus
    rw [isRegion]
    simp [isArray, Object.overwrite]

theorem has_write {data : List Cell} (holds : memory.Holds (base.plus offset) data.length)
    (nonempty : 0 < data.length) :
    Has (memory.write (base.plus offset) data) (base.plus offset) data := by
  have inside := holds.2
  have isNat := holds.1
  refine ⟨isNat, fun i isIndex => ?_⟩
  show ((memory.write (base.plus offset) data).cells base.region)[(base.offset + offset).toNat + i]?
    = _
  simp only [DataSection.Address.plus] at inside isNat
  rw [cells_write holds nonempty, getElem?_overwrite (by omega), if_neg (by omega),
    if_pos (by omega)]
  congr 1
  omega

theorem outside_alloc {region : Region} (known : Known memory region) (object : Object)
    (first last : ℤ) : Outside memory (memory.alloc object) region first last := by
  have same : (memory.alloc object).cells region = memory.cells region := by
    cases region with
    | moduleData => rfl
    | elements number =>
        simp only [Memory.cells, Memory.alloc]
        rw [List.getElem?_append_left known]
  refine ⟨?_, ?_, fun _ => rfl, congrArg _ same, fun i _ => by rw [same], ?_⟩
  · simp [Memory.alloc]
  · intro number old _
    exact List.getElem?_append_left old
  · intro number _ elementSize length cells isArray
    have old := (List.getElem?_eq_some_iff.mp isArray).choose
    exact ⟨cells, (List.getElem?_append_left old).trans isArray⟩

/-- A pointer to a new object is stored. -/
theorem place_spec (object : Object) (isStart : base.offset = 0)
    (holds : memory.Holds (base.plus offset) pointerSize) :
    Outside memory (place object (base.plus offset) memory) base.region offset
        (offset + pointerSize) ∧
      Has (place object (base.plus offset) memory) (base.plus offset)
        (pointerCells memory.objects.length) ∧
      (place object (base.plus offset) memory).objects[memory.objects.length]? = some object := by
  have known : Known memory (base.plus offset).region := known_of_held holds (by decide)
  have allocated := holds_alloc object holds
  rw [← length_pointerCells memory.objects.length] at allocated
  have nonempty : 0 < (pointerCells memory.objects.length).length := by
    rw [length_pointerCells]
    decide
  have written := outside_write isStart allocated nonempty
  rw [length_pointerCells] at written
  exact ⟨(outside_alloc known object _ _).trans written, has_write allocated nonempty,
    place_new holds⟩

theorem size_pos (piece : Piece) : 0 < piece.size := by
  cases piece with
  | value offset v => cases v <;> exact Nat.zero_lt_succ _
  | text offset name => exact Nat.zero_lt_succ _
  | array offset desc left => exact Nat.zero_lt_succ _
  | elements offset desc left pieces => exact Nat.zero_lt_succ _

mutual

/-- A piece is there after it has been stored, and nothing else has changed: so what no piece says
anything about stays as it is. -/
theorem store_spec {depth : ℕ} : ∀ (piece : Piece) {base : DataSection.Address} {memory : Memory},
    piece.Laid setting depth → base.offset = 0 →
    memory.Holds (base.plus piece.offset) piece.size →
    Outside memory (piece.store setting base memory) base.region piece.offset
        (piece.offset + piece.size) ∧
      piece.Shown setting (piece.store setting base memory) memory.objects.length base
  | .value offset v, base, memory, _, isStart, holds => by
      have nonempty : 0 < v.cells.length := by
        rw [length_cells]
        exact size_pos (.value offset v)
      have isHeld : memory.Holds (base.plus offset) v.cells.length := by
        rw [length_cells]
        exact holds
      rw [Piece.store, Piece.Shown]
      have outside := outside_write isStart isHeld nonempty
      rw [length_cells] at outside
      exact ⟨outside, has_write isHeld nonempty⟩
  | .text offset name, base, memory, _, isStart, holds => by
      rw [Piece.store, Piece.Shown]
      obtain ⟨outside, has, isObject⟩ := place_spec (.string name) isStart holds
      exact ⟨outside, memory.objects.length, le_rfl, has, isObject⟩
  | .array offset desc left, base, memory, _, isStart, holds => by
      rw [Piece.store, Piece.Shown]
      obtain ⟨outside, has, isObject⟩ := place_spec (arrayObject setting desc left) isStart holds
      exact ⟨outside, memory.objects.length, le_rfl, has, isObject⟩
  | .elements offset desc left pieces, base, memory, laid, isStart, holds => by
      obtain ⟨-, -, small, isLaid⟩ := laid
      have isHeld : memory.Holds (base.plus offset) pointerSize := holds
      have known : Known memory (base.plus offset).region :=
        known_of_held isHeld (Nat.zero_lt_succ _)
      have isNew := @place_holds_new memory (base.plus offset) (arrayObject setting desc left)
        isHeld
      rw [place_cells] at isNew
      obtain ⟨outside, has, isObject⟩ := place_spec (arrayObject setting desc left) isStart isHeld
      have grown := (List.getElem?_eq_some_iff.mp isObject).choose
      obtain ⟨inner, areShown, unchanged⟩ :=
        stores_spec pieces isLaid le_rfl le_rfl small rfl isNew grown
      rw [Piece.store, Piece.Shown]
      refine ⟨outside.inner inner known, memory.objects.length, le_rfl, ?_, ?_, ?_, ?_⟩
      · apply Has.congr has
        intro i _ _
        rw [inner.cells_other (known.mono outside.count) (new_ne known)]
      · obtain ⟨cells, isArray⟩ := inner.array memory.objects.length rfl _ _ _ isObject
        refine ⟨cells, ?_, isArray⟩
        have isLength := inner.length
        simp only [Memory.cells] at isLength
        rw [isArray, isObject] at isLength
        exact isLength.trans place_cells
      · exact Shown.mono pieces areShown grown
      · intro i _ isIndex isOutside
        rw [unchanged i isOutside]
        simp only [Memory.cells]
        rw [isObject]
        exact List.getElem?_replicate_of_lt isIndex

theorem stores_spec {size depth : ℕ} : ∀ (pieces : List Piece) {first last : ℤ}
    {base : DataSection.Address} {memory : Memory}, Laid setting pieces first last depth →
    0 ≤ first → last ≤ size → size < 2 ^ 31 → base.offset = 0 → memory.Holds base size →
    Known memory base.region →
    Outside memory (stores setting pieces base memory) base.region first last ∧
      Shown setting (stores setting pieces base memory) pieces memory.objects.length base ∧
      ∀ i : ℕ, (∀ piece ∈ pieces, i < piece.offset ∨ piece.offset + piece.size ≤ i) →
        ((stores setting pieces base memory).cells base.region)[i]? =
          (memory.cells base.region)[i]?
  | [], first, last, base, memory, _, _, _, _, _, _, _ =>
      ⟨Outside.refl memory base.region first last, trivial, fun _ _ => rfl⟩
  | piece :: pieces, first, last, base, memory, laid, isNat, inside, small, isStart, holds,
      known => by
      obtain ⟨inRange, isHeld⟩ := laid.head isNat inside small isStart holds
      obtain ⟨behind, isLaid, rest⟩ := laid
      have isNext : 0 ≤ piece.offset + piece.size := by
        have positive := inRange.1
        omega
      have isLast := rest.le
      rw [stores]
      obtain ⟨outside, shown⟩ := store_spec piece isLaid isStart isHeld
      obtain ⟨later, areShown, unchanged⟩ := stores_spec pieces rest isNext inside small isStart
        (store_holds piece isLaid isHeld holds) (known.mono outside.count)
      refine ⟨(outside.mono behind isLast).trans (later.mono (by omega) le_rfl), ⟨?_, ?_⟩, ?_⟩
      · apply Piece.Shown.congr piece shown
        · intro number isNew inside
          apply later.objects number inside
          intro isRegion
          rw [isRegion] at known
          exact absurd known (Nat.not_lt.mpr isNew)
        · intro i _ below
          exact later.cells i (Or.inl (by omega))
      · exact Shown.mono pieces areShown outside.count
      · intro i isOutside
        obtain ⟨here, others⟩ := List.forall_mem_cons.mp isOutside
        exact (unchanged i others).trans (outside.cells i here)

end

end Stores

end Disvm.DataWriter
