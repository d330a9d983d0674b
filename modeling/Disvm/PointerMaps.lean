import Disvm.ObjectMemory

/-!
# Readers of pointer maps

The map of a type has one bit for each word, the highest bit of a byte first.  It is read when
references are counted, when allocations are marked, and for a single offset.
-/

namespace Disvm.PointerMaps

open ObjectMemory

/-- The size and the map of a `type_descriptor_t`. -/
structure PointerMap where
  sizeInBytes : ℤ
  map : List UInt8

/-- The words of a block of memory. -/
abbrev Block := ℕ → BitVec 32

def nil : BitVec 32 := 0

/-- `std::bitset`. -/
def flags (words8 : UInt8) (bit : ℕ) : Bool :=
  words8.toNat.testBit bit

/-- A call for a field, if it is made. -/
def callIf (condition : Bool) (field : ℕ) : List ℕ :=
  if condition then [field] else []

/-- The fields that `enum_pointer_fields` calls back for, from a byte of the map on. -/
def enumFrom (memory : Block) : List UInt8 → (field : ℕ) → List ℕ
  | [], _ => []
  | words8 :: map, field =>
      let calls :=
        if words8 = 0 then []
        else
          callIf (flags words8 7 && memory field != nil) field ++
          callIf (flags words8 6 && memory (field + 1) != nil) (field + 1) ++
          callIf (flags words8 5 && memory (field + 2) != nil) (field + 2) ++
          callIf (flags words8 4 && memory (field + 3) != nil) (field + 3) ++
          callIf (flags words8 3 && memory (field + 4) != nil) (field + 4) ++
          callIf (flags words8 2 && memory (field + 5) != nil) (field + 5) ++
          callIf (flags words8 1 && memory (field + 6) != nil) (field + 6) ++
          callIf (flags words8 0 && memory (field + 7) != nil) (field + 7)
      calls ++ enumFrom memory map (field + 8)

def enumPointerFields (typeDesc : PointerMap) (memory : Block) : List ℕ :=
  enumFrom memory typeDesc.map 0

/-- The fields that `mark_pointer_fields` calls `mark_pointer_maybe` for. -/
def markFrom : List UInt8 → (field : ℕ) → List ℕ
  | [], _ => []
  | words8 :: map, field =>
      let calls :=
        if words8 = 0 then []
        else
          callIf (flags words8 7) field ++
          callIf (flags words8 6) (field + 1) ++
          callIf (flags words8 5) (field + 2) ++
          callIf (flags words8 4) (field + 3) ++
          callIf (flags words8 3) (field + 4) ++
          callIf (flags words8 2) (field + 5) ++
          callIf (flags words8 1) (field + 6) ++
          callIf (flags words8 0) (field + 7)
      calls ++ markFrom map (field + 8)

/-- The allocations that are pushed: `mark_pointer_maybe` leaves nil and allocations of the
current colour out. -/
def markPointerMaybe (isCurrent : BitVec 32 → Bool) (memory : Block) (field : ℕ) : List ℕ :=
  if memory field ≠ nil ∧ isCurrent (memory field) = false then [field] else []

def markPointerFields (typeDesc : PointerMap) (isCurrent : BitVec 32 → Bool) (memory : Block) :
    List ℕ :=
  (markFrom typeDesc.map 0).flatMap (markPointerMaybe isCurrent memory)

/-- `is_offset_pointer`. -/
def isOffsetPointer (typeDesc : PointerMap) (offset : ℕ) : Bool :=
  if typeDesc.sizeInBytes = 0 then false
  else
    let byteOffset := offset / 8
    if inside : byteOffset < typeDesc.map.length then
      let words8 := typeDesc.map[byteOffset]
      if words8 ≠ 0 then flags words8 (7 - offset % 8) else false
    else false

/-- The words that are not nil and have their bit set, in increasing order. -/
def pointerWords (typeDesc : PointerMap) (memory : Block) : List ℕ :=
  (List.range (8 * typeDesc.map.length)).filter fun field =>
    designates typeDesc.map field && memory field != nil

/-- The three readers agree.  Every word that is not nil is marked, unless its allocation has
been marked already. -/
structure ReadersAgree (typeDesc : PointerMap) (memory : Block) : Prop where
  enumerated : enumPointerFields typeDesc memory = pointerWords typeDesc memory
  marked : ∀ isCurrent, markPointerFields typeDesc isCurrent memory =
    (pointerWords typeDesc memory).filter fun field => !isCurrent (memory field)
  accepted : ∀ field, isOffsetPointer typeDesc field = true ∧ memory field ≠ nil ↔
    field ∈ pointerWords typeDesc memory

/-- The readers agree, but no offset of a type without a size is accepted. -/
structure ReadersAgreeOnSizes (typeDesc : PointerMap) (memory : Block) : Prop where
  enumerated : enumPointerFields typeDesc memory = pointerWords typeDesc memory
  marked : ∀ isCurrent, markPointerFields typeDesc isCurrent memory =
    (pointerWords typeDesc memory).filter fun field => !isCurrent (memory field)
  accepted : ∀ field, isOffsetPointer typeDesc field = true ∧ memory field ≠ nil ↔
    typeDesc.sizeInBytes ≠ 0 ∧ field ∈ pointerWords typeDesc memory

section Byte

theorem filter_cons_eq (test : ℕ → Bool) (field : ℕ) (fields : List ℕ) :
    (field :: fields).filter test = callIf (test field) field ++ fields.filter test := by
  rw [List.filter_cons]
  cases isTest : test field <;> rfl

/-- The calls for the words of one byte. -/
theorem eight_calls (test : ℕ → Bool) (field : ℕ) :
    (List.range' field 8).filter test =
      callIf (test field) field ++ callIf (test (field + 1)) (field + 1) ++
      callIf (test (field + 2)) (field + 2) ++ callIf (test (field + 3)) (field + 3) ++
      callIf (test (field + 4)) (field + 4) ++ callIf (test (field + 5)) (field + 5) ++
      callIf (test (field + 6)) (field + 6) ++ callIf (test (field + 7)) (field + 7) := by
  simp only [List.range'_succ, List.range'_zero, filter_cons_eq, List.filter_nil,
    List.append_nil, List.append_assoc]

theorem designates_first (words8 : UInt8) (map : List UInt8) {bit : ℕ} (inside : bit < 8) :
    designates (words8 :: map) bit = flags words8 (7 - bit) := by
  have isByte : bit / 8 = 0 := Nat.div_eq_of_lt inside
  unfold designates
  rw [isByte, Nat.mod_eq_of_lt inside]
  rfl

theorem designates_later (words8 : UInt8) (map : List UInt8) (field : ℕ) :
    designates (words8 :: map) (field + 8) = designates map field := by
  unfold designates
  rw [Nat.add_div_right _ (by decide), Nat.add_mod_right, List.getElem?_cons_succ]

theorem flags_zero (bit : ℕ) : flags 0 bit = false :=
  Nat.zero_testBit bit

/-- The words of a byte and those behind it. -/
theorem filter_designates (words8 : UInt8) (map : List UInt8) (field : ℕ) (other : ℕ → Bool) :
    (List.range' field (8 * (words8 :: map).length)).filter
        (fun place => designates (words8 :: map) (place - field) && other place) =
      (List.range' field 8).filter
          (fun place => flags words8 (7 - (place - field)) && other place) ++
        (List.range' (field + 8) (8 * map.length)).filter
          fun place => designates map (place - (field + 8)) && other place := by
  have split : 8 * (words8 :: map).length = 8 + 8 * map.length := by
    rw [List.length_cons]
    omega
  rw [split, ← List.range'_append_1, List.filter_append]
  congr 1
  · apply List.filter_congr
    intro place member
    rw [List.mem_range'_1] at member
    rw [designates_first words8 map (by omega)]
  · apply List.filter_congr
    intro place member
    rw [List.mem_range'_1] at member
    have isPlace : place - field = place - (field + 8) + 8 := by omega
    rw [isPlace, designates_later]

end Byte

section Map

variable (typeDesc : PointerMap) (memory : Block)

theorem enumFrom_eq (map : List UInt8) (field : ℕ) :
    enumFrom memory map field =
      (List.range' field (8 * map.length)).filter
        fun place => designates map (place - field) && memory place != nil := by
  induction map generalizing field with
  | nil => rfl
  | cons words8 map ih =>
      rw [enumFrom, filter_designates words8 map field fun place => memory place != nil, ih]
      congr 1
      split_ifs with isZero
      · subst isZero
        simp [flags_zero]
      · rw [eight_calls]
        simp

theorem markFrom_eq (map : List UInt8) (field : ℕ) :
    markFrom map field =
      (List.range' field (8 * map.length)).filter fun place => designates map (place - field) := by
  have whole := filter_designates
  induction map generalizing field with
  | nil => rfl
  | cons words8 map ih =>
      have split := whole words8 map field fun _ => true
      simp only [Bool.and_true] at split
      rw [markFrom, split, ih]
      congr 1
      split_ifs with isZero
      · subst isZero
        simp [flags_zero]
      · rw [eight_calls]
        simp

theorem enumPointerFields_eq :
    enumPointerFields typeDesc memory = pointerWords typeDesc memory := by
  unfold enumPointerFields pointerWords
  rw [enumFrom_eq, List.range_eq_range']
  rfl

theorem markPointerFields_eq (isCurrent : BitVec 32 → Bool) :
    markPointerFields typeDesc isCurrent memory =
      (pointerWords typeDesc memory).filter fun field => !isCurrent (memory field) := by
  unfold markPointerFields pointerWords
  rw [markFrom_eq, List.filter_filter, ← List.range_eq_range']
  induction List.range (8 * typeDesc.map.length) with
  | nil => rfl
  | cons field fields ih =>
      rw [filter_cons_eq, List.flatMap_append, ih, filter_cons_eq]
      congr 1
      unfold markPointerMaybe callIf
      by_cases isNil : memory field = nil <;> cases isColour : isCurrent (memory field) <;>
        cases designates typeDesc.map field <;> simp [isNil, isColour]

theorem isOffsetPointer_iff (field : ℕ) :
    isOffsetPointer typeDesc field = true ↔
      typeDesc.sizeInBytes ≠ 0 ∧ designates typeDesc.map field = true := by
  unfold isOffsetPointer designates
  by_cases isZero : typeDesc.sizeInBytes = 0
  · simp [isZero]
  rw [if_neg isZero, and_iff_right isZero]
  dsimp only
  by_cases inside : field / 8 < typeDesc.map.length
  · rw [dif_pos inside, List.getElem?_eq_getElem inside]
    dsimp only
    by_cases isByte : typeDesc.map[field / 8] = 0
    · rw [if_neg (not_not_intro isByte), isByte]
      exact iff_of_false Bool.false_ne_true (by simp)
    · rw [if_pos isByte]
      rfl
  · rw [dif_neg inside, List.getElem?_eq_none (Nat.not_lt.mp inside)]

theorem designates_inside {map : List UInt8} {field : ℕ} (isBit : designates map field = true) :
    field < 8 * map.length := by
  unfold designates at isBit
  by_contra outside
  rw [List.getElem?_eq_none (by omega)] at isBit
  cases isBit

theorem mem_pointerWords (field : ℕ) :
    field ∈ pointerWords typeDesc memory ↔
      designates typeDesc.map field = true ∧ memory field ≠ nil := by
  rw [pointerWords, List.mem_filter, List.mem_range, Bool.and_eq_true, bne_iff_ne]
  exact and_iff_right_of_imp fun both => designates_inside both.1

/-- Counting and marking read the same words, and those of a type with a size are accepted. -/
theorem readers_agree_on_sizes : ReadersAgreeOnSizes typeDesc memory where
  enumerated := enumPointerFields_eq typeDesc memory
  marked := markPointerFields_eq typeDesc memory
  accepted field := by
    rw [isOffsetPointer_iff, mem_pointerWords, and_assoc]

end Map

/-- The words that objects count references of. -/
theorem enumPointerFields_pointerOffsets (type : TypeDescriptor) (memory : Block) :
    enumPointerFields ⟨type.sizeInBytes, type.pointerMap⟩ memory =
      type.pointerOffsets.filter fun field => memory field != nil := by
  rw [enumPointerFields_eq, pointerWords, TypeDescriptor.pointerOffsets, List.filter_filter]
  apply List.filter_congr
  intro field _
  exact Bool.and_comm _ _

/-- A type without a size whose map has a bit. -/
theorem no_size_not_accepted : ¬ ReadersAgree ⟨0, [0x80]⟩ fun _ => 1 := by
  intro agree
  have accepted := (agree.accepted 0).mpr (by decide)
  exact absurd accepted.1 (by decide)

end Disvm.PointerMaps
