import Mathlib.Algebra.Order.Ring.Nat
import Mathlib.Data.List.Basic

/-!
# Byte memory

Memory as a function from addresses to bytes, with 32-bit little-endian words,
fills, and extents of addresses on which two memories agree.
-/

namespace Disvm.ByteMemory

abbrev Memory := ℕ → UInt8

/-- The addresses from `start` on, `size` of them. -/
structure Extent where
  start : ℕ
  size : ℕ
  deriving DecidableEq, Repr

namespace Extent

def Contains (extent : Extent) (address : ℕ) : Prop :=
  extent.start ≤ address ∧ address < extent.start + extent.size

def Within (inner outer : Extent) : Prop :=
  outer.start ≤ inner.start ∧ inner.start + inner.size ≤ outer.start + outer.size

def Apart (first second : Extent) : Prop :=
  first.start + first.size ≤ second.start ∨ second.start + second.size ≤ first.start

theorem Apart.symm {first second : Extent} (apart : Apart first second) : Apart second first :=
  Or.symm apart

/-- Parts of separate extents are separate. -/
theorem Apart.within {first second innerFirst innerSecond : Extent}
    (apart : Apart first second) (inFirst : Within innerFirst first)
    (inSecond : Within innerSecond second) : Apart innerFirst innerSecond := by
  unfold Apart Within at *
  omega

theorem Within.contains {inner outer : Extent} (within : Within inner outer) {address : ℕ}
    (inside : inner.Contains address) : outer.Contains address := by
  unfold Within Contains at *
  omega

theorem Apart.notContains {first second : Extent} (apart : Apart first second) {address : ℕ}
    (inside : first.Contains address) : ¬ second.Contains address := by
  unfold Apart Contains at *
  omega

end Extent

/-- Both memories have the same bytes in the extent. -/
def SameOn (extent : Extent) (before after : Memory) : Prop :=
  ∀ address, extent.Contains address → after address = before address

theorem SameOn.refl (extent : Extent) (memory : Memory) : SameOn extent memory memory :=
  fun _ _ => rfl

theorem SameOn.trans {extent : Extent} {first second third : Memory}
    (one : SameOn extent first second) (two : SameOn extent second third) :
    SameOn extent first third := by
  intro address inside
  rw [two address inside, one address inside]

theorem SameOn.within {inner outer : Extent} {before after : Memory}
    (same : SameOn outer before after) (within : inner.Within outer) :
    SameOn inner before after :=
  fun address inside => same address (within.contains inside)

/-- All bytes of an extent are set to one value. -/
def fill (extent : Extent) (byte : UInt8) (memory : Memory) : Memory := fun address =>
  if extent.start ≤ address ∧ address < extent.start + extent.size then byte
  else memory address

def readWord (memory : Memory) (address : ℕ) : ℕ :=
  (memory address).toNat + 256 * (memory (address + 1)).toNat +
    65536 * (memory (address + 2)).toNat + 16777216 * (memory (address + 3)).toNat

def writeWord (address value : ℕ) (memory : Memory) : Memory := fun other =>
  if other = address then UInt8.ofNat value
  else if other = address + 1 then UInt8.ofNat (value / 256)
  else if other = address + 2 then UInt8.ofNat (value / 65536)
  else if other = address + 3 then UInt8.ofNat (value / 16777216)
  else memory other

/-- The extent of a word. -/
def wordAt (address : ℕ) : Extent where
  start := address
  size := 4

theorem fill_inside {extent : Extent} {address : ℕ} (inside : extent.Contains address)
    (byte : UInt8) (memory : Memory) : fill extent byte memory address = byte :=
  if_pos inside

theorem fill_outside {extent : Extent} {address : ℕ} (outside : ¬ extent.Contains address)
    (byte : UInt8) (memory : Memory) : fill extent byte memory address = memory address :=
  if_neg outside

theorem writeWord_outside {address other : ℕ} (outside : ¬ (wordAt address).Contains other)
    (value : ℕ) (memory : Memory) : writeWord address value memory other = memory other := by
  unfold Extent.Contains wordAt at outside
  dsimp only at outside
  unfold writeWord
  rw [if_neg (by omega), if_neg (by omega), if_neg (by omega), if_neg (by omega)]

theorem readWord_writeWord {value : ℕ} (small : value < 2 ^ 32) (address : ℕ)
    (memory : Memory) : readWord (writeWord address value memory) address = value := by
  simp [readWord, writeWord, UInt8.toNat_ofNat']
  omega

/-- A word is read from its extent only. -/
theorem SameOn.readWord {before after : Memory} {address : ℕ}
    (same : SameOn (wordAt address) before after) :
    readWord after address = readWord before address := by
  have inside : ∀ offset < 4, after (address + offset) = before (address + offset) := by
    intro offset small
    refine same _ ⟨?_, ?_⟩ <;> simp only [wordAt] <;> omega
  unfold ByteMemory.readWord
  rw [inside 1 (by omega), inside 2 (by omega), inside 3 (by omega),
    show after address = before address from inside 0 (by omega)]

theorem sameOn_fill {extent filled : Extent} (apart : extent.Apart filled) (byte : UInt8)
    (memory : Memory) : SameOn extent memory (fill filled byte memory) :=
  fun _ inside => fill_outside (apart.notContains inside) byte memory

theorem sameOn_writeWord {extent : Extent} {address : ℕ} (apart : extent.Apart (wordAt address))
    (value : ℕ) (memory : Memory) : SameOn extent memory (writeWord address value memory) :=
  fun _ inside => writeWord_outside (apart.notContains inside) value memory

theorem sameOn_update {extent : Extent} {address : ℕ} (outside : ¬ extent.Contains address)
    (byte : UInt8) (memory : Memory) :
    SameOn extent memory (Function.update memory address byte) := by
  intro other inside
  refine Function.update_of_ne ?_ byte memory
  rintro rfl
  exact outside inside

end Disvm.ByteMemory
