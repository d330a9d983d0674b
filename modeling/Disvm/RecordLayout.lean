import Mathlib.Algebra.Order.Group.Nat
import Mathlib.Data.Nat.Basic
import Mathlib.Tactic.Linarith

/-!
# Records in memory

The items of a record are placed one behind the other, each at the next offset that its
alignment divides.
-/

namespace Disvm.RecordLayout

/-- The first multiple of an alignment from an offset on. -/
def roundUp (offset align : ℕ) : ℕ :=
  (offset + (align - 1)) / align * align

section RoundUp

variable {offset other align : ℕ}

theorem dvd_roundUp (offset align : ℕ) : align ∣ roundUp offset align :=
  Nat.dvd_mul_left align _

theorem le_roundUp (positive : 0 < align) (offset : ℕ) : offset ≤ roundUp offset align := by
  have split := Nat.div_add_mod (offset + (align - 1)) align
  have rest := Nat.mod_lt (offset + (align - 1)) positive
  rw [mul_comm] at split
  unfold roundUp
  omega

theorem roundUp_lt (positive : 0 < align) (offset : ℕ) : roundUp offset align < offset + align := by
  have bound := Nat.div_mul_le_self (offset + (align - 1)) align
  unfold roundUp
  omega

/-- Nothing nearer is a multiple. -/
theorem roundUp_le (positive : 0 < align) (behind : offset ≤ other) (divides : align ∣ other) :
    roundUp offset align ≤ other := by
  obtain ⟨count, rfl⟩ := divides
  have near := roundUp_lt positive offset
  obtain ⟨place, isPlace⟩ := dvd_roundUp offset align
  rw [isPlace] at near ⊢
  apply Nat.mul_le_mul_left
  by_contra far
  have next : align * (count + 1) ≤ align * place := Nat.mul_le_mul_left align (by omega)
  rw [Nat.mul_add, Nat.mul_one] at next
  omega

theorem roundUp_of_dvd (positive : 0 < align) (divides : align ∣ offset) :
    roundUp offset align = offset :=
  le_antisymm (roundUp_le positive le_rfl divides) (le_roundUp positive offset)

/-- Rounding depends on the offset from a multiple only. -/
theorem roundUp_add (positive : 0 < align) {base : ℕ} (divides : align ∣ base) (offset : ℕ) :
    roundUp (base + offset) align = base + roundUp offset align := by
  obtain ⟨count, rfl⟩ := divides
  unfold roundUp
  rw [add_assoc, Nat.mul_add_div positive, Nat.add_mul, mul_comm count]

theorem roundUp_mono (positive : 0 < align) (behind : offset ≤ other) :
    roundUp offset align ≤ roundUp other align :=
  roundUp_le positive (behind.trans (le_roundUp positive other)) (dvd_roundUp other align)

theorem roundUp_le_of_dvd {first second : ℕ} (divides : first ∣ second) (isFirst : 0 < first)
    (isSecond : 0 < second) : roundUp offset first ≤ roundUp offset second :=
  roundUp_le isFirst (le_roundUp isSecond offset) (divides.trans (dvd_roundUp offset second))

end RoundUp

/-- What is placed.  Alignments are powers of two, so that one of any two divides the other. -/
structure Item where
  size : ℕ
  align : ℕ
  isPower : align.isPowerOfTwo

theorem Item.positive (item : Item) : 0 < item.align :=
  Nat.pos_of_isPowerOfTwo item.isPower

theorem dvd_of_le {first second : ℕ} (isFirst : first.isPowerOfTwo)
    (isSecond : second.isPowerOfTwo) (le : first ≤ second) : first ∣ second := by
  obtain ⟨low, rfl⟩ := isFirst
  obtain ⟨high, rfl⟩ := isSecond
  exact Nat.pow_dvd_pow 2 ((Nat.pow_le_pow_iff_right (by decide)).mp le)

/-- The alignment of a record. -/
def alignment : List Item → ℕ
  | [] => 1
  | item :: items => max item.align (alignment items)

/-- The offsets of the items, from an offset on. -/
def offsets : List Item → (offset : ℕ) → List ℕ
  | [], _ => []
  | item :: items, offset =>
      let place := roundUp offset item.align
      place :: offsets items (place + item.size)

/-- The end of the last item. -/
def finish : List Item → (offset : ℕ) → ℕ
  | [], offset => offset
  | item :: items, offset => finish items (roundUp offset item.align + item.size)

/-- The items with their offsets. -/
def placed (items : List Item) (offset : ℕ) : List (ℕ × Item) :=
  (offsets items offset).zip items

section Placed

variable (items others : List Item) (offset : ℕ)

theorem alignment_isPower : (alignment items).isPowerOfTwo := by
  induction items with
  | nil => exact ⟨0, rfl⟩
  | cons item items ih =>
      rw [alignment]
      rcases le_total item.align (alignment items) with small | large
      · rwa [max_eq_right small]
      · rw [max_eq_left large]
        exact item.isPower

theorem alignment_positive : 0 < alignment items :=
  Nat.pos_of_isPowerOfTwo (alignment_isPower items)

theorem dvd_alignment {item : Item} (member : item ∈ items) : item.align ∣ alignment items := by
  apply dvd_of_le item.isPower (alignment_isPower items)
  induction items with
  | nil => cases member
  | cons first items ih =>
      rw [alignment]
      rcases List.mem_cons.mp member with rfl | later
      · exact le_max_left _ _
      · exact (ih later).trans (le_max_right _ _)

theorem alignment_append :
    alignment (items ++ others) = max (alignment items) (alignment others) := by
  induction items with
  | nil => exact (max_eq_right (alignment_positive others)).symm
  | cons item items ih => rw [List.cons_append, alignment, alignment, ih, max_assoc]

@[simp]
theorem offsets_length : (offsets items offset).length = items.length := by
  induction items generalizing offset with
  | nil => rfl
  | cons item items ih => simp [offsets, ih]

theorem le_finish : offset ≤ finish items offset := by
  induction items generalizing offset with
  | nil => exact le_rfl
  | cons item items ih =>
      have here := le_roundUp item.positive offset
      have rest := ih (roundUp offset item.align + item.size)
      rw [finish]
      omega

theorem finish_append : finish (items ++ others) offset = finish others (finish items offset) := by
  induction items generalizing offset with
  | nil => rfl
  | cons item items ih => exact ih _

theorem offsets_append :
    offsets (items ++ others) offset =
      offsets items offset ++ offsets others (finish items offset) := by
  induction items generalizing offset with
  | nil => rfl
  | cons item items ih =>
      rw [List.cons_append, offsets, offsets, finish]
      exact congrArg _ (ih _)

/-- Every item stands at a multiple of its alignment. -/
theorem placed_aligned : ∀ entry ∈ placed items offset, entry.2.align ∣ entry.1 := by
  induction items generalizing offset with
  | nil => exact fun _ member => absurd member List.not_mem_nil
  | cons item items ih =>
      intro entry member
      rcases List.mem_cons.mp member with rfl | later
      · exact dvd_roundUp offset item.align
      · exact ih _ entry later

/-- Every item lies inside the record. -/
theorem placed_inside : ∀ entry ∈ placed items offset,
    offset ≤ entry.1 ∧ entry.1 + entry.2.size ≤ finish items offset := by
  induction items generalizing offset with
  | nil => exact fun _ member => absurd member List.not_mem_nil
  | cons item items ih =>
      have here := le_roundUp item.positive offset
      intro entry member
      rcases List.mem_cons.mp member with rfl | later
      · exact ⟨here, le_finish items _⟩
      · have inside := ih _ entry later
        exact ⟨by omega, inside.2⟩

/-- No item begins before the end of an earlier one. -/
theorem placed_ordered :
    (placed items offset).Pairwise fun first second => first.1 + first.2.size ≤ second.1 := by
  induction items generalizing offset with
  | nil => exact List.Pairwise.nil
  | cons item items ih =>
      apply List.Pairwise.cons
      · intro entry member
        exact (placed_inside items _ entry member).1
      · exact ih _

/-- A record that begins at a multiple of its alignment has its items where they are in a record
that begins at nothing. -/
theorem offsets_add {base : ℕ} (divides : alignment items ∣ base) :
    offsets items (base + offset) = (offsets items offset).map (base + ·) ∧
      finish items (base + offset) = base + finish items offset := by
  induction items generalizing offset with
  | nil => exact ⟨rfl, rfl⟩
  | cons item items ih =>
      have first : item.align ∣ base :=
        (dvd_alignment _ List.mem_cons_self).trans divides
      have rest : alignment items ∣ base := by
        apply dvd_trans _ divides
        exact dvd_of_le (alignment_isPower items) (alignment_isPower _) (le_max_right _ _)
      have next := ih (roundUp offset item.align + item.size) rest
      rw [offsets, offsets, finish, finish, roundUp_add item.positive first, add_assoc]
      rw [next.1, next.2]
      exact ⟨rfl, rfl⟩

end Placed

end Disvm.RecordLayout
