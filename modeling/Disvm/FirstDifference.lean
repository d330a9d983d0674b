import Mathlib.Order.Lattice
import Mathlib.Data.List.Infix
import Mathlib.Data.List.Lex
import Mathlib.Algebra.Order.Ring.Int

/-!
# Comparison up to the first difference

Two lists are ordered by the first elements in which they differ, or by their
lengths where there are none.  A loop that compares element by element finds the
same place.
-/

namespace Disvm

section Lists

variable {α : Type} {first second : List α} {index : ℕ} {left right : α}

/-- Lists that agree before an index and have different elements there. -/
inductive FirstDifference : List α → List α → ℕ → α → α → Prop
  | here {first second : List α} {left right : α} (different : left ≠ right) :
      FirstDifference (left :: first) (right :: second) 0 left right
  | there {first second : List α} {index : ℕ} {left right : α} (common : α)
      (below : FirstDifference first second index left right) :
      FirstDifference (common :: first) (common :: second) (index + 1) left right

theorem FirstDifference.ne (differs : FirstDifference first second index left right) :
    left ≠ right := by
  induction differs with
  | here different => exact different
  | there common below ih => exact ih

theorem FirstDifference.symm (differs : FirstDifference first second index left right) :
    FirstDifference second first index right left := by
  induction differs with
  | here different => exact .here different.symm
  | there common below ih => exact .there common ih

theorem FirstDifference.getElem? (differs : FirstDifference first second index left right) :
    first[index]? = some left ∧ second[index]? = some right := by
  induction differs with
  | here different => exact ⟨rfl, rfl⟩
  | there common below ih => simpa using ih

theorem FirstDifference.before (differs : FirstDifference first second index left right)
    {earlier : ℕ} (isEarlier : earlier < index) : first[earlier]? = second[earlier]? := by
  induction differs generalizing earlier with
  | here different => omega
  | there common below ih =>
      cases earlier with
      | zero => rfl
      | succ earlier => simpa using ih (by omega)

theorem FirstDifference.lt_length (differs : FirstDifference first second index left right) :
    index < first.length ∧ index < second.length := by
  obtain ⟨isLeft, isRight⟩ := differs.getElem?
  exact ⟨(List.getElem?_eq_some_iff.mp isLeft).1, (List.getElem?_eq_some_iff.mp isRight).1⟩

theorem FirstDifference.unique {otherIndex : ℕ} {otherLeft otherRight : α}
    (differs : FirstDifference first second index left right)
    (other : FirstDifference first second otherIndex otherLeft otherRight) :
    otherIndex = index ∧ otherLeft = left ∧ otherRight = right := by
  induction differs generalizing otherIndex with
  | here different =>
      cases other with
      | here _ => exact ⟨rfl, rfl, rfl⟩
      | there _ _ => exact absurd rfl different
  | there common below ih =>
      cases other with
      | here different => exact absurd rfl different
      | there _ otherBelow =>
          obtain ⟨isIndex, isLeft, isRight⟩ := ih otherBelow
          exact ⟨by omega, isLeft, isRight⟩

theorem FirstDifference.not_prefixes (differs : FirstDifference first second index left right) :
    ¬ (first <+: second ∨ second <+: first) := by
  induction differs with
  | here different =>
      rintro (isPrefix | isPrefix)
      · exact different (List.cons_prefix_cons.mp isPrefix).1
      · exact different (List.cons_prefix_cons.mp isPrefix).1.symm
  | there common below ih =>
      rintro (isPrefix | isPrefix)
      · exact ih (Or.inl (List.cons_prefix_cons.mp isPrefix).2)
      · exact ih (Or.inr (List.cons_prefix_cons.mp isPrefix).2)

theorem prefix_getElem? (isPrefix : first <+: second) (inside : index < first.length) :
    first[index]? = second[index]? := by
  rw [List.getElem?_eq_getElem inside, isPrefix.getElem inside, ← List.getElem?_eq_getElem]

theorem prefix_or_difference [DecidableEq α] (first second : List α) :
    (first <+: second ∨ second <+: first) ∨
      ∃ index left right, FirstDifference first second index left right := by
  induction first generalizing second with
  | nil => exact Or.inl (Or.inl List.nil_prefix)
  | cons left first ih =>
      cases second with
      | nil => exact Or.inl (Or.inr List.nil_prefix)
      | cons right second =>
          by_cases same : left = right
          · subst same
            obtain (isPrefix | isPrefix) | ⟨index, rest⟩ := ih second
            · exact Or.inl (Or.inl (List.cons_prefix_cons.mpr ⟨rfl, isPrefix⟩))
            · exact Or.inl (Or.inr (List.cons_prefix_cons.mpr ⟨rfl, isPrefix⟩))
            · obtain ⟨_, _, differs⟩ := rest
              exact Or.inr ⟨index + 1, _, _, .there left differs⟩
          · exact Or.inr ⟨0, left, right, .here same⟩

end Lists

/-- The sign of the result is the order of the lists. -/
structure Agrees {α : Type} [LinearOrder α] (result : ℤ) (first second : List α) : Prop where
  negative : result < 0 ↔ first < second
  zero : result = 0 ↔ first = second
  positive : 0 < result ↔ second < first

section Signs

variable {α : Type} [LinearOrder α] {first second : List α} {index : ℕ} {left right : α}
  {result : ℤ}

theorem FirstDifference.lt_iff (differs : FirstDifference first second index left right) :
    first < second ↔ left < right := by
  induction differs with
  | here different =>
      rw [List.cons_lt_cons_iff]
      exact ⟨fun less => less.resolve_right fun same => different same.1, Or.inl⟩
  | there common below ih =>
      rw [List.cons_lt_cons_iff, ← ih]
      exact ⟨fun less => (less.resolve_left (lt_irrefl _)).2, fun less => Or.inr ⟨rfl, less⟩⟩

theorem prefix_lt_iff (isPrefix : first <+: second) :
    first < second ↔ first.length < second.length := by
  induction first generalizing second with
  | nil =>
      cases second with
      | nil => simp
      | cons => simp
  | cons element first ih =>
      obtain ⟨rest, rfl⟩ := isPrefix
      rw [List.cons_append, List.cons_lt_cons_iff, ih (List.prefix_append first rest),
        List.length_cons, List.length_cons]
      constructor
      · rintro (less | ⟨-, shorter⟩)
        · exact absurd less (lt_irrefl _)
        · omega
      · intro shorter
        exact Or.inr ⟨rfl, by omega⟩

theorem not_lt_of_isPrefix (isPrefix : first <+: second) : ¬ second < first := by
  intro less
  rcases isPrefix.length_le.lt_or_eq with shorter | same
  · exact lt_asymm less ((prefix_lt_iff isPrefix).mpr shorter)
  · rw [isPrefix.eq_of_length same] at less
    exact lt_irrefl _ less

theorem Agrees.symm (agrees : Agrees result first second) : Agrees (-result) second first where
  negative := by
    rw [← agrees.positive]
    omega
  zero := by
    rw [eq_comm (a := second), ← agrees.zero]
    omega
  positive := by
    rw [← agrees.negative]
    omega

theorem agrees_of_isPrefix (isPrefix : first <+: second) :
    Agrees ((first.length : ℤ) - second.length) first second := by
  have le := isPrefix.length_le
  constructor
  · rw [prefix_lt_iff isPrefix]
    omega
  · constructor
    · intro same
      exact isPrefix.eq_of_length (by omega)
    · intro same
      rw [same]
      omega
  · constructor
    · intro positive
      omega
    · intro less
      exact absurd less (not_lt_of_isPrefix isPrefix)

/-- Where one list is a prefix of the other the lengths decide. -/
theorem agrees_of_prefixes (isPrefix : first <+: second ∨ second <+: first) :
    Agrees ((first.length : ℤ) - second.length) first second := by
  rcases isPrefix with isPrefix | isPrefix
  · exact agrees_of_isPrefix isPrefix
  · have agrees := (agrees_of_isPrefix isPrefix).symm
    rwa [neg_sub] at agrees

/-- Where the lists differ the first difference decides. -/
theorem FirstDifference.agrees_iff (differs : FirstDifference first second index left right) :
    Agrees result first second ↔ result ≠ 0 ∧ (result < 0 ↔ left < right) := by
  have notSame : first ≠ second := fun same =>
    differs.not_prefixes (Or.inl (same ▸ List.prefix_refl _))
  constructor
  · intro agrees
    exact ⟨fun zero => notSame (agrees.zero.mp zero), agrees.negative.trans differs.lt_iff⟩
  · rintro ⟨notZero, negative⟩
    refine ⟨negative.trans differs.lt_iff.symm, ⟨fun zero => absurd zero notZero,
      fun same => absurd same notSame⟩, ?_⟩
    rw [differs.symm.lt_iff, ← not_le, ← not_le, not_iff_not]
    have atMost : left ≤ right ↔ left < right :=
      ⟨fun le => lt_of_le_of_ne le differs.ne, le_of_lt⟩
    rw [atMost, ← negative]
    omega

end Signs

/-- Elements are compared in turn; the verdict on the first two that differ is
returned. -/
def scan {α : Type} [DecidableEq α] (verdict : α → α → ℤ) (first second : ℕ → α) :
    (index left : ℕ) → ℤ
  | _, 0 => 0
  | index, left + 1 =>
      if first index ≠ second index then verdict (first index) (second index)
      else scan verdict first second (index + 1) left

section Loops

variable {α : Type} [DecidableEq α] {verdict : α → α → ℤ} {first second : ℕ → α}

theorem scan_same {index left : ℕ}
    (same : ∀ place, index ≤ place → place < index + left → first place = second place) :
    scan verdict first second index left = 0 := by
  induction left generalizing index with
  | zero => rfl
  | succ left ih =>
      rw [scan, if_neg (not_not.mpr (same index le_rfl (by omega)))]
      exact ih fun place low high => same place (by omega) (by omega)

theorem scan_at {index left place : ℕ} (low : index ≤ place) (high : place < index + left)
    (same : ∀ earlier, index ≤ earlier → earlier < place → first earlier = second earlier)
    (different : first place ≠ second place) :
    scan verdict first second index left = verdict (first place) (second place) := by
  induction left generalizing index with
  | zero => omega
  | succ left ih =>
      rw [scan]
      rcases low.lt_or_eq with before | isHere
      · rw [if_neg (not_not.mpr (same index le_rfl before))]
        exact ih (by omega) (by omega) fun earlier later => same earlier (by omega)
      · subst isHere
        rw [if_pos different]

end Loops

end Disvm
