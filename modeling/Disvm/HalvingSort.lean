import Mathlib.Data.List.Sort

/-!
# Merge sort by halves

A list is sorted by sorting its two halves, and merging them.  The length of the list is enough
fuel.
-/

namespace Disvm.HalvingSort

variable {Entry : Type} (le : Entry → Entry → Bool)

def sort : (fuel : ℕ) → List Entry → List Entry
  | 0, entries => entries
  | fuel + 1, entries =>
      if entries.length ≤ 1 then entries
      else
        (sort fuel (entries.take (entries.length / 2))).merge
          (sort fuel (entries.drop (entries.length / 2))) le

theorem sort_perm (fuel : ℕ) (entries : List Entry) : (sort le fuel entries).Perm entries := by
  induction fuel generalizing entries with
  | zero => exact List.Perm.refl entries
  | succ fuel ih =>
      rw [sort]
      split_ifs
      · exact List.Perm.refl entries
      · have parts := (ih (entries.take (entries.length / 2))).append
          (ih (entries.drop (entries.length / 2)))
        rw [List.take_append_drop] at parts
        exact (List.merge_perm_append _).trans parts

variable {le}

theorem sort_pairwise (trans : ∀ a b c, le a b → le b c → le a c)
    (total : ∀ a b, le a b || le b a) (fuel : ℕ) {entries : List Entry}
    (enough : entries.length ≤ fuel) : (sort le fuel entries).Pairwise fun a b => le a b := by
  induction fuel generalizing entries with
  | zero =>
      rw [sort, List.length_eq_zero_iff.mp (Nat.le_zero.mp enough)]
      exact List.Pairwise.nil
  | succ fuel ih =>
      rw [sort]
      split_ifs with short
      · match entries with
        | [] => exact List.Pairwise.nil
        | [entry] => exact List.pairwise_singleton _ _
        | _ :: _ :: _ => simp at short
      · apply List.pairwise_merge trans total
        · apply ih
          rw [List.length_take]
          omega
        · apply ih
          rw [List.length_drop]
          omega

end Disvm.HalvingSort
