import Mathlib.Order.Lattice
import Mathlib.Data.List.Basic

/-!
# Sorted tables

A table has its entries in the strict order of their keys, so that no two entries have one key.
An entry is looked up and entered in one pass.
-/

namespace Disvm.SortedTables

variable {Entry Key : Type*} [LinearOrder Key] (key : Entry → Key)

/-- The entries are in the order of their keys, each key once. -/
def Sorted (table : List Entry) : Prop :=
  table.Pairwise fun first second => key first < key second

/-- The table with an entry for a key, and that entry: the one that was there, or a fresh one. -/
def enter (fresh : Entry) : List Entry → List Entry × Entry
  | [] => ([fresh], fresh)
  | entry :: table =>
      if key fresh < key entry then (fresh :: entry :: table, fresh)
      else if key entry = key fresh then (entry :: table, entry)
      else
        let rest := enter fresh table
        (entry :: rest.1, rest.2)

section Enter

variable {key} {fresh : Entry} {table : List Entry}

theorem enter_key : key (enter key fresh table).2 = key fresh := by
  induction table with
  | nil => rfl
  | cons entry table ih =>
      rw [enter]
      split_ifs with _ same
      · rfl
      · exact same
      · exact ih

theorem enter_entry_mem : (enter key fresh table).2 ∈ (enter key fresh table).1 := by
  induction table with
  | nil => exact List.mem_cons_self
  | cons entry table ih =>
      rw [enter]
      split_ifs
      · exact List.mem_cons_self
      · exact List.mem_cons_self
      · exact List.mem_cons_of_mem _ ih

theorem mem_enter_of_mem {entry : Entry} (member : entry ∈ table) :
    entry ∈ (enter key fresh table).1 := by
  induction table with
  | nil => cases member
  | cons first table ih =>
      rw [enter]
      split_ifs
      · exact List.mem_cons_of_mem _ member
      · exact member
      · rcases List.mem_cons.mp member with rfl | later
        · exact List.mem_cons_self
        · exact List.mem_cons_of_mem _ (ih later)

/-- The table grows by the fresh entry or not at all. -/
theorem enter_perm : (enter key fresh table).1.Perm (fresh :: table) ∧
      (enter key fresh table).2 = fresh ∨
    (enter key fresh table).1 = table ∧ (enter key fresh table).2 ∈ table := by
  induction table with
  | nil => exact Or.inl ⟨List.Perm.refl _, rfl⟩
  | cons entry table ih =>
      rw [enter]
      split_ifs
      · exact Or.inl ⟨List.Perm.refl _, rfl⟩
      · exact Or.inr ⟨rfl, List.mem_cons_self⟩
      · rcases ih with ⟨perm, isFresh⟩ | ⟨same, member⟩
        · exact Or.inl ⟨(perm.cons entry).trans (List.Perm.swap fresh entry table), isFresh⟩
        · exact Or.inr ⟨congrArg _ same, List.mem_cons_of_mem _ member⟩

theorem Sorted.enter (sorted : Sorted key table) : Sorted key (enter key fresh table).1 := by
  induction table with
  | nil => exact List.pairwise_singleton _ _
  | cons entry table ih =>
      obtain ⟨first, later⟩ := List.pairwise_cons.mp sorted
      rw [SortedTables.enter]
      split_ifs with before same
      · apply List.Pairwise.cons _ sorted
        intro other member
        rcases List.mem_cons.mp member with rfl | further
        · exact before
        · exact before.trans (first other further)
      · exact sorted
      · have behind : key entry < key fresh := lt_of_le_of_ne (not_lt.mp before) same
        apply List.Pairwise.cons _ (ih later)
        intro other member
        rcases @enter_perm _ _ _ key fresh table with ⟨perm, -⟩ | ⟨isSame, -⟩
        · rcases List.mem_cons.mp (perm.mem_iff.mp member) with rfl | further
          · exact behind
          · exact first other further
        · exact first other (isSame ▸ member)

/-- A key has one entry. -/
theorem Sorted.eq_of_key {first second : Entry} (sorted : Sorted key table)
    (isFirst : first ∈ table) (isSecond : second ∈ table) (same : key first = key second) :
    first = second := by
  have once : table.Pairwise fun one other => key one = key other → one = other :=
    sorted.imp fun before equal => absurd equal before.ne
  have flipped : table.Pairwise (flip fun one other => key one = key other → one = other) :=
    sorted.imp fun before equal => absurd equal before.ne'
  exact once.forall_of_forall_of_flip (fun _ _ _ => rfl) flipped isFirst isSecond same

end Enter

end Disvm.SortedTables
