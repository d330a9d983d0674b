import Disvm.RefCounting
import Mathlib.Data.List.ReduceOption

/-!
# References from slots

Finitely many slots that hold references, slots that a list of offsets
designates, and lists of fields.  A slot is set by giving up the reference that
it holds and taking another one; each rule says how the counts of the references
from slots change.
-/

namespace Disvm.RefCounting

variable {Slot : Type*} [Fintype Slot]

/-- The slots that hold a reference. -/
def slotRefs (slots : Slot → Option ℕ) (id : ℕ) : ℕ :=
  ∑ slot, (slots slot).toList.count id

variable [DecidableEq Slot]

/-- The references from all slots but one. -/
def otherRefs (slots : Slot → Option ℕ) (slot : Slot) (id : ℕ) : ℕ :=
  slotRefs (Function.update slots slot none) id

variable {slots : Slot → Option ℕ} {slot : Slot}

theorem slotRefs_update (slots : Slot → Option ℕ) (slot : Slot) (value : Option ℕ) (id : ℕ) :
    slotRefs (Function.update slots slot value) id + (slots slot).toList.count id =
      slotRefs slots id + value.toList.count id := by
  have changed := sum_update (fun other => (slots other).toList.count id) slot
    (value.toList.count id)
  have same : (fun other => (Function.update slots slot value other).toList.count id) =
      Function.update (fun other => (slots other).toList.count id) slot
        (value.toList.count id) := by
    funext other
    by_cases isOne : other = slot
    · subst isOne
      simp
    · simp [isOne]
  unfold slotRefs
  rw [same]
  exact changed

theorem otherRefs_add (slots : Slot → Option ℕ) (slot : Slot) (id : ℕ) :
    otherRefs slots slot id + (slots slot).toList.count id = slotRefs slots id := by
  have released := slotRefs_update slots slot none id
  rwa [Option.toList_none, List.count_nil, Nat.add_zero] at released

theorem slotRefs_set (slots : Slot → Option ℕ) (slot : Slot) (value : Option ℕ) (id : ℕ) :
    slotRefs (Function.update slots slot value) id =
      otherRefs slots slot id + value.toList.count id := by
  have changed := slotRefs_update slots slot value id
  have released := otherRefs_add slots slot id
  omega

theorem slotRefs_pos {id : ℕ} (holds : slots slot = some id) : 0 < slotRefs slots id := by
  have released := otherRefs_add slots slot id
  rw [holds, Option.toList_some, List.count_cons_self] at released
  omega

/-- Another slot's reference is still there. -/
theorem otherRefs_pos {other : Slot} {id : ℕ} (isOther : other ≠ slot)
    (holds : slots other = some id) : 0 < otherRefs slots slot id :=
  slotRefs_pos ((Function.update_of_ne isOther none slots).trans holds)

theorem count_filterMap_update {offsets : List ℕ} {offset : ℕ} (nodup : offsets.Nodup)
    (member : offset ∈ offsets) (slots : ℕ → Option ℕ) (value : Option ℕ) (id : ℕ) :
    (offsets.filterMap (Function.update slots offset value)).count id +
        (slots offset).toList.count id =
      (offsets.filterMap slots).count id + value.toList.count id := by
  induction offsets with
  | nil => cases member
  | cons first offsets ih =>
      have isCons : ∀ some' : ℕ → Option ℕ, ((first :: offsets).filterMap some').count id =
          (some' first).toList.count id + (offsets.filterMap some').count id := by
        intro some'
        rw [List.filterMap_cons]
        cases some' first with
        | none => simp
        | some target =>
            simp only [Option.toList_some, count_cons_single, List.count_nil]
            omega
      rw [isCons, isCons]
      obtain ⟨notLater, nodupLater⟩ := List.nodup_cons.mp nodup
      by_cases isFirst : offset = first
      · subst isFirst
        have unchanged : offsets.filterMap (Function.update slots offset value) =
            offsets.filterMap slots := by
          refine List.filterMap_congr fun other isOther => ?_
          rw [Function.update_of_ne]
          rintro rfl
          exact notLater isOther
        rw [unchanged, Function.update_self]
        omega
      · have later := ih nodupLater (List.mem_of_ne_of_mem isFirst member)
        rw [Function.update_of_ne fun same => isFirst same.symm]
        omega

theorem count_reduceOption_set {fields : List (Option ℕ)} {index : ℕ}
    (inside : index < fields.length) (value : Option ℕ) (target : ℕ) :
    (fields.set index value).reduceOption.count target +
        (fields[index]?.join).toList.count target =
      fields.reduceOption.count target + value.toList.count target := by
  induction fields generalizing index with
  | nil => cases inside
  | cons field fields ih =>
      cases index with
      | zero =>
          cases field <;> cases value <;> (simp [List.count_cons]; try omega)
      | succ index =>
          have rest := ih (Nat.lt_of_succ_lt_succ inside)
          cases field <;> simp [List.count_cons] at rest ⊢ <;> omega

end Disvm.RefCounting
