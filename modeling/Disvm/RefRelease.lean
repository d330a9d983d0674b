import Disvm.RefCounting
import Mathlib.Algebra.Order.Ring.Nat

/-!
# Releasing references

Dropping a reference lowers the count of its cell; the last one frees the cell
and drops the references that it carries, and so on.  Each cell is freed once,
so the releases owed are bounded by the references in the heap.  In a sound heap
the cascade leaves a sound heap without the dropped references, and no freed
cell is accessed.
-/

namespace Disvm.RefCounting

/-- A layout whose counts can be set. -/
structure Counted (Cell : Type*) extends Layout Cell where
  setCount : ℕ → Cell → Cell
  refCount_setCount : ∀ count cell, refCount (setCount count cell) = count
  refs_setCount : ∀ count cell, refs (setCount count cell) = refs cell
  setCount_setCount : ∀ first second cell,
    setCount first (setCount second cell) = setCount first cell
  setCount_refCount : ∀ cell, setCount (refCount cell) cell = cell

section Release

variable {Cell : Type*} (counted : Counted Cell)

def addRef (heap : Heap Cell) (id : ℕ) : Heap Cell :=
  heap.modify id fun cell => counted.setCount (counted.refCount cell + 1) cell

def dropRef (heap : Heap Cell) (id : ℕ) : Heap Cell :=
  heap.modify id fun cell => counted.setCount (counted.refCount cell - 1) cell

/-- The references that a possible cell carries. -/
def carried : Option Cell → ℕ
  | none => 0
  | some cell => (counted.refs cell).length

/-- The releases that may still be made. -/
def owed (heap : Heap Cell) (pending : List ℕ) : ℕ :=
  pending.length + ((List.range heap.limit).map fun id => carried counted (heap.cells id)).sum

/-- Drop references in order, each with what it frees, and collect the accesses
to cells that are not in the heap. -/
def releaseAll : ℕ → Heap Cell → List ℕ → Heap Cell × List ℕ
  | 0, heap, _ => (heap, [])
  | _ + 1, heap, [] => (heap, [])
  | fuel + 1, heap, id :: pending =>
      match heap.cells id with
      | none =>
          let (later, touched) := releaseAll fuel heap pending
          (later, id :: touched)
      | some cell =>
          if counted.refCount cell = 1 then
            releaseAll fuel (heap.erase id) (counted.refs cell ++ pending)
          else
            releaseAll fuel (dropRef counted heap id) pending

def release (heap : Heap Cell) (pending : List ℕ) : Heap Cell × List ℕ :=
  releaseAll counted (owed counted heap pending) heap pending

end Release

section Rules

variable {Cell : Type*} {counted : Counted Cell} {heap later : Heap Cell}

/-- Cells go and change their counts, and nothing else. -/
def Shrinks (counted : Counted Cell) (heap later : Heap Cell) : Prop :=
  later.limit = heap.limit ∧ ∀ id cell, later.cells id = some cell →
    ∃ earlier, heap.cells id = some earlier ∧
      cell = counted.setCount (counted.refCount cell) earlier

theorem Shrinks.refl : Shrinks counted heap heap :=
  ⟨rfl, fun _ cell live => ⟨cell, live, (counted.setCount_refCount cell).symm⟩⟩

theorem Shrinks.trans {middle : Heap Cell} (first : Shrinks counted heap middle)
    (second : Shrinks counted middle later) : Shrinks counted heap later := by
  refine ⟨second.1.trans first.1, fun id cell live => ?_⟩
  obtain ⟨between, found, same⟩ := second.2 id cell live
  obtain ⟨earlier, start, sameBetween⟩ := first.2 id between found
  refine ⟨earlier, start, same.trans ?_⟩
  rw [sameBetween, counted.setCount_setCount]

theorem shrinks_erase (id : ℕ) : Shrinks counted heap (heap.erase id) := by
  refine ⟨rfl, fun other cell live => ?_⟩
  by_cases same : other = id
  · subst same
    rw [Heap.erase_self] at live
    cases live
  · rw [Heap.erase_other same] at live
    exact ⟨cell, live, (counted.setCount_refCount cell).symm⟩

theorem shrinks_setCount (id : ℕ) (count : Cell → ℕ) :
    Shrinks counted heap (heap.modify id fun cell => counted.setCount (count cell) cell) := by
  refine ⟨rfl, fun other cell live => ?_⟩
  by_cases same : other = id
  · subst same
    obtain ⟨earlier, found, rfl⟩ : ∃ earlier, heap.cells other = some earlier ∧
        counted.setCount (count earlier) earlier = cell := by
      simpa [Heap.modify] using live
    exact ⟨earlier, found, by rw [counted.refCount_setCount]⟩
  · rw [Heap.modify_other same] at live
    exact ⟨cell, live, (counted.setCount_refCount cell).symm⟩

theorem shrinks_dropRef (id : ℕ) : Shrinks counted heap (dropRef counted heap id) :=
  shrinks_setCount id fun cell => counted.refCount cell - 1

theorem shrinks_addRef (id : ℕ) : Shrinks counted heap (addRef counted heap id) :=
  shrinks_setCount id fun cell => counted.refCount cell + 1

/-- A cell that goes carries nothing any more. -/
theorem owed_erase {id : ℕ} {cell : Cell} (live : heap.cells id = some cell)
    (pending : List ℕ) :
    owed counted (heap.erase id) (counted.refs cell ++ pending) = owed counted heap pending := by
  have inside : id ∈ List.range heap.limit := List.mem_range.mpr (Heap.lt_limit live)
  have sums : ∀ (list : List ℕ), id ∈ list → list.Nodup →
      (list.map fun other => carried counted ((heap.erase id).cells other)).sum +
          (counted.refs cell).length =
        (list.map fun other => carried counted (heap.cells other)).sum := by
    intro list member nodup
    induction list with
    | nil => cases member
    | cons head tail ih =>
        obtain ⟨notTail, tailNodup⟩ := List.nodup_cons.mp nodup
        rw [List.map_cons, List.map_cons, List.sum_cons, List.sum_cons]
        rcases List.mem_cons.mp member with rfl | inTail
        · have others : tail.map (fun other => carried counted ((heap.erase id).cells other)) =
              tail.map fun other => carried counted (heap.cells other) := by
            refine List.map_congr_left fun other isTail => ?_
            rw [Heap.erase_other]
            rintro rfl
            exact notTail isTail
          rw [others, Heap.erase_self, live]
          simp only [carried]
          omega
        · have rest := ih inTail tailNodup
          have different : head ≠ id := by
            rintro rfl
            exact notTail inTail
          rw [Heap.erase_other different]
          omega
  have total := sums (List.range heap.limit) inside List.nodup_range
  unfold owed
  rw [List.length_append, show (heap.erase id).limit = heap.limit from rfl]
  omega

theorem owed_dropRef (id : ℕ) (pending : List ℕ) :
    owed counted (dropRef counted heap id) pending = owed counted heap pending := by
  unfold owed
  congr 2
  refine List.map_congr_left fun other _ => ?_
  by_cases same : other = id
  · subst same
    unfold dropRef Heap.modify
    simp only [if_true]
    cases heap.cells other with
    | none => rfl
    | some cell => simp only [Option.map_some, carried, counted.refs_setCount]
  · rw [dropRef, Heap.modify_other same]

theorem owed_cons (id : ℕ) (pending : List ℕ) :
    owed counted heap (id :: pending) = owed counted heap pending + 1 := by
  simp only [owed, List.length_cons]
  omega

theorem release_nil : release counted heap [] = (heap, []) := by
  unfold release
  cases owed counted heap [] <;> rfl

/-- The last reference to a cell is dropped. -/
theorem release_last {id : ℕ} {cell : Cell} (live : heap.cells id = some cell)
    (last : counted.refCount cell = 1) (pending : List ℕ) :
    release counted heap (id :: pending) =
      release counted (heap.erase id) (counted.refs cell ++ pending) := by
  unfold release
  rw [owed_cons, releaseAll, owed_erase live]
  simp only [live, if_pos last]

/-- One of several references to a cell is dropped. -/
theorem release_shared {id : ℕ} {cell : Cell} (live : heap.cells id = some cell)
    (several : counted.refCount cell ≠ 1) (pending : List ℕ) :
    release counted heap (id :: pending) = release counted (dropRef counted heap id) pending := by
  unfold release
  rw [owed_cons, releaseAll, owed_dropRef]
  simp only [live, if_neg several]

/-- The cascade in a sound heap. -/
theorem releaseAll_sound {fuel : ℕ} {pending : List ℕ} {others after : ℕ → ℕ}
    (enough : owed counted heap pending ≤ fuel) (sound : Sound counted.toLayout heap others)
    (dropped : ∀ id, after id + pending.count id = others id) :
    ∃ later, releaseAll counted fuel heap pending = (later, []) ∧
      Sound counted.toLayout later after ∧ Shrinks counted heap later := by
  induction fuel generalizing heap pending others with
  | zero =>
      have empty : pending = [] := by
        refine List.length_eq_zero_iff.mp ?_
        unfold owed at enough
        omega
      subst empty
      refine ⟨heap, rfl, sound.congr fun id => ?_, Shrinks.refl⟩
      have balance := dropped id
      rwa [List.count_nil, Nat.add_zero] at balance
  | succ fuel ih =>
      cases pending with
      | nil =>
          refine ⟨heap, rfl, sound.congr fun id => ?_, Shrinks.refl⟩
          have balance := dropped id
          rwa [List.count_nil, Nat.add_zero] at balance
      | cons id pending =>
          rw [owed_cons] at enough
          have held : 0 < others id := by
            have balance := dropped id
            rw [List.count_cons_self] at balance
            omega
          obtain ⟨cell, live⟩ := sound.live_of_outside held
          simp only [releaseAll, live]
          by_cases last : counted.refCount cell = 1
          · rw [if_pos last]
            have freed : Sound counted.toLayout (heap.erase id) fun target =>
                after target + (counted.refs cell ++ pending).count target := by
              refine sound.free live last fun target => ?_
              have balance := dropped target
              rw [count_cons_single] at balance
              rw [List.count_append]
              omega
            obtain ⟨later, released, laterSound, shrinks⟩ :=
              ih (by rw [owed_erase live]; omega) freed fun _ => rfl
            exact ⟨later, released, laterSound, (shrinks_erase id).trans shrinks⟩
          · rw [if_neg last]
            have counts := sound.refCount live
            have lowered : Sound counted.toLayout (dropRef counted heap id) fun target =>
                after target + pending.count target := by
              refine sound.dropRef live ?_ (counted.refs_setCount _ cell) fun target => ?_
              · rw [counted.refCount_setCount]
                omega
              · have balance := dropped target
                rw [count_cons_single] at balance
                omega
            obtain ⟨later, released, laterSound, shrinks⟩ :=
              ih (by rw [owed_dropRef]; omega) lowered fun _ => rfl
            exact ⟨later, released, laterSound, (shrinks_dropRef id).trans shrinks⟩

theorem addRef_sound {id : ℕ} {cell : Cell} {others after : ℕ → ℕ}
    (sound : Sound counted.toLayout heap others) (live : heap.cells id = some cell)
    (added : ∀ target, after target = others target + single id target) :
    Sound counted.toLayout (addRef counted heap id) after :=
  sound.addRef live (counted.refCount_setCount _ _) (counted.refs_setCount _ _) added

/-- Releasing references that are held from outside. -/
theorem release_sound {pending : List ℕ} {others after : ℕ → ℕ}
    (sound : Sound counted.toLayout heap others)
    (dropped : ∀ id, after id + pending.count id = others id) :
    ∃ later, release counted heap pending = (later, []) ∧
      Sound counted.toLayout later after ∧ Shrinks counted heap later :=
  releaseAll_sound (Nat.le_refl _) sound dropped

end Rules

end Disvm.RefCounting
