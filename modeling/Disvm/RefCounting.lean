import Mathlib.Algebra.BigOperators.Group.Finset.Basic
import Mathlib.Algebra.Order.BigOperators.Group.Finset
import Mathlib.Data.Fintype.Basic

/-!
# Reference-counted heaps

A heap of cells that carry a reference count and refer to other cells.  The
heap is sound for a number of outside references to each cell when every count
is the number of references from the heap and from outside; a cell that is not
in the heap then has none.  Each rule says how one operation changes the
outside references for which the heap is sound.
-/

namespace Disvm.RefCounting

/-- Where a cell keeps its count and its references. -/
structure Layout (Cell : Type*) where
  refCount : Cell → ℕ
  refs : Cell → List ℕ

structure Heap (Cell : Type*) where
  cells : ℕ → Option Cell
  limit : ℕ
  fresh : ∀ id, limit ≤ id → cells id = none

namespace Heap

variable {Cell : Type*}

def empty : Heap Cell where
  cells _ := none
  limit := 0
  fresh _ _ := rfl

/-- Cells keep their identity: a freed one is never handed out again. -/
def allocate (heap : Heap Cell) (cell : Cell) : Heap Cell where
  cells id := if id = heap.limit then some cell else heap.cells id
  limit := heap.limit + 1
  fresh id above := by
    rw [if_neg (by omega)]
    exact heap.fresh id (by omega)

def modify (heap : Heap Cell) (id : ℕ) (change : Cell → Cell) : Heap Cell where
  cells other := if other = id then (heap.cells id).map change else heap.cells other
  limit := heap.limit
  fresh other above := by
    split
    · rename_i same
      rw [heap.fresh id (same ▸ above)]
      rfl
    · exact heap.fresh other above

def erase (heap : Heap Cell) (id : ℕ) : Heap Cell where
  cells other := if other = id then none else heap.cells other
  limit := heap.limit
  fresh other above := by
    split
    · rfl
    · exact heap.fresh other above

variable {heap : Heap Cell} {id : ℕ} {cell : Cell}

theorem lt_limit (live : heap.cells id = some cell) : id < heap.limit := by
  by_contra above
  rw [heap.fresh id (by omega)] at live
  cases live

@[simp]
theorem modify_self (live : heap.cells id = some cell) (change : Cell → Cell) :
    (heap.modify id change).cells id = some (change cell) := by
  simp [modify, live]

@[simp]
theorem modify_other {other : ℕ} (isOther : other ≠ id) (change : Cell → Cell) :
    (heap.modify id change).cells other = heap.cells other := by
  simp [modify, isOther]

@[simp]
theorem erase_self : (heap.erase id).cells id = none := by
  simp [erase]

@[simp]
theorem erase_other {other : ℕ} (isOther : other ≠ id) :
    (heap.erase id).cells other = heap.cells other := by
  simp [erase, isOther]

@[simp]
theorem allocate_self (cell : Cell) :
    (heap.allocate cell).cells heap.limit = some cell := by
  simp [allocate]

@[simp]
theorem allocate_other {other : ℕ} (isOther : other ≠ heap.limit) (cell : Cell) :
    (heap.allocate cell).cells other = heap.cells other := by
  simp [allocate, isOther]

/-- A cell stays in the heap whatever is done to its content. -/
theorem modify_isSome {other : ℕ} (change : Cell → Cell) :
    ((heap.modify id change).cells other).isSome = (heap.cells other).isSome := by
  by_cases same : other = id
  · subst same
    simp [modify]
  · rw [modify_other same]

end Heap

section Counting

variable {Cell : Type*} (layout : Layout Cell)

/-- The references to `target` that a possible cell carries. -/
def weight (target : ℕ) : Option Cell → ℕ
  | none => 0
  | some cell => (layout.refs cell).count target

/-- The references to `target` from the cells of the heap. -/
def incoming (heap : Heap Cell) (target : ℕ) : ℕ :=
  ∑ id ∈ Finset.range heap.limit, weight layout target (heap.cells id)

/-- The count of a cell; a cell that is not in the heap counts nothing. -/
def count (heap : Heap Cell) (id : ℕ) : ℕ :=
  match heap.cells id with
  | none => 0
  | some cell => layout.refCount cell

/-- One reference to a cell. -/
def single (id target : ℕ) : ℕ :=
  if target = id then 1 else 0

variable {heap : Heap Cell} {id : ℕ} {cell : Cell}

theorem count_some (live : heap.cells id = some cell) :
    count layout heap id = layout.refCount cell := by
  rw [count, live]

theorem count_none (dead : heap.cells id = none) : count layout heap id = 0 := by
  rw [count, dead]

@[simp]
theorem single_self : single id id = 1 :=
  if_pos rfl

theorem single_other {target : ℕ} (isOther : target ≠ id) : single id target = 0 :=
  if_neg isOther

theorem count_cons_single (list : List ℕ) (target : ℕ) :
    (id :: list).count target = list.count target + single id target := by
  rw [List.count_cons, single]
  simp only [beq_iff_eq, eq_comm (a := id)]

/-- A finite sum after a change at one index. -/
theorem sum_update {Index : Type*} [Fintype Index] [DecidableEq Index] (before : Index → ℕ)
    (index : Index) (value : ℕ) :
    ∑ other, Function.update before index value other + before index =
      ∑ other, before other + value := by
  have earlier := Finset.add_sum_erase Finset.univ before (Finset.mem_univ index)
  have later := Finset.add_sum_erase Finset.univ (Function.update before index value)
    (Finset.mem_univ index)
  have rest : ∑ other ∈ Finset.univ.erase index, Function.update before index value other =
      ∑ other ∈ Finset.univ.erase index, before other := by
    refine Finset.sum_congr rfl fun other member => ?_
    rw [Function.update_of_ne (Finset.ne_of_mem_erase member)]
  rw [Function.update_self] at later
  omega

/-- A sum changes by what one of its terms changes by. -/
theorem sum_change {limit : ℕ} (before after : ℕ → ℕ) (inside : id < limit)
    (others : ∀ other, other ≠ id → after other = before other) :
    ∑ other ∈ Finset.range limit, after other + before id =
      ∑ other ∈ Finset.range limit, before other + after id := by
  have member : id ∈ Finset.range limit := Finset.mem_range.mpr inside
  have earlier := Finset.add_sum_erase (Finset.range limit) before member
  have later := Finset.add_sum_erase (Finset.range limit) after member
  have rest : ∑ other ∈ (Finset.range limit).erase id, after other =
      ∑ other ∈ (Finset.range limit).erase id, before other := by
    refine Finset.sum_congr rfl fun other isMember => ?_
    exact others other (Finset.ne_of_mem_erase isMember)
  omega

/-- A pointwise change of one cell changes the sum by the two weights. -/
theorem incoming_change (after : Heap Cell) (inside : id < heap.limit)
    (limit : after.limit = heap.limit)
    (others : ∀ other, other ≠ id → after.cells other = heap.cells other)
    (target : ℕ) :
    incoming layout after target + weight layout target (heap.cells id) =
      incoming layout heap target + weight layout target (after.cells id) := by
  unfold incoming
  rw [limit]
  refine sum_change (fun other => weight layout target (heap.cells other))
    (fun other => weight layout target (after.cells other)) inside fun other isOther => ?_
  rw [others other isOther]

theorem incoming_modify (live : heap.cells id = some cell) (change : Cell → Cell)
    (target : ℕ) :
    incoming layout (heap.modify id change) target + (layout.refs cell).count target =
      incoming layout heap target + (layout.refs (change cell)).count target := by
  have changed := incoming_change layout (heap.modify id change) (Heap.lt_limit live) rfl
    (fun other isOther => Heap.modify_other isOther change) target
  rw [live, Heap.modify_self live] at changed
  exact changed

theorem incoming_erase (live : heap.cells id = some cell) (target : ℕ) :
    incoming layout (heap.erase id) target + (layout.refs cell).count target =
      incoming layout heap target := by
  have changed := incoming_change layout (heap.erase id) (Heap.lt_limit live) rfl
    (fun other isOther => Heap.erase_other isOther) target
  rw [live, Heap.erase_self] at changed
  exact changed

theorem incoming_allocate (heap : Heap Cell) (cell : Cell) (target : ℕ) :
    incoming layout (heap.allocate cell) target =
      incoming layout heap target + (layout.refs cell).count target := by
  unfold incoming
  rw [show (heap.allocate cell).limit = heap.limit + 1 from rfl, Finset.sum_range_succ,
    Heap.allocate_self]
  congr 1
  refine Finset.sum_congr rfl fun other member => ?_
  rw [Heap.allocate_other (Nat.ne_of_lt (Finset.mem_range.mp member))]

theorem incoming_pos (live : heap.cells id = some cell) {target : ℕ}
    (refers : target ∈ layout.refs cell) : 0 < incoming layout heap target := by
  have erased := incoming_erase layout live target
  have counted : 0 < (layout.refs cell).count target := List.count_pos_iff.mpr refers
  omega

theorem exists_of_incoming_pos {target : ℕ} (positive : 0 < incoming layout heap target) :
    ∃ id cell, heap.cells id = some cell ∧ target ∈ layout.refs cell := by
  obtain ⟨id, -, weighs⟩ := Finset.sum_pos_iff.mp positive
  cases found : heap.cells id with
  | none => simp [found, weight] at weighs
  | some cell =>
      rw [found] at weighs
      exact ⟨id, cell, found, List.count_pos_iff.mp weighs⟩

/-- The sum of all counts. -/
def totalCount (heap : Heap Cell) : ℕ :=
  ∑ id ∈ Finset.range heap.limit, count layout heap id

theorem totalCount_modify (live : heap.cells id = some cell) (change : Cell → Cell) :
    totalCount layout (heap.modify id change) + layout.refCount cell =
      totalCount layout heap + layout.refCount (change cell) := by
  rw [← count_some layout live, ← count_some layout (Heap.modify_self live change)]
  have inside : id < heap.limit := Heap.lt_limit live
  refine sum_change (count layout heap) (count layout (heap.modify id change)) inside
    fun other isOther => ?_
  rw [count, Heap.modify_other isOther, count]

theorem totalCount_erase (live : heap.cells id = some cell) :
    totalCount layout (heap.erase id) + layout.refCount cell = totalCount layout heap := by
  have changed := sum_change (count layout heap) (count layout (heap.erase id))
    (Heap.lt_limit live) fun other isOther => by
      rw [count, Heap.erase_other isOther, count]
  rw [count_some layout live, count_none layout Heap.erase_self] at changed
  exact changed

end Counting

/-- Every count is the number of references, inside and outside the heap. -/
def Sound {Cell : Type*} (layout : Layout Cell) (heap : Heap Cell) (outside : ℕ → ℕ) :
    Prop :=
  ∀ id, count layout heap id = incoming layout heap id + outside id

namespace Sound

variable {Cell : Type*} {layout : Layout Cell} {heap : Heap Cell} {outside after : ℕ → ℕ}
  {id : ℕ} {cell : Cell}

theorem empty : Sound layout (Heap.empty : Heap Cell) fun _ => 0 := by
  intro id
  simp [count, incoming, Heap.empty]

theorem congr (sound : Sound layout heap outside) (same : ∀ id, after id = outside id) :
    Sound layout heap after := by
  intro id
  rw [same id]
  exact sound id

theorem refCount (sound : Sound layout heap outside) (live : heap.cells id = some cell) :
    layout.refCount cell = incoming layout heap id + outside id := by
  rw [← sound id, count_some layout live]

/-- A referenced cell is in the heap. -/
theorem live (sound : Sound layout heap outside)
    (referenced : 0 < incoming layout heap id + outside id) :
    ∃ cell, heap.cells id = some cell := by
  cases found : heap.cells id with
  | some cell => exact ⟨cell, rfl⟩
  | none =>
      have counted := sound id
      rw [count_none layout found] at counted
      omega

theorem live_of_outside (sound : Sound layout heap outside) (referenced : 0 < outside id) :
    ∃ cell, heap.cells id = some cell :=
  sound.live (by omega)

/-- The cells that a cell refers to are in the heap. -/
theorem live_of_refs (sound : Sound layout heap outside) (live : heap.cells id = some cell)
    {target : ℕ} (refers : target ∈ layout.refs cell) :
    ∃ found, heap.cells target = some found := by
  have positive := incoming_pos layout live refers
  exact sound.live (by omega)

/-- The content of a cell changes and references move between it and the
outside. -/
theorem modify (sound : Sound layout heap outside) (live : heap.cells id = some cell)
    (change : Cell → Cell)
    (moved : ∀ target, (layout.refs (change cell)).count target + after target +
        (if target = id then layout.refCount cell else 0) =
      (layout.refs cell).count target + outside target +
        (if target = id then layout.refCount (change cell) else 0)) :
    Sound layout (heap.modify id change) after := by
  intro target
  have earlier := sound target
  have changed := incoming_modify layout live change target
  have balance := moved target
  by_cases same : target = id
  · subst same
    rw [count_some layout live] at earlier
    rw [count_some layout (Heap.modify_self live change)]
    simp only [if_true] at balance
    omega
  · rw [count] at earlier
    rw [count, Heap.modify_other same]
    simp only [same, if_false] at balance
    omega

/-- Neither the count nor the references change. -/
theorem keep (sound : Sound layout heap outside) (live : heap.cells id = some cell)
    {change : Cell → Cell} (counted : layout.refCount (change cell) = layout.refCount cell)
    (refs : layout.refs (change cell) = layout.refs cell) :
    Sound layout (heap.modify id change) outside := by
  refine sound.modify live change fun target => ?_
  rw [refs, counted]

theorem addRef (sound : Sound layout heap outside) (live : heap.cells id = some cell)
    {change : Cell → Cell} (counted : layout.refCount (change cell) = layout.refCount cell + 1)
    (refs : layout.refs (change cell) = layout.refs cell)
    (added : ∀ target, after target = outside target + single id target) :
    Sound layout (heap.modify id change) after := by
  refine sound.modify live change fun target => ?_
  rw [refs, counted, added, single]
  split <;> omega

/-- A reference goes and the cell stays. -/
theorem dropRef (sound : Sound layout heap outside) (live : heap.cells id = some cell)
    {change : Cell → Cell} (counted : layout.refCount (change cell) + 1 = layout.refCount cell)
    (refs : layout.refs (change cell) = layout.refs cell)
    (dropped : ∀ target, after target + single id target = outside target) :
    Sound layout (heap.modify id change) after := by
  refine sound.modify live change fun target => ?_
  rw [refs, ← counted, ← dropped, single]
  split <;> omega

/-- The last reference goes; the references of the freed cell are now
outside. -/
theorem free (sound : Sound layout heap outside) (live : heap.cells id = some cell)
    (last : layout.refCount cell = 1)
    (dropped : ∀ target, after target + single id target =
      outside target + (layout.refs cell).count target) :
    Sound layout (heap.erase id) after := by
  intro target
  have earlier := sound target
  have erased := incoming_erase layout live target
  have balance := dropped target
  by_cases same : target = id
  · subst same
    rw [count_some layout live] at earlier
    rw [count_none layout Heap.erase_self]
    rw [single_self] at balance
    omega
  · rw [count] at earlier
    rw [count, Heap.erase_other same]
    rw [single_other same] at balance
    omega

/-- A new cell takes over references from the outside. -/
theorem allocateWith (sound : Sound layout heap outside) {cell : Cell}
    (counted : layout.refCount cell = 1)
    (moved : ∀ target, after target + (layout.refs cell).count target =
      outside target + single heap.limit target) :
    Sound layout (heap.allocate cell) after := by
  intro target
  have earlier := sound target
  have balance := moved target
  rw [incoming_allocate layout]
  by_cases same : target = heap.limit
  · subst same
    rw [count_none layout (heap.fresh _ (Nat.le_refl _))] at earlier
    rw [count_some layout (Heap.allocate_self cell)]
    rw [single_self] at balance
    omega
  · rw [count] at earlier
    rw [count, Heap.allocate_other same]
    rw [single_other same] at balance
    omega

theorem allocate (sound : Sound layout heap outside) {cell : Cell}
    (counted : layout.refCount cell = 1) (refs : layout.refs cell = [])
    (added : ∀ target, after target = outside target + single heap.limit target) :
    Sound layout (heap.allocate cell) after :=
  sound.allocateWith counted fun target => by rw [refs, List.count_nil, Nat.add_zero, added]

/-- The references from outside as a list, to which a new cell is added in front. -/
theorem allocateNext {references : List ℕ} {cell : Cell}
    (sound : Sound layout heap fun target => references.count target)
    (counted : layout.refCount cell = 1) (refs : layout.refs cell = []) :
    Sound layout (heap.allocate cell) fun target => (heap.limit :: references).count target :=
  sound.allocate counted refs fun target => count_cons_single references target

theorem allocateFirst {cell : Cell} (counted : layout.refCount cell = 1)
    (refs : layout.refs cell = []) :
    Sound layout (Heap.empty.allocate cell) fun target => [0].count target :=
  @allocateNext _ _ _ [] _ empty counted refs

end Sound

end Disvm.RefCounting
