import Disvm.RefRelease
import Mathlib.Data.Set.Basic

/-!
# What survives a release

A release frees the cells that no remaining reference keeps: a cell stays when it is
referred to from outside, or by a cell that stays itself.  What a cell refers to is looked
at when it is freed and not before.
-/

namespace Disvm.RefCounting

section Survivors

variable {Cell : Type*} {counted : Counted Cell} {heap later : Heap Cell} {id : ℕ}

/-- Every cell in the heap is referred to. -/
def Positive (counted : Counted Cell) (heap : Heap Cell) : Prop :=
  ∀ id cell, heap.cells id = some cell → 0 < counted.refCount cell

/-- References that remain outside keep the cell, directly or through cells that are kept. -/
def Kept (counted : Counted Cell) (heap : Heap Cell) (after : ℕ → ℕ) (id : ℕ) : Prop :=
  ∃ kept : Set ℕ, id ∈ kept ∧ ∀ other ∈ kept, 0 < after other ∨
    ∃ holder ∈ kept, ∃ cell, heap.cells holder = some cell ∧ other ∈ counted.refs cell

theorem Heap.ext_cells {first second : Heap Cell} (cells : first.cells = second.cells)
    (limit : first.limit = second.limit) : first = second := by
  cases first
  cases second
  subst cells limit
  rfl

theorem positive_empty : Positive counted (Heap.empty : Heap Cell) :=
  fun _ _ live => by cases live

theorem Positive.erase (positive : Positive counted heap) (id : ℕ) :
    Positive counted (heap.erase id) := by
  intro other cell live
  by_cases same : other = id
  · rw [same, Heap.erase_self] at live
    cases live
  · rw [Heap.erase_other same] at live
    exact positive other cell live

theorem Positive.modify (positive : Positive counted heap) (id : ℕ) {change : Cell → Cell}
    (counts : ∀ cell, heap.cells id = some cell → 0 < counted.refCount (change cell)) :
    Positive counted (heap.modify id change) := by
  intro other cell live
  by_cases same : other = id
  · subst same
    obtain ⟨earlier, found, rfl⟩ : ∃ earlier, heap.cells other = some earlier ∧
        change earlier = cell := by
      simpa [Heap.modify] using live
    exact counts earlier found
  · rw [Heap.modify_other same] at live
    exact positive other cell live

theorem Positive.addRef (positive : Positive counted heap) (id : ℕ) :
    Positive counted (addRef counted heap id) := by
  apply positive.modify id
  intro cell _
  rw [counted.refCount_setCount]
  exact Nat.succ_pos _

theorem Positive.dropRef (positive : Positive counted heap) {cell : Cell}
    (live : heap.cells id = some cell) (several : counted.refCount cell ≠ 1) :
    Positive counted (dropRef counted heap id) := by
  apply positive.modify id
  intro found isFound
  have counts := positive id cell live
  obtain rfl := Option.some.inj (live.symm.trans isFound)
  rw [counted.refCount_setCount]
  omega

theorem Positive.allocate (positive : Positive counted heap) {cell : Cell}
    (counts : 0 < counted.refCount cell) : Positive counted (heap.allocate cell) := by
  intro other found live
  by_cases same : other = heap.limit
  · rw [same, Heap.allocate_self] at live
    rwa [← Option.some.inj live]
  · rw [Heap.allocate_other same] at live
    exact positive other found live

theorem Positive.releaseAll {fuel : ℕ} {pending : List ℕ} (positive : Positive counted heap) :
    Positive counted (releaseAll counted fuel heap pending).1 := by
  induction fuel generalizing heap pending with
  | zero => exact positive
  | succ fuel ih =>
      cases pending with
      | nil => exact positive
      | cons id pending =>
          rw [RefCounting.releaseAll]
          cases live : heap.cells id with
          | none => exact ih positive
          | some cell =>
              dsimp only
              split_ifs with last
              · exact ih (positive.erase id)
              · exact ih (positive.dropRef live last)

theorem Positive.release (positive : Positive counted heap) (pending : List ℕ) :
    Positive counted (release counted heap pending).1 :=
  positive.releaseAll

theorem shrinks_releaseAll {fuel : ℕ} {pending : List ℕ} :
    Shrinks counted heap (releaseAll counted fuel heap pending).1 := by
  induction fuel generalizing heap pending with
  | zero => exact Shrinks.refl
  | succ fuel ih =>
      cases pending with
      | nil => exact Shrinks.refl
      | cons id pending =>
          rw [releaseAll]
          cases live : heap.cells id with
          | none => exact ih
          | some cell =>
              dsimp only
              split_ifs with last
              · exact (shrinks_erase id).trans ih
              · exact (shrinks_dropRef id).trans ih

theorem shrinks_release (pending : List ℕ) :
    Shrinks counted heap (release counted heap pending).1 :=
  shrinks_releaseAll

/-- A cell that is not in the heap is only accessed. -/
theorem release_dead (dead : heap.cells id = none) (pending : List ℕ) :
    release counted heap (id :: pending) =
      ((release counted heap pending).1, id :: (release counted heap pending).2) := by
  unfold release
  rw [owed_cons, releaseAll]
  simp only [dead]

/-- Releases can be made in parts. -/
theorem release_append (first second : List ℕ) : release counted heap (first ++ second) =
    ((release counted (release counted heap first).1 second).1,
      (release counted heap first).2 ++
        (release counted (release counted heap first).1 second).2) := by
  obtain ⟨bound, isBound⟩ : ∃ bound, owed counted heap first = bound := ⟨_, rfl⟩
  induction bound using Nat.strong_induction_on generalizing heap first with
  | _ bound ih =>
      cases first with
      | nil =>
          rw [release_nil]
          rfl
      | cons id pending =>
          rw [owed_cons] at isBound
          rw [List.cons_append]
          cases found : heap.cells id with
          | none =>
              rw [release_dead found, release_dead found, ih _ (by omega) pending rfl]
              rfl
          | some cell =>
              by_cases last : counted.refCount cell = 1
              · rw [release_last found last, release_last found last, ← List.append_assoc]
                apply ih _ _ _ rfl
                rw [owed_erase found]
                omega
              · rw [release_shared found last, release_shared found last]
                apply ih _ _ _ rfl
                rw [owed_dropRef]
                omega

theorem Shrinks.isSome (shrinks : Shrinks counted heap later)
    (survives : (later.cells id).isSome = true) : (heap.cells id).isSome = true := by
  obtain ⟨cell, live⟩ := Option.isSome_iff_exists.mp survives
  obtain ⟨earlier, found, _⟩ := shrinks.2 id cell live
  exact Option.isSome_iff_exists.mpr ⟨earlier, found⟩

/-- Kept cells are not freed. -/
theorem releaseAll_keeps {fuel : ℕ} {pending : List ℕ} {others after : ℕ → ℕ} {kept : Set ℕ}
    (sound : Sound counted.toLayout heap others)
    (dropped : ∀ id, after id + pending.count id = others id)
    (keeps : ∀ other ∈ kept, 0 < after other ∨
      ∃ holder ∈ kept, ∃ cell, heap.cells holder = some cell ∧ other ∈ counted.refs cell)
    {id : ℕ} (member : id ∈ kept) :
    ((releaseAll counted fuel heap pending).1.cells id).isSome = true := by
  have liveNow : (heap.cells id).isSome = true := by
    apply Option.isSome_iff_exists.mpr
    rcases keeps id member with outside | ⟨holder, _, cell, live, refers⟩
    · have balance := dropped id
      exact sound.live_of_outside (by omega)
    · exact sound.live_of_refs live refers
  induction fuel generalizing heap pending others with
  | zero => exact liveNow
  | succ fuel ih =>
      cases pending with
      | nil => exact liveNow
      | cons first pending =>
          have held : 0 < others first := by
            have balance := dropped first
            rw [List.count_cons_self] at balance
            omega
          obtain ⟨cell, live⟩ := sound.live_of_outside held
          simp only [releaseAll, live]
          have counts := sound.refCount live
          by_cases last : counted.refCount cell = 1
          · rw [if_pos last]
            have notKept : first ∉ kept := by
              intro isKept
              have balance := dropped first
              rw [List.count_cons_self] at balance
              rcases keeps first isKept with outside | ⟨holder, _, holding, found, refers⟩
              · omega
              · have incomes := incoming_pos counted.toLayout found refers
                omega
            have freed : Sound counted.toLayout (heap.erase first) fun target =>
                after target + (counted.refs cell ++ pending).count target := by
              apply sound.free live last
              intro target
              have balance := dropped target
              rw [count_cons_single] at balance
              rw [List.count_append]
              omega
            have keepsLater : ∀ other ∈ kept, 0 < after other ∨ ∃ holder ∈ kept, ∃ cell,
                (heap.erase first).cells holder = some cell ∧ other ∈ counted.refs cell := by
              intro other isKept
              refine (keeps other isKept).imp_right ?_
              rintro ⟨holder, holderKept, holding, found, refers⟩
              have isOther : holder ≠ first := fun same => notKept (same ▸ holderKept)
              exact ⟨holder, holderKept, holding, by rwa [Heap.erase_other isOther], refers⟩
            apply ih freed (fun _ => rfl) keepsLater
            have isOther : id ≠ first := fun same => notKept (same ▸ member)
            rwa [Heap.erase_other isOther]
          · rw [if_neg last]
            have lowered : Sound counted.toLayout (dropRef counted heap first) fun target =>
                after target + pending.count target := by
              refine sound.dropRef live ?_ (counted.refs_setCount _ cell) fun target => ?_
              · have balance := dropped first
                rw [List.count_cons_self] at balance
                rw [counted.refCount_setCount]
                omega
              · have balance := dropped target
                rw [count_cons_single] at balance
                omega
            have keepsLater : ∀ other ∈ kept, 0 < after other ∨ ∃ holder ∈ kept, ∃ cell,
                (dropRef counted heap first).cells holder = some cell ∧
                  other ∈ counted.refs cell := by
              intro other isKept
              refine (keeps other isKept).imp_right ?_
              rintro ⟨holder, holderKept, holding, found, refers⟩
              by_cases same : holder = first
              · subst same
                exact ⟨holder, holderKept, _, Heap.modify_self found _, by
                  rwa [counted.refs_setCount]⟩
              · exact ⟨holder, holderKept, holding, by rwa [dropRef, Heap.modify_other same],
                  refers⟩
            apply ih lowered (fun _ => rfl) keepsLater
            rwa [dropRef, Heap.modify_isSome]

/-- A release leaves the cells that the remaining references keep, and no others. -/
theorem release_survives_iff {pending : List ℕ} {others after : ℕ → ℕ}
    (sound : Sound counted.toLayout heap others) (positive : Positive counted heap)
    (dropped : ∀ id, after id + pending.count id = others id) :
    ((release counted heap pending).1.cells id).isSome = true ↔ Kept counted heap after id := by
  constructor
  · intro survives
    obtain ⟨later, released, laterSound, shrinks⟩ := release_sound sound dropped
    have laterPositive := positive.release pending
    rw [released] at survives laterPositive
    refine ⟨{other | (later.cells other).isSome = true}, survives, fun other isLater => ?_⟩
    obtain ⟨cell, live⟩ := Option.isSome_iff_exists.mp isLater
    have counts := laterSound.refCount live
    have isPositive := laterPositive other cell live
    rcases Nat.eq_zero_or_pos (after other) with isZero | outside
    · right
      have held : 0 < incoming counted.toLayout later other := by omega
      obtain ⟨holder, holding, found, refers⟩ := exists_of_incoming_pos counted.toLayout held
      obtain ⟨earlier, start, same⟩ := shrinks.2 holder holding found
      refine ⟨holder, Option.isSome_iff_exists.mpr ⟨holding, found⟩, earlier, start, ?_⟩
      rw [same, counted.refs_setCount] at refers
      exact refers
    · exact Or.inl outside
  · rintro ⟨kept, member, keeps⟩
    exact releaseAll_keeps sound dropped keeps member

theorem Kept.cases {after : ℕ → ℕ} (keeps : Kept counted heap after id) :
    0 < after id ∨ ∃ holder cell, Kept counted heap after holder ∧
      heap.cells holder = some cell ∧ id ∈ counted.refs cell := by
  obtain ⟨kept, member, supported⟩ := keeps
  apply (supported id member).imp_right
  rintro ⟨holder, isKept, cell, live, refers⟩
  exact ⟨holder, cell, ⟨kept, isKept, supported⟩, live, refers⟩

theorem kept_of_outside {after : ℕ → ℕ} (outside : 0 < after id) : Kept counted heap after id :=
  ⟨{id}, rfl, fun _ same => Or.inl (same ▸ outside)⟩

/-- What a kept cell refers to is kept. -/
theorem Kept.refers {after : ℕ → ℕ} {holder : ℕ} {cell : Cell}
    (keeps : Kept counted heap after holder) (live : heap.cells holder = some cell)
    (refers : id ∈ counted.refs cell) : Kept counted heap after id := by
  obtain ⟨kept, member, supported⟩ := keeps
  refine ⟨insert id kept, Set.mem_insert id kept, ?_⟩
  rintro target (rfl | isKept)
  · exact Or.inr ⟨holder, Set.mem_insert_of_mem _ member, cell, live, refers⟩
  · apply (supported target isKept).imp_right
    rintro ⟨other, otherKept, rest⟩
    exact ⟨other, Set.mem_insert_of_mem _ otherKept, rest⟩

/-- Cells stay kept where the references among the kept cells are found again. -/
theorem Kept.transfer {other : Heap Cell} {after remaining : ℕ → ℕ}
    (outside : ∀ target, Kept counted heap after target → 0 < after target →
      0 < remaining target ∨ Kept counted other remaining target)
    (inside : ∀ holder cell target, Kept counted heap after holder →
      heap.cells holder = some cell → target ∈ counted.refs cell →
      ∃ found, other.cells holder = some found ∧ target ∈ counted.refs found)
    (keeps : Kept counted heap after id) : Kept counted other remaining id := by
  refine ⟨{target | Kept counted heap after target ∨ Kept counted other remaining target},
    Or.inl keeps, ?_⟩
  have isKept : ∀ target, Kept counted other remaining target → 0 < remaining target ∨
      ∃ holder ∈ {target | Kept counted heap after target ∨ Kept counted other remaining target},
        ∃ cell, other.cells holder = some cell ∧ target ∈ counted.refs cell := by
    intro target found
    apply found.cases.imp_right
    rintro ⟨holder, cell, holderKept, live, refers⟩
    exact ⟨holder, Or.inr holderKept, cell, live, refers⟩
  rintro target (found | found)
  · rcases found.cases with held | ⟨holder, cell, holderKept, live, refers⟩
    · rcases outside target found held with remains | later
      · exact Or.inl remains
      · exact isKept target later
    · obtain ⟨cell, live, refers⟩ := inside holder cell target holderKept live refers
      exact Or.inr ⟨holder, Or.inl holderKept, cell, live, refers⟩
  · exact isKept target found

theorem Kept.mono {after remaining : ℕ → ℕ} (more : ∀ target, after target ≤ remaining target)
    (keeps : Kept counted heap after id) : Kept counted heap remaining id := by
  apply keeps.transfer
  · intro target _ held
    exact Or.inl (Nat.lt_of_lt_of_le held (more target))
  · intro holder cell target _ live refers
    exact ⟨cell, live, refers⟩

/-- One more reference to a cell that is kept anyway keeps no other cell. -/
theorem kept_add_single {after : ℕ → ℕ} {pointer : ℕ} (isKept : Kept counted heap after pointer) :
    Kept counted heap (fun target => after target + single pointer target) id ↔
      Kept counted heap after id := by
  constructor
  · intro keeps
    apply keeps.transfer
    · intro target _ held
      by_cases same : target = pointer
      · exact Or.inr (same ▸ isKept)
      · rw [single_other same] at held
        exact Or.inl held
    · intro holder cell target _ live refers
      exact ⟨cell, live, refers⟩
  · exact Kept.mono fun target => Nat.le_add_right _ _

theorem Kept.of_shrinks {after : ℕ → ℕ} (shrinks : Shrinks counted heap later)
    (keeps : Kept counted later after id) : Kept counted heap after id := by
  apply keeps.transfer
  · intro target _ held
    exact Or.inl held
  · intro holder cell target _ live refers
    obtain ⟨earlier, found, same⟩ := shrinks.2 holder cell live
    rw [same, counted.refs_setCount] at refers
    exact ⟨earlier, found, refers⟩

theorem Kept.shrinks {after : ℕ → ℕ} (shrinks : Shrinks counted heap later)
    (survive : ∀ target, Kept counted heap after target → (later.cells target).isSome = true)
    (keeps : Kept counted heap after id) : Kept counted later after id := by
  apply keeps.transfer
  · intro target _ held
    exact Or.inl held
  · intro holder cell target isKept live refers
    obtain ⟨found, isFound⟩ := Option.isSome_iff_exists.mp (survive holder isKept)
    obtain ⟨earlier, start, same⟩ := shrinks.2 holder found isFound
    obtain rfl := Option.some.inj (live.symm.trans start)
    exact ⟨found, isFound, by rwa [same, counted.refs_setCount]⟩

/-- The cells of a heap are those that its references keep. -/
theorem isSome_iff_kept {after : ℕ → ℕ} (sound : Sound counted.toLayout heap after)
    (positive : Positive counted heap) :
    (heap.cells id).isSome = true ↔ Kept counted heap after id := by
  have survives : ((release counted heap []).1.cells id).isSome = true ↔
      Kept counted heap after id := release_survives_iff sound positive fun _ => rfl
  rwa [release_nil] at survives

theorem erase_modify {other : ℕ} (different : id ≠ other) (change : Cell → Cell) :
    (heap.modify other change).erase id = (heap.erase id).modify other change := by
  refine Heap.ext_cells (funext fun target => ?_) rfl
  by_cases isErased : target = id
  · subst isErased
    rw [Heap.erase_self, Heap.modify_other different, Heap.erase_self]
  · rw [Heap.erase_other isErased]
    by_cases isChanged : target = other
    · subst isChanged
      simp only [Heap.modify, if_true, Heap.erase_other isErased]
    · rw [Heap.modify_other isChanged, Heap.modify_other isChanged, Heap.erase_other isErased]

/-- A change of content that leaves the count alone. -/
structure KeepsCount (counted : Counted Cell) (change : Cell → Cell) : Prop where
  refCount : ∀ cell, counted.refCount (change cell) = counted.refCount cell
  setCount : ∀ count cell, change (counted.setCount count cell) =
    counted.setCount count (change cell)

theorem addRef_modify {other : ℕ} {change : Cell → Cell} (keeps : KeepsCount counted change) :
    addRef counted (heap.modify other change) id =
      (addRef counted heap id).modify other change := by
  refine Heap.ext_cells (funext fun target => ?_) rfl
  unfold addRef Heap.modify
  by_cases isAdded : target = id
  · subst isAdded
    by_cases isChanged : target = other
    · subst isChanged
      simp only [if_true]
      cases heap.cells target with
      | none => rfl
      | some cell => simp only [Option.map_some, keeps.refCount, keeps.setCount]
    · simp only [if_true, if_neg isChanged]
  · by_cases isChanged : target = other
    · subst isChanged
      simp only [if_true, if_neg isAdded]
    · simp only [if_neg isAdded, if_neg isChanged]

theorem dropRef_modify {other : ℕ} {change : Cell → Cell} (keeps : KeepsCount counted change) :
    dropRef counted (heap.modify other change) id =
      (dropRef counted heap id).modify other change := by
  refine Heap.ext_cells (funext fun target => ?_) rfl
  unfold dropRef Heap.modify
  by_cases isDropped : target = id
  · subst isDropped
    by_cases isChanged : target = other
    · subst isChanged
      simp only [if_true]
      cases heap.cells target with
      | none => rfl
      | some cell => simp only [Option.map_some, keeps.refCount, keeps.setCount]
    · simp only [if_true, if_neg isChanged]
  · by_cases isChanged : target = other
    · subst isChanged
      simp only [if_true, if_neg isDropped]
    · simp only [if_neg isDropped, if_neg isChanged]

theorem Shrinks.modify {other : ℕ} {change : Cell → Cell} (shrinks : Shrinks counted heap later)
    (keeps : KeepsCount counted change) :
    Shrinks counted (heap.modify other change) (later.modify other change) := by
  refine ⟨shrinks.1, fun target cell live => ?_⟩
  by_cases same : target = other
  · subst same
    obtain ⟨found, isFound, rfl⟩ : ∃ found, later.cells target = some found ∧
        change found = cell := by
      simpa [Heap.modify] using live
    obtain ⟨earlier, start, counts⟩ := shrinks.2 target found isFound
    refine ⟨change earlier, Heap.modify_self start change, ?_⟩
    rw [counts, keeps.setCount, counted.refCount_setCount]
  · rw [Heap.modify_other same] at live ⊢
    exact shrinks.2 target cell live

/-- What a cell refers to makes no difference to a release that leaves it in the heap. -/
theorem release_modify {pending : List ℕ} {other : ℕ} {change : Cell → Cell}
    (keeps : KeepsCount counted change)
    (survives : ((release counted heap pending).1.cells other).isSome = true) :
    release counted (heap.modify other change) pending =
      ((release counted heap pending).1.modify other change,
        (release counted heap pending).2) := by
  obtain ⟨bound, isBound⟩ : ∃ bound, owed counted heap pending = bound := ⟨_, rfl⟩
  induction bound using Nat.strong_induction_on generalizing heap pending with
  | _ bound ih =>
      cases pending with
      | nil => rw [release_nil, release_nil]
      | cons id pending =>
          rw [owed_cons] at isBound
          cases found : heap.cells id with
          | none =>
              have dead : (heap.modify other change).cells id = none := by
                rw [← Option.not_isSome_iff_eq_none, Heap.modify_isSome, found]
                exact Bool.false_ne_true
              rw [release_dead found] at survives ⊢
              rw [release_dead dead, ih _ (by omega) survives rfl]
          | some cell =>
              by_cases last : counted.refCount cell = 1
              · rw [release_last found last] at survives ⊢
                have different : id ≠ other := by
                  rintro rfl
                  have revived := (shrinks_release _).isSome survives
                  rw [Heap.erase_self] at revived
                  cases revived
                rw [release_last (by rw [Heap.modify_other different, found]) last,
                  erase_modify different, ih _ _ survives rfl]
                rw [owed_erase found]
                omega
              · rw [release_shared found last] at survives ⊢
                obtain ⟨changed, isChanged, several⟩ : ∃ changed,
                    (heap.modify other change).cells id = some changed ∧
                      counted.refCount changed ≠ 1 := by
                  by_cases same : id = other
                  · subst same
                    exact ⟨change cell, Heap.modify_self found change, by rwa [keeps.refCount]⟩
                  · exact ⟨cell, by rw [Heap.modify_other same, found], last⟩
                rw [release_shared isChanged several, dropRef_modify keeps, ih _ _ survives rfl]
                rw [owed_dropRef]
                omega

end Survivors

end Disvm.RefCounting
