import Mathlib.Data.Finset.Card
import Mathlib.Data.Fintype.Basic
import Mathlib.Logic.Function.Basic

/-!
# Custody of resources

Resources wait in a queue, are parked, or are held by a holder that holds at
most one at a time.  A transfer moves one resource.  The number of places of a
resource changes only when it arrives or is dropped, so a system
that adds absent resources keeps each of them in exactly one place.
-/

namespace Disvm

namespace Custody

variable {Holder Resource : Type*} [DecidableEq Resource] [Fintype Holder]

/-- The holders of a resource. -/
def holdersOf (held : Holder → Option Resource) (resource : Resource) :
    Finset Holder :=
  Finset.univ.filter fun holder => held holder = some resource

/-- The holders that hold any resource. -/
def busy (held : Holder → Option Resource) : Finset Holder :=
  Finset.univ.filter fun holder => held holder ≠ none

@[simp]
theorem mem_holdersOf {held : Holder → Option Resource} {resource : Resource}
    {holder : Holder} :
    holder ∈ holdersOf held resource ↔ held holder = some resource := by
  simp [holdersOf]

omit [DecidableEq Resource] in
@[simp]
theorem mem_busy {held : Holder → Option Resource} {holder : Holder} :
    holder ∈ busy held ↔ held holder ≠ none := by
  simp [busy]

theorem holdersOf_eq_empty {held : Holder → Option Resource} {resource : Resource} :
    holdersOf held resource = ∅ ↔ ∀ holder, held holder ≠ some resource := by
  simp [holdersOf, Finset.filter_eq_empty_iff]

theorem holdersOf_card_eq_one {held : Holder → Option Resource} {resource : Resource} :
    (holdersOf held resource).card = 1 ↔ ∃! holder, held holder = some resource := by
  rw [Finset.card_eq_one]
  constructor
  · rintro ⟨holder, only⟩
    refine ⟨holder, mem_holdersOf.mp (by simp [only]), fun other holds => ?_⟩
    have member : other ∈ holdersOf held resource := mem_holdersOf.mpr holds
    simpa [only] using member
  · rintro ⟨holder, holds, unique⟩
    refine ⟨holder, Finset.ext fun other => ?_⟩
    rw [mem_holdersOf, Finset.mem_singleton]
    exact ⟨unique other, fun same => same ▸ holds⟩

section Updates

variable [DecidableEq Holder]

theorem card_holdersOf_take {held : Holder → Option Resource} {holder : Holder}
    (idle : held holder = none) (resource other : Resource) :
    (holdersOf (Function.update held holder (some resource)) other).card =
      (holdersOf held other).card + if other = resource then 1 else 0 := by
  by_cases same : other = resource
  · have absent : holder ∉ holdersOf held other := by simp [idle]
    rw [if_pos same, ← Finset.card_insert_of_notMem absent]
    congr 1
    ext candidate
    by_cases isHolder : candidate = holder
    · simp [isHolder, same]
    · simp [isHolder]
  · rw [if_neg same, Nat.add_zero]
    congr 1
    ext candidate
    by_cases isHolder : candidate = holder
    · simp [isHolder, idle, Ne.symm same]
    · simp [isHolder]

theorem card_holdersOf_giveBack {held : Holder → Option Resource} {holder : Holder}
    {resource : Resource} (holds : held holder = some resource) (other : Resource) :
    (holdersOf (Function.update held holder none) other).card +
        (if other = resource then 1 else 0) =
      (holdersOf held other).card := by
  have restored := card_holdersOf_take (Function.update_self holder none held)
    resource other
  rw [Function.update_idem, ← holds, Function.update_eq_self] at restored
  exact restored.symm

omit [DecidableEq Resource] in
theorem card_busy_take {held : Holder → Option Resource} {holder : Holder}
    (idle : held holder = none) (resource : Resource) :
    (busy (Function.update held holder (some resource))).card = (busy held).card + 1 := by
  have absent : holder ∉ busy held := by simp [idle]
  rw [← Finset.card_insert_of_notMem absent]
  congr 1
  ext candidate
  by_cases isHolder : candidate = holder
  · simp [isHolder]
  · simp [isHolder]

omit [DecidableEq Resource] in
theorem card_busy_giveBack {held : Holder → Option Resource} {holder : Holder}
    {resource : Resource} (holds : held holder = some resource) :
    (busy (Function.update held holder none)).card + 1 = (busy held).card := by
  have restored := card_busy_take (Function.update_self holder none held) resource
  rw [Function.update_idem, ← holds, Function.update_eq_self] at restored
  exact restored.symm

end Updates

end Custody

structure Custody (Holder Resource : Type*) where
  queue : List Resource
  parked : Finset Resource
  held : Holder → Option Resource

namespace Custody

variable {Holder Resource : Type*} [DecidableEq Resource] [Fintype Holder]

/-- In how many places a resource is. -/
def places (custody : Custody Holder Resource) (resource : Resource) : ℕ :=
  custody.queue.count resource +
    (if resource ∈ custody.parked then 1 else 0) +
      (holdersOf custody.held resource).card

omit [Fintype Holder] in
/-- The resource is in the queue once, parked, or with one holder, and in no
second place. -/
def ExactlyOnce (custody : Custody Holder Resource) (resource : Resource) : Prop :=
  (custody.queue.count resource = 1 ∧ resource ∉ custody.parked ∧
    ∀ holder, custody.held holder ≠ some resource) ∨
  (resource ∉ custody.queue ∧ resource ∈ custody.parked ∧
    ∀ holder, custody.held holder ≠ some resource) ∨
  (resource ∉ custody.queue ∧ resource ∉ custody.parked ∧
    ∃! holder, custody.held holder = some resource)

theorem exactlyOnce_of_places {custody : Custody Holder Resource}
    {resource : Resource} (once : custody.places resource = 1) :
    custody.ExactlyOnce resource := by
  unfold places at once
  by_cases queued : resource ∈ custody.queue
  · have counted : 0 < custody.queue.count resource := List.count_pos_iff.mpr queued
    split at once
    · omega
    · rename_i notParked
      refine Or.inl ⟨by omega, notParked, holdersOf_eq_empty.mp ?_⟩
      exact Finset.card_eq_zero.mp (by omega)
  · have counted : custody.queue.count resource = 0 := List.count_eq_zero.mpr queued
    split at once
    · rename_i isParked
      refine Or.inr (Or.inl ⟨queued, isParked, holdersOf_eq_empty.mp ?_⟩)
      exact Finset.card_eq_zero.mp (by omega)
    · rename_i notParked
      exact Or.inr (Or.inr ⟨queued, notParked, holdersOf_card_eq_one.mp (by omega)⟩)

theorem places_eq_zero {custody : Custody Holder Resource} {resource : Resource} :
    custody.places resource = 0 ↔
      resource ∉ custody.queue ∧ resource ∉ custody.parked ∧
        ∀ holder, custody.held holder ≠ some resource := by
  simp [places, List.count_eq_zero, holdersOf_eq_empty, and_assoc]

/-- A resource in at most one place has at most one holder, and is neither
queued nor parked while it is held. -/
theorem of_held {custody : Custody Holder Resource} {resource : Resource}
    (atMostOnce : custody.places resource ≤ 1) {holder : Holder}
    (holds : custody.held holder = some resource) :
    resource ∉ custody.queue ∧ resource ∉ custody.parked ∧
      ∀ other, custody.held other = some resource → other = holder := by
  have member : holder ∈ holdersOf custody.held resource := mem_holdersOf.mpr holds
  have positive : 0 < (holdersOf custody.held resource).card :=
    Finset.card_pos.mpr ⟨holder, member⟩
  unfold places at atMostOnce
  refine ⟨fun queued => ?_, fun isParked => ?_, fun other otherHolds => ?_⟩
  · have counted : 0 < custody.queue.count resource := List.count_pos_iff.mpr queued
    omega
  · rw [if_pos isParked] at atMostOnce
    omega
  · exact Finset.card_le_one.mp (by omega) other (mem_holdersOf.mpr otherHolds) holder member

/-- What a transfer does to the number of places and of busy holders. -/
inductive Change (Resource : Type*) where
  | keep
  | arrive (resource : Resource)
  | take (resource : Resource)
  | giveBack (resource : Resource)
  | drop (resource : Resource)

namespace Change

def arrived : Change Resource → Resource → ℕ
  | .arrive resource, other => if other = resource then 1 else 0
  | _, _ => 0

def dropped : Change Resource → Resource → ℕ
  | .drop resource, other => if other = resource then 1 else 0
  | _, _ => 0

theorem dropped_add_arrived_le (change : Change Resource) (resource : Resource) :
    change.dropped resource + change.arrived resource ≤ 1 := by
  cases change with
  | keep | take _ | giveBack _ => exact Nat.zero_le 1
  | arrive other | drop other =>
      simp only [dropped, arrived]
      split <;> omega

omit [DecidableEq Resource] in
def taken : Change Resource → ℕ
  | .take _ => 1
  | _ => 0

omit [DecidableEq Resource] in
def returned : Change Resource → ℕ
  | .giveBack _ => 1
  | .drop _ => 1
  | _ => 0

end Change

variable [DecidableEq Holder]

inductive Transfer (custody : Custody Holder Resource) :
    Change Resource → Custody Holder Resource → Prop
  | keep : Transfer custody .keep custody
  | arrive (resource : Resource) :
      Transfer custody (.arrive resource)
        { custody with queue := custody.queue ++ [resource] }
  | take (holder : Holder) (resource : Resource) (rest : List Resource)
      (idle : custody.held holder = none)
      (front : custody.queue = resource :: rest) :
      Transfer custody (.take resource)
        { custody with
          queue := rest
          held := Function.update custody.held holder (some resource) }
  | requeue (holder : Holder) (resource : Resource)
      (holds : custody.held holder = some resource) :
      Transfer custody (.giveBack resource)
        { custody with
          queue := custody.queue ++ [resource]
          held := Function.update custody.held holder none }
  | park (holder : Holder) (resource : Resource)
      (holds : custody.held holder = some resource)
      (notParked : resource ∉ custody.parked) :
      Transfer custody (.giveBack resource)
        { custody with
          parked := insert resource custody.parked
          held := Function.update custody.held holder none }
  | drop (holder : Holder) (resource : Resource)
      (holds : custody.held holder = some resource) :
      Transfer custody (.drop resource)
        { custody with held := Function.update custody.held holder none }
  | unpark (resource : Resource) (isParked : resource ∈ custody.parked) :
      Transfer custody .keep
        { custody with
          queue := custody.queue ++ [resource]
          parked := custody.parked.erase resource }

namespace Transfer

theorem places {before after : Custody Holder Resource} {change : Change Resource}
    (transfer : Transfer before change after) (other : Resource) :
    after.places other + change.dropped other =
      before.places other + change.arrived other := by
  cases transfer with
  | keep => rfl
  | arrive resource =>
      simp only [Custody.places, List.count_append, List.count_singleton, beq_iff_eq,
        Change.dropped, Change.arrived]
      simp only [eq_comm (a := resource)]
      omega
  | take holder resource rest idle front =>
      have held := card_holdersOf_take idle resource other
      simp only [Custody.places, front, List.count_cons, beq_iff_eq, held,
        Change.dropped, Change.arrived, eq_comm (a := resource)]
      omega
  | requeue holder resource holds =>
      have held := card_holdersOf_giveBack holds other
      simp only [Custody.places, List.count_append, List.count_singleton, beq_iff_eq,
        Change.dropped, Change.arrived, eq_comm (a := resource)]
      omega
  | park holder resource holds notParked =>
      have held := card_holdersOf_giveBack holds other
      simp only [Custody.places, Finset.mem_insert, Change.dropped, Change.arrived]
      by_cases same : other = resource
      · simp [same, notParked] at held ⊢
        omega
      · simp [same] at held ⊢
        omega
  | drop holder resource holds =>
      have held := card_holdersOf_giveBack holds other
      simp only [Custody.places, Change.dropped, Change.arrived]
      omega
  | unpark resource isParked =>
      simp only [Custody.places, List.count_append, List.count_singleton, beq_iff_eq,
        Finset.mem_erase, Change.dropped, Change.arrived]
      by_cases same : other = resource
      · simp [same, isParked]
      · simp [same, Ne.symm same]

theorem busy {before after : Custody Holder Resource} {change : Change Resource}
    (transfer : Transfer before change after) :
    (Custody.busy after.held).card + change.returned =
      (Custody.busy before.held).card + change.taken := by
  cases transfer with
  | keep => rfl
  | arrive resource => rfl
  | take holder resource rest idle front => exact card_busy_take idle resource
  | requeue holder resource holds => exact card_busy_giveBack holds
  | park holder resource holds notParked => exact card_busy_giveBack holds
  | drop holder resource holds => exact card_busy_giveBack holds
  | unpark resource isParked => rfl

end Transfer

end Custody

end Disvm
