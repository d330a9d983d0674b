import Disvm.RefRelease
import Disvm.SlotReferences
import Disvm.TransitionRuns
import Mathlib.Algebra.Order.Ring.Int
import Mathlib.Data.List.Sort

/-!
# The table of file descriptors

`Sys` keeps a map from numbers to counted records and a queue of the numbers that
are free.  A slot of the map holds a reference to its record, and so does every `FD`
object, whose finaliser gives up a reference by the number of the object and another
one by its record.
-/

namespace Disvm.FileDescriptors

open RefCounting

inductive Fault where
  | nullRecord
  | freedRecord
  deriving DecidableEq, Repr

/-- `vm_fd_t`, as far as the table uses it. -/
structure VmFd where
  refCount : ℕ
  deriving DecidableEq, Repr

def vmFdCounted : Counted VmFd where
  refCount := VmFd.refCount
  refs _ := []
  setCount count _ := { refCount := count }
  refCount_setCount _ _ := rfl
  refs_setCount _ _ := rfl
  setCount_setCount _ _ _ := rfl
  setCount_refCount _ := rfl

/-- The records that are alive, and those that have been destroyed, last one first. -/
structure Records where
  heap : Heap VmFd
  deleted : List ℕ

namespace Records

/-- A record is made with one reference. -/
def create (records : Records) : Records × ℕ :=
  ({ records with heap := records.heap.allocate { refCount := 1 } }, records.heap.limit)

def addRef (records : Records) (id : ℕ) : Except Fault Records :=
  match records.heap.cells id with
  | none => .error .freedRecord
  | some _ => .ok { records with heap := RefCounting.addRef vmFdCounted records.heap id }

/-- Give up a reference, and destroy the record with the last one.  The result also
tells whether it was the last one. -/
def release (records : Records) (id : ℕ) : Except Fault (Records × Bool) :=
  match records.heap.cells id with
  | none => .error .freedRecord
  | some vmFd =>
      if vmFd.refCount = 1 then
        .ok ({ heap := records.heap.erase id, deleted := id :: records.deleted }, true)
      else
        .ok ({ records with heap := dropRef vmFdCounted records.heap id }, false)

/-- Every count is the number of holders, and the records that are not alive any more
have been destroyed once. -/
structure Sound (records : Records) (holders : ℕ → ℕ) : Prop where
  counted : RefCounting.Sound vmFdCounted.toLayout records.heap holders
  positive : ∀ id vmFd, records.heap.cells id = some vmFd → 0 < vmFd.refCount
  deleted : ∀ id, records.deleted.count id =
    if id < records.heap.limit ∧ records.heap.cells id = none then 1 else 0

variable {records : Records} {holders later : ℕ → ℕ} {id : ℕ} {vmFd : VmFd}

theorem incoming_eq_zero (heap : Heap VmFd) (id : ℕ) :
    incoming vmFdCounted.toLayout heap id = 0 := by
  refine Finset.sum_eq_zero fun other _ => ?_
  cases heap.cells other with
  | none => rfl
  | some vmFd => rfl

namespace Sound

theorem empty : (⟨Heap.empty, []⟩ : Records).Sound fun _ => 0 where
  counted := RefCounting.Sound.empty
  positive _ _ live := by cases live
  deleted id := by
    rw [if_neg]
    · rfl
    · rintro ⟨below, -⟩
      exact absurd below (Nat.not_lt_zero id)

theorem congr (sound : records.Sound holders) (same : ∀ id, later id = holders id) :
    records.Sound later := by
  rwa [funext same]

theorem refCount_eq (sound : records.Sound holders) (live : records.heap.cells id = some vmFd) :
    vmFd.refCount = holders id := by
  have counted := sound.counted.refCount live
  rwa [incoming_eq_zero, Nat.zero_add] at counted

theorem live (sound : records.Sound holders) (held : 0 < holders id) :
    ∃ vmFd, records.heap.cells id = some vmFd :=
  sound.counted.live_of_outside held

/-- The records without holders are those that are not alive. -/
theorem cells_eq_none_iff (sound : records.Sound holders) :
    records.heap.cells id = none ↔ holders id = 0 := by
  constructor
  · intro dead
    by_contra held
    obtain ⟨vmFd, live⟩ := sound.live (Nat.pos_of_ne_zero held)
    rw [dead] at live
    cases live
  · intro unheld
    cases found : records.heap.cells id with
    | none => rfl
    | some vmFd =>
        have positive := sound.positive id vmFd found
        rw [sound.refCount_eq found] at positive
        omega

theorem create (sound : records.Sound holders)
    (added : ∀ id, later id = holders id + single records.heap.limit id) :
    records.create.1.Sound later where
  counted := sound.counted.allocate rfl rfl added
  positive id vmFd live := by
    by_cases isNew : id = records.heap.limit
    · subst isNew
      rw [Records.create, Heap.allocate_self] at live
      cases live
      exact Nat.one_pos
    · rw [Records.create, Heap.allocate_other isNew] at live
      exact sound.positive id vmFd live
  deleted id := by
    have before := sound.deleted id
    by_cases isNew : id = records.heap.limit
    · subst isNew
      rw [if_neg fun below => absurd below.1 (Nat.lt_irrefl _)] at before
      rw [Records.create, Heap.allocate_self, if_neg fun below => by cases below.2]
      exact before
    · rw [Records.create, Heap.allocate_other isNew]
      refine before.trans (if_congr (and_congr_left fun _ => ?_) rfl rfl)
      show id < records.heap.limit ↔ id < records.heap.limit + 1
      omega

/-- Whether a record is alive is all that counts for the destroyed ones. -/
theorem of_cells {after : Heap VmFd} (sound : records.Sound holders)
    (counted : RefCounting.Sound vmFdCounted.toLayout after later)
    (limit : after.limit = records.heap.limit)
    (alive : ∀ id, after.cells id = none ↔ records.heap.cells id = none)
    (positive : ∀ id vmFd, after.cells id = some vmFd → 0 < vmFd.refCount) :
    (⟨after, records.deleted⟩ : Records).Sound later where
  counted := counted
  positive := positive
  deleted id := by
    refine (sound.deleted id).trans (if_congr ?_ rfl rfl)
    rw [limit, alive]

theorem modify_eq_none {heap : Heap VmFd} (change : VmFd → VmFd) (other : ℕ) :
    (heap.modify id change).cells other = none ↔ heap.cells other = none := by
  have same := @Heap.modify_isSome _ heap id other change
  rw [← Option.not_isSome_iff_eq_none, same, Option.not_isSome_iff_eq_none]

theorem addRef (sound : records.Sound holders) (held : 0 < holders id) (later : ℕ → ℕ)
    (added : ∀ other, later other = holders other + single id other) :
    ∃ after, records.addRef id = .ok after ∧ after.Sound later := by
  obtain ⟨vmFd, live⟩ := sound.live held
  refine ⟨_, by rw [Records.addRef, live], ?_⟩
  refine sound.of_cells (sound.counted.addRef live rfl rfl added) rfl
    (modify_eq_none _) fun other changed isChanged => ?_
  by_cases same : other = id
  · subst same
    rw [RefCounting.addRef, Heap.modify_self live] at isChanged
    cases isChanged
    exact Nat.succ_pos _
  · rw [RefCounting.addRef, Heap.modify_other same] at isChanged
    exact sound.positive other changed isChanged

theorem release_last (sound : records.Sound holders) (live : records.heap.cells id = some vmFd)
    (last : vmFd.refCount = 1)
    (dropped : ∀ other, later other + single id other = holders other) :
    (⟨records.heap.erase id, id :: records.deleted⟩ : Records).Sound later where
  counted := sound.counted.free live last dropped
  positive other changed isChanged := by
    by_cases same : other = id
    · subst same
      rw [Heap.erase_self] at isChanged
      cases isChanged
    · rw [Heap.erase_other same] at isChanged
      exact sound.positive other changed isChanged
  deleted other := by
    have before := sound.deleted other
    rw [count_cons_single, before]
    by_cases same : other = id
    · subst same
      have inside : other < records.heap.limit := Heap.lt_limit live
      rw [Heap.erase_self, single_self, live, if_neg fun dead => by cases dead.2]
      exact (if_pos ⟨inside, rfl⟩).symm
    · rw [Heap.erase_other same, single_other same]
      rfl

theorem release_other (sound : records.Sound holders)
    (live : records.heap.cells id = some vmFd) (more : vmFd.refCount ≠ 1)
    (dropped : ∀ other, later other + single id other = holders other) :
    (⟨dropRef vmFdCounted records.heap id, records.deleted⟩ : Records).Sound later := by
  have positive := sound.positive id vmFd live
  have lowered : vmFd.refCount - 1 + 1 = vmFd.refCount := Nat.succ_pred_eq_of_pos positive
  refine sound.of_cells (sound.counted.dropRef live lowered rfl dropped) rfl
    (modify_eq_none _) fun other changed isChanged => ?_
  by_cases same : other = id
  · subst same
    rw [dropRef, Heap.modify_self live] at isChanged
    cases isChanged
    show 0 < vmFd.refCount - 1
    omega
  · rw [dropRef, Heap.modify_other same] at isChanged
    exact sound.positive other changed isChanged

theorem release (sound : records.Sound holders) (id : ℕ) (later : ℕ → ℕ)
    (dropped : ∀ other, later other + single id other = holders other) :
    ∃ after, records.release id = .ok (after, decide (later id = 0)) ∧ after.Sound later := by
  have here := dropped id
  rw [single_self] at here
  have held : 0 < holders id := by omega
  obtain ⟨vmFd, live⟩ := sound.live held
  have counted := sound.refCount_eq live
  by_cases last : vmFd.refCount = 1
  · refine ⟨_, ?_, sound.release_last live last dropped⟩
    rw [Records.release, live]
    dsimp only
    rw [if_pos last, decide_eq_true (by omega)]
  · refine ⟨_, ?_, sound.release_other live last dropped⟩
    rw [Records.release, live]
    dsimp only
    rw [if_neg last, decide_eq_false (by omega)]

end Sound

end Records

/-- `Sys_FD_Impl`. -/
structure SysFd where
  fd : ℤ
  impl : ℕ
  deriving DecidableEq, Repr

/-- An `FD` object is known by the order in which it was made, and its place is empty
after it has been finalised.  `fdAvailable` has the smallest number first. -/
structure FdTable where
  records : Records
  fdMap : List (Option ℕ)
  fdAvailable : List ℤ
  objects : List (Option SysFd)

/-- `static_cast<word_t>`. -/
def wordOf (size : ℕ) : ℤ :=
  Int.bmod size (2 ^ 32)

def vmInvalidFd : ℤ :=
  -1

namespace FdTable

def empty : FdTable where
  records := { heap := Heap.empty, deleted := [] }
  fdMap := []
  fdAvailable := []
  objects := []

/-- The place in the map of a number that is not out of range. -/
def index (table : FdTable) (fd : ℤ) : Option ℕ :=
  if fd < 0 ∨ wordOf table.fdMap.length ≤ fd then none else some fd.toNat

def slot (table : FdTable) (index : ℕ) : Option ℕ :=
  table.fdMap[index]?.join

def createFdRecord (table : FdTable) (vmFd : ℕ) : FdTable × ℤ :=
  match table.fdAvailable with
  | [] => ({ table with fdMap := table.fdMap ++ [some vmFd] }, wordOf table.fdMap.length)
  | newFd :: available =>
      ({ table with
          fdAvailable := available
          fdMap := table.fdMap.set newFd.toNat (some vmFd) }, newFd)

/-- The slot takes the reference of the caller, who keeps it if the result is
`false`. -/
def tryUpdateFdRecord (table : FdTable) (fd : ℤ) (vmFd : ℕ) :
    Except Fault (FdTable × Bool) :=
  match table.index fd with
  | none => .ok (table, false)
  | some index =>
      match table.slot index with
      | none => .error .nullRecord
      | some vmFdCurr => do
          let (records, _) ← table.records.release vmFdCurr
          return ({ table with records, fdMap := table.fdMap.set index (some vmFd) }, true)

def fetchFdRecord (table : FdTable) (fd : ℤ) : Except Fault (FdTable × Option ℕ) :=
  match (table.index fd).bind table.slot with
  | none => .ok (table, none)
  | some vmFd => do
      let records ← table.records.addRef vmFd
      return ({ table with records }, some vmFd)

/-- The slot is emptied when its record goes, and keeps it otherwise. -/
def dropFdRecord (table : FdTable) (fd : ℤ) : Except Fault FdTable :=
  match table.index fd with
  | none => .ok table
  | some index =>
      match table.slot index with
      | none => .error .nullRecord
      | some vmFd => do
          let (records, freed) ← table.records.release vmFd
          if freed then
            return { table with
              records
              fdMap := table.fdMap.set index none
              fdAvailable := table.fdAvailable.orderedInsert (· ≤ ·) fd }
          else
            return { table with records }

/-- The reference that the record was made with goes to the slot. -/
def createNew (table : FdTable) (vmFd : ℕ) : Except Fault (FdTable × ℕ) := do
  let (table, fd) := table.createFdRecord vmFd
  let records ← table.records.addRef vmFd
  return ({ table with records, objects := table.objects ++ [some { fd, impl := vmFd }] },
    table.objects.length)

/-- The reference to the record goes to the object. -/
def createExisting (table : FdTable) (fd : ℤ) (vmFd : ℕ) : FdTable × ℕ :=
  ({ table with objects := table.objects ++ [some { fd, impl := vmFd }] },
    table.objects.length)

/-- The finaliser of an `FD` object. -/
def finalizer (table : FdTable) (object : ℕ) : Except Fault FdTable :=
  match table.objects[object]?.join with
  | none => .ok table
  | some sysFd => do
      let table ← dropFdRecord { table with objects := table.objects.set object none } sysFd.fd
      let (records, _) ← table.records.release sysFd.impl
      return { table with records }

/-- `Sys_open`, with whether the file is found.  The result is the object, if any. -/
def sysOpen (table : FdTable) (found : Bool) : Except Fault (FdTable × Option ℕ) :=
  if found then do
    let (records, vmFd) := table.records.create
    let (table, object) ← createNew { table with records } vmFd
    return (table, some object)
  else .ok (table, none)

/-- `Sys_create` asks for a file in another mode and does the same with it. -/
def sysCreate (table : FdTable) (found : Bool) : Except Fault (FdTable × Option ℕ) :=
  table.sysOpen found

def sysFildes (table : FdTable) (fd : ℤ) : Except Fault (FdTable × Option ℕ) := do
  let (table, vmFd) ← table.fetchFdRecord fd
  match vmFd with
  | none => return (table, none)
  | some vmFd =>
      let (table, object) := table.createExisting fd vmFd
      return (table, some object)

/-- The result is the new number, and none when the call throws `Invalid FD value`. -/
def sysDup (table : FdTable) (oldFd newFd : ℤ) : Except Fault (FdTable × Option ℤ) := do
  let (table, fdMaybe) ← table.fetchFdRecord oldFd
  match fdMaybe with
  | none => return (table, none)
  | some vmFd =>
      if newFd = vmInvalidFd then
        let (table, fd) := table.createFdRecord vmFd
        return (table, some fd)
      else
        let (table, updated) ← table.tryUpdateFdRecord newFd vmFd
        return (table, if updated then some newFd else none)

/-- `Sysmodinit` makes records of the standard streams. -/
def sysmodinit : FdTable :=
  (List.range 3).foldl (fun table _ =>
    let (records, vmFd) := table.records.create
    (createFdRecord { table with records } vmFd).1) empty

end FdTable

inductive Action where
  | openFile (found : Bool)
  | createFile (found : Bool)
  | fildes (fd : ℤ)
  | dup (oldFd newFd : ℤ)
  | finalize (object : ℕ)
  deriving DecidableEq, Repr

namespace FdTable

def perform (table : FdTable) : Action → Except Fault FdTable
  | .openFile found => (table.sysOpen found).map Prod.fst
  | .createFile found => (table.sysCreate found).map Prod.fst
  | .fildes fd => (table.sysFildes fd).map Prod.fst
  | .dup oldFd newFd => (table.sysDup oldFd newFd).map Prod.fst
  | .finalize object => table.finalizer object

/-- The slots and the `FD` objects that refer to a record. -/
def holders (table : FdTable) (id : ℕ) : ℕ :=
  table.fdMap.reduceOption.count id +
    (table.objects.map (Option.map SysFd.impl)).reduceOption.count id

/-- What the table has to be at any time. -/
structure Intact (table : FdTable) : Prop where
  live : ∀ (index id : ℕ), table.fdMap[index]? = some (some id) →
    ∃ vmFd, table.records.heap.cells id = some vmFd
  counted : ∀ id vmFd, table.records.heap.cells id = some vmFd →
    vmFd.refCount = table.holders id
  destroyed : ∀ id, id < table.records.heap.limit →
    table.records.deleted.count id = if table.holders id = 0 then 1 else 0
  available : ∀ fd : ℤ, fd ∈ table.fdAvailable ↔
    ∃ index : ℕ, fd = index ∧ table.fdMap[index]? = some none

/-- A dup without an error, and a finalisation by which the record of the number has
only the slot of the number as its holder. -/
def Permitted (table : FdTable) : Action → Prop
  | .dup oldFd newFd =>
      (table.index oldFd).bind table.slot ≠ none → newFd ≠ vmInvalidFd →
        (table.index newFd).bind table.slot ≠ none
  | .finalize object =>
      ∀ sysFd, table.objects[object]? = some (some sysFd) →
        ∀ index, table.index sysFd.fd = some index →
          ∃ id, table.slot index = some id ∧
            table.records.heap.cells id = some { refCount := 1 }
  | _ => True

end FdTable

/-- A fault ends the process. -/
def step (state : Except Fault FdTable) (action : Action) : Except Fault FdTable :=
  state.bind fun table => table.perform action

namespace FdTable

/-- The table is as it has to be, with further references held by the code that is
at work on it. -/
structure Sound (table : FdTable) (held : ℕ → ℕ) : Prop where
  records : table.records.Sound fun id => table.holders id + held id
  available : ∀ fd : ℤ, fd ∈ table.fdAvailable ↔
    ∃ index : ℕ, fd = index ∧ table.fdMap[index]? = some none
  nodup : table.fdAvailable.Nodup

variable {table : FdTable} {held later : ℕ → ℕ} {fd : ℤ} {place id : ℕ}

theorem wordOf_le (size : ℕ) : wordOf size ≤ size := by
  unfold wordOf Int.bmod
  dsimp only
  split <;> omega

theorem index_eq_some (found : table.index fd = some place) :
    fd = place ∧ place < table.fdMap.length := by
  unfold index at found
  split at found
  · cases found
  · have above := wordOf_le table.fdMap.length
    cases found
    omega

theorem getElem?_of_slot (found : table.slot place = some id) :
    table.fdMap[place]? = some (some id) :=
  Option.join_eq_some_iff.mp found

theorem holders_pos_of_slot (found : table.slot place = some id) : 0 < table.holders id := by
  have member : some id ∈ table.fdMap := List.mem_of_getElem? (getElem?_of_slot found)
  have counted := List.count_pos_iff.mpr (List.reduceOption_mem_iff.mpr member)
  unfold holders
  omega

/-- The reference of a slot goes and another one takes its place. -/
theorem holders_set (inside : place < table.fdMap.length) (value : Option ℕ)
    (records : Records) (available : List ℤ) (target : ℕ) :
    holders { table with records, fdMap := table.fdMap.set place value, fdAvailable := available }
          target + (table.slot place).toList.count target =
      table.holders target + value.toList.count target := by
  have changed := count_reduceOption_set inside value target
  unfold holders slot
  dsimp only
  omega

theorem getElem?_set_eq_none {slots : List (Option ℕ)} (inside : place < slots.length)
    (value : Option ℕ) (other : ℕ) :
    (slots.set place value)[other]? = some none ↔
      if other = place then value = none else slots[other]? = some none := by
  rw [List.getElem?_set]
  by_cases same : place = other
  · subst same
    rw [if_pos rfl, if_pos inside, if_pos rfl, Option.some.injEq]
  · rw [if_neg same, if_neg fun isPlace => same isPlace.symm]

namespace Sound

theorem empty : FdTable.empty.Sound fun _ => 0 where
  records := Records.Sound.empty
  available fd := by
    refine iff_of_false List.not_mem_nil ?_
    rintro ⟨place, -, isNull⟩
    cases isNull
  nodup := List.nodup_nil

theorem create (sound : table.Sound held)
    (added : ∀ id, later id = held id + single table.records.heap.limit id) :
    Sound { table with records := table.records.create.1 } later where
  records := sound.records.create fun id => by
    show table.holders id + later id = _
    rw [added, Nat.add_assoc]
  available := sound.available
  nodup := sound.nodup

theorem addRef (sound : table.Sound held) (referred : 0 < table.holders id + held id)
    (added : ∀ other, later other = held other + single id other) :
    ∃ records, table.records.addRef id = .ok records ∧ Sound { table with records } later := by
  obtain ⟨records, isAdded, after⟩ := sound.records.addRef referred
    (fun other => table.holders other + later other) fun other => by
      rw [added, Nat.add_assoc]
  exact ⟨records, isAdded, after, sound.available, sound.nodup⟩

theorem single_eq_zero_add (id : ℕ) : ∀ other, single id other = 0 + single id other :=
  fun _ => (Nat.zero_add _).symm

/-- A new slot takes a reference. -/
theorem createFdRecord (sound : table.Sound held)
    (passed : ∀ other, held other = later other + single id other) :
    (table.createFdRecord id).1.Sound later := by
  have available := sound.available
  have nodup := sound.nodup
  unfold FdTable.createFdRecord
  cases isAvailable : table.fdAvailable with
  | nil =>
      rw [isAvailable] at available
      refine ⟨sound.records.congr fun other => ?_, fun fd => ?_, List.nodup_nil⟩
      · have taken : (table.fdMap ++ [some id]).reduceOption.count other =
            table.fdMap.reduceOption.count other + single id other := by
          rw [List.reduceOption_append, List.count_append]
          refine congrArg (table.fdMap.reduceOption.count other + ·) ?_
          exact (count_cons_single [] other).trans (Nat.zero_add _)
        show (table.fdMap ++ [some id]).reduceOption.count other +
          (table.objects.map (Option.map SysFd.impl)).reduceOption.count other + later other = _
        rw [taken, passed]
        unfold holders
        omega
      · refine iff_of_false List.not_mem_nil ?_
        rintro ⟨place, -, isNull⟩
        rw [List.getElem?_append] at isNull
        split at isNull
        · exact List.not_mem_nil ((available place).mpr ⟨place, rfl, isNull⟩)
        · cases List.mem_singleton.mp (List.mem_of_getElem? isNull)
  | cons newFd rest =>
      rw [isAvailable] at available nodup
      obtain ⟨place, rfl, isNull⟩ := (available newFd).mp List.mem_cons_self
      obtain ⟨inside, -⟩ := List.getElem?_eq_some_iff.mp isNull
      obtain ⟨notLater, nodupRest⟩ := List.nodup_cons.mp nodup
      refine ⟨sound.records.congr fun other => ?_, fun fd => ?_, nodupRest⟩
      · have changed := holders_set inside (some id) table.records rest other
        rw [slot, isNull, Option.join_some, Option.toList_none, List.count_nil,
          Option.toList_some, count_cons_single, List.count_nil] at changed
        show holders _ other + later other = table.holders other + held other
        rw [passed]
        dsimp only [Int.toNat_natCast] at changed ⊢
        omega
      · show fd ∈ rest ↔
          ∃ other : ℕ, fd = other ∧ (table.fdMap.set place (some id))[other]? = some none
        constructor
        · intro member
          obtain ⟨other, rfl, otherNull⟩ := (available fd).mp (List.mem_cons_of_mem _ member)
          refine ⟨other, rfl, (getElem?_set_eq_none inside _ other).mpr ?_⟩
          rw [if_neg]
          · exact otherNull
          · rintro rfl
            exact notLater member
        · rintro ⟨other, rfl, otherNull⟩
          have isNull := (getElem?_set_eq_none inside _ other).mp otherNull
          by_cases same : other = place
          · rw [if_pos same] at isNull
            cases isNull
          · rw [if_neg same] at isNull
            have member := (available other).mpr ⟨other, rfl, isNull⟩
            rcases List.mem_cons.mp member with isFirst | inRest
            · exact absurd (Int.natCast_inj.mp isFirst) same
            · exact inRest

theorem fetchFdRecord (sound : table.Sound held)
    (found : (table.index fd).bind table.slot = some id)
    (added : ∀ other, later other = held other + single id other) :
    ∃ records, table.fetchFdRecord fd = .ok ({ table with records }, some id) ∧
      Sound { table with records } later := by
  obtain ⟨place, -, isSlot⟩ := Option.bind_eq_some_iff.mp found
  have referred := holders_pos_of_slot isSlot
  obtain ⟨records, isAdded, after⟩ := sound.addRef (Nat.add_pos_left referred (held id)) added
  refine ⟨records, ?_, after⟩
  rw [FdTable.fetchFdRecord, found]
  dsimp only
  rw [isAdded]
  rfl

theorem tryUpdateFdRecord_outside (isIndex : table.index fd = none) :
    table.tryUpdateFdRecord fd id = .ok (table, false) := by
  rw [FdTable.tryUpdateFdRecord, isIndex]

theorem tryUpdateFdRecord_null (isIndex : table.index fd = some place)
    (isNull : table.slot place = none) :
    table.tryUpdateFdRecord fd id = .error .nullRecord := by
  rw [FdTable.tryUpdateFdRecord, isIndex]
  dsimp only
  rw [isNull]

/-- The slot gives up its reference for the one that is passed. -/
theorem tryUpdateFdRecord (sound : table.Sound held) {current : ℕ}
    (isIndex : table.index fd = some place) (isSlot : table.slot place = some current)
    (passed : ∀ other, held other = later other + single id other) :
    ∃ after, table.tryUpdateFdRecord fd id = .ok (after, true) ∧ after.Sound later := by
  obtain ⟨-, inside⟩ := index_eq_some isIndex
  have changed := holders_set inside (some id) table.records table.fdAvailable
  rw [isSlot] at changed
  simp only [Option.toList_some, count_cons_single, List.count_nil, Nat.zero_add] at changed
  obtain ⟨records, released, after⟩ := sound.records.release current
    (fun other => holders { table with fdMap := table.fdMap.set place (some id) } other +
      later other) fun other => by
        have here := changed other
        rw [passed]
        show holders _ other + _ + _ = _
        omega
  refine ⟨{ table with records, fdMap := table.fdMap.set place (some id) }, ?_, after,
    fun fd => ?_, sound.nodup⟩
  · rw [FdTable.tryUpdateFdRecord, isIndex]
    dsimp only
    rw [isSlot]
    dsimp only
    rw [released]
    rfl
  · refine (sound.available fd).trans (exists_congr fun other => and_congr_right fun _ => ?_)
    rw [getElem?_set_eq_none inside]
    by_cases same : other = place
    · rw [if_pos same, same, getElem?_of_slot isSlot]
      exact iff_of_false (fun isNull => by cases isNull) (fun isNull => by cases isNull)
    · rw [if_neg same]

theorem dropFdRecord_outside (isIndex : table.index fd = none) :
    table.dropFdRecord fd = .ok table := by
  rw [FdTable.dropFdRecord, isIndex]

theorem dropFdRecord_null (isIndex : table.index fd = some place)
    (isNull : table.slot place = none) : table.dropFdRecord fd = .error .nullRecord := by
  rw [FdTable.dropFdRecord, isIndex]
  dsimp only
  rw [isNull]

/-- What a drop makes of the table depends on whether a reference to the record
remains. -/
theorem dropFdRecord (sound : table.Sound held) (isIndex : table.index fd = some place)
    (isSlot : table.slot place = some id) (later : ℕ → ℕ)
    (dropped : ∀ other, later other + single id other = table.holders other + held other) :
    ∃ records, records.Sound later ∧ table.dropFdRecord fd =
      .ok (if later id = 0 then
        { table with
          records
          fdMap := table.fdMap.set place none
          fdAvailable := table.fdAvailable.orderedInsert (· ≤ ·) fd }
      else { table with records }) := by
  obtain ⟨records, released, after⟩ := sound.records.release id later dropped
  refine ⟨records, after, ?_⟩
  rw [FdTable.dropFdRecord, isIndex]
  dsimp only
  rw [isSlot]
  dsimp only
  rw [released]
  by_cases last : later id = 0
  · rw [if_pos last, decide_eq_true last]
    rfl
  · rw [if_neg last, decide_eq_false last]
    rfl

/-- The slot of a record that nothing else holds is emptied. -/
theorem dropFdRecord_last (sound : table.Sound held) (isIndex : table.index fd = some place)
    (isSlot : table.slot place = some id)
    (last : table.records.heap.cells id = some { refCount := 1 }) :
    ∃ after, table.dropFdRecord fd = .ok after ∧ after.Sound held := by
  obtain ⟨rfl, inside⟩ := index_eq_some isIndex
  have isOne : 1 = table.holders id + held id := sound.records.refCount_eq last
  have changed := holders_set inside none table.records table.fdAvailable
  rw [isSlot] at changed
  simp only [Option.toList_some, Option.toList_none, count_cons_single, List.count_nil,
    Nat.zero_add, Nat.add_zero] at changed
  have notAvailable : (place : ℤ) ∉ table.fdAvailable := by
    intro member
    obtain ⟨other, same, isNull⟩ := (sound.available place).mp member
    rw [← Int.natCast_inj.mp same, getElem?_of_slot isSlot] at isNull
    cases isNull
  obtain ⟨records, after, dropped⟩ := sound.dropFdRecord isIndex isSlot
    (fun other => holders { table with fdMap := table.fdMap.set place none } other +
      held other) fun other => by
        have here := changed other
        show holders _ other + _ + _ = _
        omega
  have none_left : holders { table with fdMap := table.fdMap.set place none } id + held id = 0 := by
    have here : holders { table with fdMap := table.fdMap.set place none } id + single id id = _ :=
      changed id
    rw [single_self] at here
    omega
  rw [if_pos none_left] at dropped
  refine ⟨_, dropped, after, fun fd => ?_, ?_⟩
  · show fd ∈ List.orderedInsert _ _ _ ↔ _
    rw [List.mem_orderedInsert]
    constructor
    · rintro (rfl | member)
      · exact ⟨place, rfl, (getElem?_set_eq_none inside _ place).mpr (by rw [if_pos rfl])⟩
      · obtain ⟨other, rfl, isNull⟩ := (sound.available fd).mp member
        refine ⟨other, rfl, (getElem?_set_eq_none inside _ other).mpr ?_⟩
        split
        · rfl
        · exact isNull
    · rintro ⟨other, rfl, isNull⟩
      have before := (getElem?_set_eq_none inside _ other).mp isNull
      by_cases same : other = place
      · exact Or.inl (congrArg Int.ofNat same)
      · rw [if_neg same] at before
        exact Or.inr ((sound.available other).mpr ⟨other, rfl, before⟩)
  · exact (List.perm_orderedInsert _ _ _).nodup_iff.mpr
      (List.nodup_cons.mpr ⟨notAvailable, sound.nodup⟩)

theorem createExisting (sound : table.Sound held) (fd : ℤ)
    (passed : ∀ other, held other = later other + single id other) :
    (table.createExisting fd id).1.Sound later where
  records := sound.records.congr fun other => by
    have taken : ((table.objects ++ [some ({ fd, impl := id } : SysFd)]).map
          (Option.map SysFd.impl)).reduceOption.count other =
        (table.objects.map (Option.map SysFd.impl)).reduceOption.count other + single id other := by
      rw [List.map_append, List.reduceOption_append, List.count_append]
      refine congrArg ((table.objects.map (Option.map SysFd.impl)).reduceOption.count other + ·) ?_
      exact (count_cons_single [] other).trans (Nat.zero_add _)
    unfold holders FdTable.createExisting
    dsimp only
    rw [taken, passed]
    omega
  available := sound.available
  nodup := sound.nodup

/-- The reference of an object that goes is left to its finaliser. -/
theorem takeObject (sound : table.Sound held) {object : ℕ} {sysFd : SysFd}
    (isObject : table.objects[object]? = some (some sysFd))
    (taken : ∀ other, later other = held other + single sysFd.impl other) :
    Sound { table with objects := table.objects.set object none } later where
  records := sound.records.congr fun other => by
    obtain ⟨inside, -⟩ := List.getElem?_eq_some_iff.mp isObject
    have changed := @count_reduceOption_set (table.objects.map (Option.map SysFd.impl)) object
      (by rwa [List.length_map]) none other
    rw [List.getElem?_map, isObject] at changed
    simp only [Option.map_some, Option.join_some, Option.toList_some, Option.toList_none,
      count_cons_single, List.count_nil, Nat.zero_add, Nat.add_zero] at changed
    unfold holders
    dsimp only
    rw [List.map_set, Option.map_none, taken]
    omega
  available := sound.available
  nodup := sound.nodup

theorem release (sound : table.Sound held)
    (released : ∀ other, later other + single id other = held other) :
    ∃ records freed, table.records.release id = .ok (records, freed) ∧
      Sound { table with records } later := by
  obtain ⟨records, isReleased, after⟩ := sound.records.release id
    (fun other => table.holders other + later other) fun other => by
      rw [Nat.add_assoc, released]
  exact ⟨records, _, isReleased, after, sound.available, sound.nodup⟩

theorem intact (sound : table.Sound fun _ => 0) : table.Intact where
  live place id isSlot := by
    have referred := holders_pos_of_slot (Option.join_eq_some_iff.mpr isSlot)
    exact sound.records.live (Nat.add_pos_left referred 0)
  counted id vmFd live := sound.records.refCount_eq live
  destroyed id inside := by
    refine (sound.records.deleted id).trans (if_congr ?_ rfl rfl)
    rw [and_iff_right inside]
    exact sound.records.cells_eq_none_iff
  available := sound.available

theorem holders_pos (sound : table.Sound fun _ => 0) {vmFd : VmFd}
    (live : table.records.heap.cells id = some vmFd) : 0 < table.holders id := by
  have positive := sound.records.positive id vmFd live
  rwa [sound.records.refCount_eq live] at positive

theorem createNew (sound : table.Sound (single id)) {vmFd : VmFd}
    (live : table.records.heap.cells id = some vmFd) :
    ∃ after object, table.createNew id = .ok (after, object) ∧ after.Sound fun _ => 0 := by
  have stored : (table.createFdRecord id).1.Sound fun _ => 0 :=
    sound.createFdRecord (single_eq_zero_add id)
  have sameRecords : (table.createFdRecord id).1.records = table.records := by
    unfold FdTable.createFdRecord
    split <;> rfl
  have referred := stored.holders_pos (by rwa [sameRecords])
  obtain ⟨records, isAdded, after⟩ := stored.addRef (Nat.add_pos_left referred 0)
    (single_eq_zero_add id)
  refine ⟨_, (table.createFdRecord id).1.objects.length, ?_,
    after.createExisting (table.createFdRecord id).2 (single_eq_zero_add id)⟩
  rw [FdTable.createNew]
  dsimp only
  rw [isAdded]
  rfl

theorem sysOpen (sound : table.Sound fun _ => 0) (found : Bool) :
    ∃ after object, table.sysOpen found = .ok (after, object) ∧ after.Sound fun _ => 0 := by
  cases found with
  | false => exact ⟨table, none, rfl, sound⟩
  | true =>
      have created := sound.create (single_eq_zero_add table.records.heap.limit)
      obtain ⟨after, object, isNew, keeps⟩ := created.createNew (Heap.allocate_self _)
      refine ⟨after, some object, ?_, keeps⟩
      rw [FdTable.sysOpen, if_pos rfl]
      dsimp only [Records.create] at isNew ⊢
      rw [isNew]
      rfl

theorem fetchFdRecord_none (missing : (table.index fd).bind table.slot = none) :
    table.fetchFdRecord fd = .ok (table, none) := by
  rw [FdTable.fetchFdRecord, missing]

theorem sysFildes (sound : table.Sound fun _ => 0) (fd : ℤ) :
    ∃ after object, table.sysFildes fd = .ok (after, object) ∧ after.Sound fun _ => 0 := by
  cases found : (table.index fd).bind table.slot with
  | none =>
      refine ⟨table, none, ?_, sound⟩
      rw [FdTable.sysFildes, fetchFdRecord_none found]
      rfl
  | some id =>
      obtain ⟨records, fetched, after⟩ := sound.fetchFdRecord found (single_eq_zero_add id)
      refine ⟨_, some table.objects.length, ?_, after.createExisting fd (single_eq_zero_add id)⟩
      rw [FdTable.sysFildes, fetched]
      rfl

theorem sysDup (sound : table.Sound fun _ => 0) {oldFd newFd : ℤ}
    (permitted : table.Permitted (.dup oldFd newFd)) :
    ∃ after result, table.sysDup oldFd newFd = .ok (after, result) ∧
      after.Sound fun _ => 0 := by
  cases found : (table.index oldFd).bind table.slot with
  | none =>
      refine ⟨table, none, ?_, sound⟩
      rw [FdTable.sysDup, fetchFdRecord_none found]
      rfl
  | some id =>
      obtain ⟨records, fetched, after⟩ := sound.fetchFdRecord found (single_eq_zero_add id)
      by_cases isInvalid : newFd = vmInvalidFd
      · refine ⟨_, some (FdTable.createFdRecord { table with records } id).2, ?_,
          after.createFdRecord (single_eq_zero_add id)⟩
        rw [FdTable.sysDup, fetched]
        show (if newFd = vmInvalidFd then _ else _) = _
        rw [if_pos isInvalid]
        rfl
      · obtain ⟨current, isCurrent⟩ := Option.ne_none_iff_exists'.mp
          (permitted (by rw [found]; exact Option.some_ne_none id) isInvalid)
        obtain ⟨place, isIndex, isSlot⟩ := Option.bind_eq_some_iff.mp isCurrent
        obtain ⟨last, updated, keeps⟩ := after.tryUpdateFdRecord isIndex isSlot
          (single_eq_zero_add id)
        refine ⟨last, some newFd, ?_, keeps⟩
        rw [FdTable.sysDup, fetched]
        show (if newFd = vmInvalidFd then _ else _) = _
        rw [if_neg isInvalid]
        dsimp only
        rw [updated]
        rfl

theorem finalizer (sound : table.Sound fun _ => 0) {object : ℕ}
    (permitted : table.Permitted (.finalize object)) :
    ∃ after, table.finalizer object = .ok after ∧ after.Sound fun _ => 0 := by
  cases isObject : table.objects[object]?.join with
  | none =>
      refine ⟨table, ?_, sound⟩
      rw [FdTable.finalizer, isObject]
  | some sysFd =>
      have isThere := Option.join_eq_some_iff.mp isObject
      have taken := sound.takeObject isThere (single_eq_zero_add sysFd.impl)
      obtain ⟨middle, dropped, keeps⟩ : ∃ middle,
          FdTable.dropFdRecord { table with objects := table.objects.set object none }
            sysFd.fd = .ok middle ∧ middle.Sound (single sysFd.impl) := by
        cases isIndex : table.index sysFd.fd with
        | none => exact ⟨_, dropFdRecord_outside isIndex, taken⟩
        | some place =>
            obtain ⟨id, isSlot, last⟩ := permitted sysFd isThere place isIndex
            exact taken.dropFdRecord_last isIndex isSlot last
      obtain ⟨records, freed, released, after⟩ := keeps.release
        fun other => (single_eq_zero_add sysFd.impl other).symm
      refine ⟨_, ?_, after⟩
      rw [FdTable.finalizer, isObject]
      dsimp only
      rw [dropped]
      show (middle.records.release sysFd.impl).bind _ = _
      rw [released]
      rfl

end Sound

/-- The holders of a live record in an intact table are those by which its count can
be explained. -/
theorem Intact.holders_eq (intact : table.Intact) {holders : ℕ → ℕ}
    (sound : table.records.Sound holders) {vmFd : VmFd}
    (live : table.records.heap.cells id = some vmFd) : table.holders id = holders id :=
  (intact.counted id vmFd live).symm.trans (sound.refCount_eq live)

theorem Intact.holders_eq_of_slot (intact : table.Intact) {holders : ℕ → ℕ}
    (sound : table.records.Sound holders) (isSlot : table.slot place = some id) :
    table.holders id = holders id := by
  obtain ⟨vmFd, live⟩ := intact.live place id (getElem?_of_slot isSlot)
  exact intact.holders_eq sound live

/-- A dup to a number out of range keeps the reference that it has fetched, and one to
a number whose slot is empty releases the null record. -/
theorem not_intact_dup (sound : table.Sound fun _ => 0) {oldFd newFd : ℤ}
    (found : (table.index oldFd).bind table.slot = some id) (isNumber : newFd ≠ vmInvalidFd)
    (missing : (table.index newFd).bind table.slot = none) {after : FdTable}
    (performed : table.perform (.dup oldFd newFd) = .ok after) : ¬ after.Intact := by
  obtain ⟨records, fetched, middle⟩ := sound.fetchFdRecord found (Sound.single_eq_zero_add id)
  have isDup : (FdTable.sysDup table oldFd newFd) =
      (FdTable.tryUpdateFdRecord { table with records } newFd id).bind fun updated =>
        .ok (updated.1, if updated.2 then some newFd else none) := by
    rw [FdTable.sysDup, fetched]
    show (if newFd = vmInvalidFd then _ else _) = _
    rw [if_neg isNumber]
    rfl
  rw [perform, isDup] at performed
  cases isIndex : table.index newFd with
  | none =>
      rw [@Sound.tryUpdateFdRecord_outside { table with records } newFd id isIndex] at performed
      cases performed
      intro intact
      obtain ⟨place, -, isSlot⟩ := Option.bind_eq_some_iff.mp found
      have same : table.holders id = table.holders id + single id id :=
        intact.holders_eq_of_slot middle.records isSlot
      rw [single_self] at same
      omega
  | some place =>
      rw [isIndex, Option.bind_some] at missing
      rw [@Sound.tryUpdateFdRecord_null { table with records } newFd place id isIndex
        missing] at performed
      cases performed

/-- An object whose number has a record with other holders gives up two references,
and its number keeps the slot. -/
theorem not_intact_finalize (sound : table.Sound fun _ => 0) {object : ℕ} {sysFd : SysFd}
    (isObject : table.objects[object]? = some (some sysFd))
    (isIndex : table.index sysFd.fd = some place)
    (shared : ∀ id, table.slot place = some id →
      table.records.heap.cells id ≠ some { refCount := 1 }) {after : FdTable}
    (performed : table.perform (.finalize object) = .ok after) : ¬ after.Intact := by
  have taken := sound.takeObject isObject (Sound.single_eq_zero_add sysFd.impl)
  rw [perform, FdTable.finalizer, isObject, Option.join_some] at performed
  dsimp only at performed
  cases isSlot : table.slot place with
  | none =>
      rw [@Sound.dropFdRecord_null { table with objects := table.objects.set object none }
        sysFd.fd place isIndex isSlot] at performed
      cases performed
  | some id =>
      let middle : FdTable := { table with objects := table.objects.set object none }
      obtain ⟨vmFd, live⟩ := sound.intact.live place id (getElem?_of_slot isSlot)
      have counted : vmFd.refCount = middle.holders id + single sysFd.impl id :=
        taken.records.refCount_eq live
      have more : vmFd.refCount ≠ 1 := by
        intro isOne
        exact shared id isSlot (live.trans (congrArg (some ∘ VmFd.mk) isOne))
      have referred : 0 < middle.holders id := holders_pos_of_slot isSlot
      have split : ∀ other, middle.holders other - single id other + single id other =
          middle.holders other := by
        intro other
        refine Nat.sub_add_cancel ?_
        by_cases same : other = id
        · rw [same, single_self]
          exact referred
        · rw [single_other same]
          exact Nat.zero_le _
      obtain ⟨records, dropped, isDropped⟩ := taken.dropFdRecord isIndex isSlot
        (fun other => middle.holders other - single id other + single sysFd.impl other)
        fun other => by
          rw [Nat.add_right_comm, split]
      rw [if_neg] at isDropped
      · obtain ⟨later, released, keeps⟩ := dropped.release sysFd.impl
          (fun other => middle.holders other - single id other) fun other => rfl
        rw [isDropped] at performed
        change (records.release sysFd.impl).bind _ = _ at performed
        rw [released] at performed
        cases performed
        intro intact
        have same : middle.holders id = middle.holders id - single id id :=
          intact.holders_eq_of_slot keeps isSlot
        rw [single_self] at same
        omega
      · have here := split id
        rw [single_self] at here ⊢
        have positive := sound.records.positive id vmFd live
        omega

theorem map_fst_eq {Result : Type} {outcome : Except Fault (FdTable × Result)}
    {property : FdTable → Prop}
    (succeeds : ∃ after result, outcome = .ok (after, result) ∧ property after) :
    ∃ after, outcome.map Prod.fst = .ok after ∧ property after := by
  obtain ⟨after, result, rfl, holds⟩ := succeeds
  exact ⟨after, rfl, holds⟩

theorem sound_perform (sound : table.Sound fun _ => 0) {action : Action}
    (permitted : table.Permitted action) :
    ∃ after, table.perform action = .ok after ∧ after.Sound fun _ => 0 := by
  cases action with
  | openFile found => exact map_fst_eq (sound.sysOpen found)
  | createFile found => exact map_fst_eq (sound.sysOpen found)
  | fildes fd => exact map_fst_eq (sound.sysFildes fd)
  | dup oldFd newFd => exact map_fst_eq (sound.sysDup permitted)
  | finalize object => exact sound.finalizer permitted

theorem intact_perform_iff (sound : table.Sound fun _ => 0) (action : Action) :
    (∃ after, table.perform action = .ok after ∧ after.Intact) ↔ table.Permitted action := by
  constructor
  · rintro ⟨after, performed, intact⟩
    cases action with
    | openFile found => trivial
    | createFile found => trivial
    | fildes fd => trivial
    | dup oldFd newFd =>
        intro isFound isNumber missing
        obtain ⟨id, found⟩ := Option.ne_none_iff_exists'.mp isFound
        exact not_intact_dup sound found isNumber missing performed intact
    | finalize object =>
        intro sysFd isObject place isIndex
        by_contra shared
        refine not_intact_finalize sound isObject isIndex (fun id isSlot last => ?_) performed
          intact
        exact shared ⟨id, isSlot, last⟩
  · intro permitted
    obtain ⟨after, performed, keeps⟩ := sound_perform sound permitted
    exact ⟨after, performed, keeps.intact⟩

theorem sound_sysmodinit : sysmodinit.Sound fun _ => 0 := by
  have stream : ∀ table : FdTable, table.Sound (fun _ => 0) →
      (createFdRecord { table with records := table.records.create.1 }
        table.records.create.2).1.Sound fun _ => 0 := by
    intro table sound
    have created := sound.create (Sound.single_eq_zero_add table.records.heap.limit)
    exact created.createFdRecord (Sound.single_eq_zero_add table.records.heap.limit)
  exact stream _ (stream _ (stream _ Sound.empty))

end FdTable

/-- After the step the process goes on with a table as it has to be. -/
def Keeps (state : Except Fault FdTable) (action : Action) : Prop :=
  ∃ after, step state action = .ok after ∧ after.Intact

def Permitted (state : Except Fault FdTable) (action : Action) : Prop :=
  ∃ table, state = .ok table ∧ table.Permitted action

def SoundState (state : Except Fault FdTable) : Prop :=
  ∃ table : FdTable, state = .ok table ∧ table.Sound fun _ => 0

theorem keeps_iff {state : Except Fault FdTable} (action : Action) (sound : SoundState state) :
    Keeps state action ↔ Permitted state action := by
  obtain ⟨table, rfl, isSound⟩ := sound
  refine (FdTable.intact_perform_iff isSound action).trans ⟨fun permitted => ?_, ?_⟩
  · exact ⟨table, rfl, permitted⟩
  · rintro ⟨same, isOk, permitted⟩
    cases isOk
    exact permitted

theorem soundState_step {state : Except Fault FdTable} {action : Action}
    (sound : SoundState state) (permitted : Permitted state action) :
    SoundState (step state action) := by
  obtain ⟨table, rfl, isSound⟩ := sound
  obtain ⟨same, isOk, isPermitted⟩ := permitted
  cases isOk
  exact FdTable.sound_perform isSound isPermitted

/-- In a run from the standard streams every step keeps the table as it has to be
exactly when every step is permitted. -/
theorem keeps_fdTable_iff (actions : List Action) :
    Transition.Throughout step Keeps (.ok FdTable.sysmodinit) actions ↔
      Transition.Throughout step Permitted (.ok FdTable.sysmodinit) actions :=
  Transition.throughout_iff SoundState (fun _ action sound => keeps_iff action sound)
    (fun _ action sound keeps => soundState_step sound ((keeps_iff action sound).mp keeps))
    ⟨_, rfl, FdTable.sound_sysmodinit⟩ actions

/-- The finaliser of an opened file destroys the record that its slot refers to, and a
dup to a number out of range leaves the record with a count that nothing gives up. -/
theorem finalize_leaves_slot :
    ¬ Transition.Throughout step Keeps (.ok FdTable.sysmodinit) [.openFile true, .finalize 0] ∧
      ¬ Transition.Throughout step Keeps (.ok FdTable.sysmodinit) [.dup 0 7] := by
  constructor
  · rintro ⟨-, ⟨after, isAfter, intact⟩, -⟩
    have leaves : (step (step (.ok FdTable.sysmodinit) (.openFile true)) (.finalize 0)).toOption.map
        (fun table => (table.fdMap, table.records.heap.cells 3)) =
          some ([some 0, some 1, some 2, some 3], none) := by decide
    rw [isAfter] at leaves
    obtain ⟨slots, dead⟩ := Prod.mk.inj (Option.some.inj leaves)
    obtain ⟨vmFd, live⟩ := intact.live 3 3 (congrArg (fun slots => slots[3]?) slots)
    rw [dead] at live
    cases live
  · rintro ⟨⟨after, isAfter, intact⟩, -⟩
    have leaks : (step (.ok FdTable.sysmodinit) (.dup 0 7)).toOption.map
        (fun table => (table.holders 0, table.records.heap.cells 0)) =
          some (1, some { refCount := 2 }) := by decide
    rw [isAfter] at leaks
    obtain ⟨isOne, live⟩ := Prod.mk.inj (Option.some.inj leaks)
    have counted := intact.counted 0 _ live
    rw [isOne] at counted
    cases counted

end Disvm.FileDescriptors
