import Disvm.StringCases

/-!
# Resolution of imports

The functions that a module imports are looked up by their signatures in the exports of the
module that is loaded, and then by their names.  Names are compared as the string branches
compare them.
-/

namespace Disvm.ImportResolution

open Strings

abbrev Word := BitVec 32

/-- Names are pointers to strings. -/
structure ExportFunction where
  pc : Word
  frameType : Word
  sig : Word
  name : ℕ
  deriving DecidableEq, Repr

structure ImportFunction where
  sig : Word
  name : ℕ
  deriving DecidableEq, Repr

structure FunctionRef where
  entryPc : Word
  frameType : Word
  deriving DecidableEq, Repr

def notExported : String := "Module does not export a function with expected signature"

def typeCheckFailure : String := "Type check failure for exported function"

def invalidReference : String :=
  "Invalid function reference index into module reference functions"

/-- The exports of a signature, in the order of the table. -/
def equalRange (exports : List ExportFunction) (sig : Word) : List ExportFunction :=
  exports.filter fun entry => entry.sig = sig

section Functions

variable (values : StringValues) (exports : List ExportFunction)

/-- The loop over the exports of the signature. -/
def matchLoop (name : ℕ) : List ExportFunction → Option ExportFunction
  | [] => none
  | entry :: rest =>
      if compare values (some entry.name) (some name) = 0 then some entry else matchLoop name rest

/-- The export that an import is resolved to. -/
def exportMatch (imported : ImportFunction) : Except String ExportFunction :=
  if equalRange exports imported.sig = [] then .error notExported
  else
    match matchLoop values imported.name (equalRange exports imported.sig) with
    | none => .error typeCheckFailure
    | some entry => .ok entry

/-- `resolve_imports`. -/
def resolveImports : List ImportFunction → Except String (List FunctionRef)
  | [] => .ok []
  | imported :: imports =>
      match exportMatch values exports imported with
      | .error error => .error error
      | .ok entry =>
          match resolveImports imports with
          | .error error => .error error
          | .ok refs => .ok (⟨entry.pc, entry.frameType⟩ :: refs)

end Functions

/-- `get_function_ref`. -/
def getFunctionRef (refs : List FunctionRef) (index : ℤ) : Except String FunctionRef :=
  if index < 0 then .error invalidReference
  else
    match refs[index.toNat]? with
    | none => .error invalidReference
    | some ref => .ok ref

section Law

variable (values : StringValues) (exports : List ExportFunction)

/-- The signature and the name are the same. -/
def Exports (entry : ExportFunction) (imported : ImportFunction) : Prop :=
  entry.sig = imported.sig ∧ runesAt values (some entry.name) = runesAt values (some imported.name)

/-- Every import is resolved to an export of its signature and name, and there is an exception
when an import has none. -/
structure ImportsResolved (imports : List ImportFunction) : Prop where
  resolved : ∀ refs, resolveImports values exports imports = .ok refs →
    refs.length = imports.length ∧ ∀ index imported, imports[index]? = some imported →
      ∃ entry ∈ exports, exportMatch values exports imported = .ok entry ∧
        Exports values entry imported ∧
        getFunctionRef refs (index : ℕ) = .ok ⟨entry.pc, entry.frameType⟩
  throws : (∃ error, resolveImports values exports imports = .error error) ↔
    ∃ imported ∈ imports, ∀ entry ∈ exports, ¬ Exports values entry imported

/-- The signature is the same, and the name is taken for the same. -/
def Taken (entry : ExportFunction) (imported : ImportFunction) : Prop :=
  entry.sig = imported.sig ∧ TakenForEqual values (some entry.name) (some imported.name)

/-- The first export that an import can be taken for. -/
def FirstTaken (imported : ImportFunction) (entry : ExportFunction) : Prop :=
  Taken values entry imported ∧ ∃ before after, exports = before ++ entry :: after ∧
    ∀ earlier ∈ before, ¬ Taken values earlier imported

/-- An import can be taken for no export, or the first export that each import is taken for has
its name. -/
def Unmistaken (imports : List ImportFunction) : Prop :=
  (∃ imported ∈ imports, ∀ entry ∈ exports, ¬ Taken values entry imported) ∨
    ∀ imported ∈ imports, ∀ entry, FirstTaken values exports imported entry →
      runesAt values (some entry.name) = runesAt values (some imported.name)

end Law

section One

variable {values : StringValues} {exports : List ExportFunction} {imported : ImportFunction}
  {entry : ExportFunction}

theorem Exports.taken (same : Exports values entry imported) : Taken values entry imported :=
  ⟨same.1, compare_eq_zero_iff.mp (compare_eq_zero_of_runes same.2)⟩

theorem matchLoop_eq (name : ℕ) (range : List ExportFunction) :
    matchLoop values name range =
      range.find? fun entry => compare values (some entry.name) (some name) = 0 := by
  induction range with
  | nil => rfl
  | cons entry range ih =>
      rw [matchLoop, List.find?_cons, ih]
      by_cases same : compare values (some entry.name) (some name) = 0
      · rw [if_pos same, decide_eq_true same]
      · rw [if_neg same, decide_eq_false same]

theorem matchLoop_equalRange :
    matchLoop values imported.name (equalRange exports imported.sig) =
      exports.find? fun entry => decide (entry.sig = imported.sig) &&
        decide (compare values (some entry.name) (some imported.name) = 0) := by
  rw [matchLoop_eq, equalRange, List.find?_filter]
  congr 1
  funext entry
  rw [Bool.decide_and, Bool.decide_eq_true, Bool.decide_eq_true]

theorem takenTest_iff : (decide (entry.sig = imported.sig) &&
      decide (compare values (some entry.name) (some imported.name) = 0)) = true ↔
    Taken values entry imported := by
  rw [Bool.and_eq_true, decide_eq_true_iff, decide_eq_true_iff, compare_eq_zero_iff, Taken]

theorem matchLoop_eq_some_iff :
    matchLoop values imported.name (equalRange exports imported.sig) = some entry ↔
      FirstTaken values exports imported entry := by
  rw [matchLoop_equalRange, List.find?_eq_some_iff_append, takenTest_iff]
  unfold FirstTaken
  simp only [Bool.not_eq_true', Bool.eq_false_iff, ne_eq, takenTest_iff]

theorem matchLoop_eq_none_iff :
    matchLoop values imported.name (equalRange exports imported.sig) = none ↔
      ∀ entry ∈ exports, ¬ Taken values entry imported := by
  rw [matchLoop_equalRange, List.find?_eq_none]
  simp only [takenTest_iff]

theorem exportMatch_of_some
    (found : matchLoop values imported.name (equalRange exports imported.sig) = some entry) :
    exportMatch values exports imported = .ok entry := by
  have nonempty : equalRange exports imported.sig ≠ [] := by
    intro isNil
    rw [isNil] at found
    cases found
  unfold exportMatch
  rw [if_neg nonempty, found]

theorem exportMatch_of_none
    (missing : matchLoop values imported.name (equalRange exports imported.sig) = none) :
    ∃ error, exportMatch values exports imported = .error error := by
  unfold exportMatch
  split_ifs
  · exact ⟨_, rfl⟩
  · rw [missing]
    exact ⟨_, rfl⟩

theorem exportMatch_eq_ok_iff :
    exportMatch values exports imported = .ok entry ↔
      FirstTaken values exports imported entry := by
  rw [← matchLoop_eq_some_iff]
  constructor
  · intro resolved
    cases found : matchLoop values imported.name (equalRange exports imported.sig) with
    | none =>
        obtain ⟨error, failed⟩ := exportMatch_of_none found
        rw [failed] at resolved
        cases resolved
    | some other =>
        rw [exportMatch_of_some found] at resolved
        exact congrArg some (Except.ok.inj resolved)
  · exact exportMatch_of_some

theorem exportMatch_error_iff :
    (∃ error, exportMatch values exports imported = .error error) ↔
      ∀ entry ∈ exports, ¬ Taken values entry imported := by
  rw [← matchLoop_eq_none_iff]
  constructor
  · rintro ⟨error, failed⟩
    cases found : matchLoop values imported.name (equalRange exports imported.sig) with
    | none => rfl
    | some entry =>
        rw [exportMatch_of_some found] at failed
        cases failed
  · exact exportMatch_of_none

theorem FirstTaken.mem (first : FirstTaken values exports imported entry) : entry ∈ exports := by
  obtain ⟨-, before, after, rfl, -⟩ := first
  exact List.mem_append_right before List.mem_cons_self

end One

section All

variable {values : StringValues} {exports : List ExportFunction} {imports : List ImportFunction}

/-- The references are those of the exports that the imports are resolved to, in order. -/
theorem resolveImports_ok_iff {refs : List FunctionRef} :
    resolveImports values exports imports = .ok refs ↔
      List.Forall₂ (fun imported ref => ∃ entry, exportMatch values exports imported = .ok entry ∧
        ref = ⟨entry.pc, entry.frameType⟩) imports refs := by
  induction imports generalizing refs with
  | nil =>
      rw [resolveImports, Except.ok.injEq, List.forall₂_nil_left_iff]
      exact eq_comm
  | cons imported imports ih =>
      rw [resolveImports, List.forall₂_cons_left_iff]
      cases matched : exportMatch values exports imported with
      | error error => simp
      | ok entry =>
          cases later : resolveImports values exports imports with
          | error error =>
              constructor
              · intro failed
                cases failed
              · rintro ⟨ref, rest, -, resolved, -⟩
                rw [← ih, later] at resolved
                cases resolved
          | ok laterRefs =>
              constructor
              · intro isRefs
                obtain rfl := Except.ok.inj isRefs
                exact ⟨_, _, ⟨entry, rfl, rfl⟩, ih.mp later, rfl⟩
              · rintro ⟨ref, rest, ⟨_, same, rfl⟩, resolved, rfl⟩
                obtain rfl := Except.ok.inj same
                rw [← ih, later] at resolved
                rw [Except.ok.inj resolved]

theorem resolveImports_error_iff :
    (∃ error, resolveImports values exports imports = .error error) ↔
      ∃ imported ∈ imports, ∀ entry ∈ exports, ¬ Taken values entry imported := by
  induction imports with
  | nil => simp [resolveImports]
  | cons imported imports ih =>
      rw [resolveImports, List.exists_mem_cons_iff, ← ih, ← exportMatch_error_iff]
      cases matched : exportMatch values exports imported with
      | error error => simp
      | ok entry =>
          cases later : resolveImports values exports imports with
          | error error => simp
          | ok refs => simp

theorem getFunctionRef_of_getElem? {refs : List FunctionRef} {index : ℕ} {ref : FunctionRef}
    (isRef : refs[index]? = some ref) : getFunctionRef refs (index : ℕ) = .ok ref := by
  unfold getFunctionRef
  rw [if_neg (by omega), Int.toNat_natCast, isRef]

theorem getFunctionRef_forall₂ {relation : ImportFunction → FunctionRef → Prop}
    {refs : List FunctionRef} (related : List.Forall₂ relation imports refs) {index : ℕ}
    {imported : ImportFunction} (isImport : imports[index]? = some imported) :
    ∃ ref, relation imported ref ∧ refs[index]? = some ref := by
  induction related generalizing index with
  | nil => cases isImport
  | @cons _ ref _ _ isRelated _ ih =>
      cases index with
      | zero =>
          obtain rfl := Option.some.inj isImport
          exact ⟨ref, isRelated, rfl⟩
      | succ index => exact ih isImport

theorem unmistaken_of_resolved (law : ImportsResolved values exports imports) :
    Unmistaken values exports imports := by
  cases result : resolveImports values exports imports with
  | error error => exact Or.inl (resolveImports_error_iff.mp ⟨error, result⟩)
  | ok refs =>
      right
      intro imported member entry first
      obtain ⟨index, isImport⟩ := List.mem_iff_getElem?.mp member
      obtain ⟨other, -, matched, same, -⟩ := (law.resolved refs result).2 index imported isImport
      rw [exportMatch_eq_ok_iff.mpr first] at matched
      obtain rfl := Except.ok.inj matched
      exact same.2

theorem resolved_of_unmistaken (unmistaken : Unmistaken values exports imports) :
    ImportsResolved values exports imports := by
  by_cases untaken : ∃ imported ∈ imports, ∀ entry ∈ exports, ¬ Taken values entry imported
  · have failed := resolveImports_error_iff.mpr untaken
    constructor
    · intro refs resolved
      obtain ⟨error, failed⟩ := failed
      rw [failed] at resolved
      cases resolved
    · apply iff_of_true failed
      obtain ⟨imported, member, none⟩ := untaken
      exact ⟨imported, member, fun entry inside same => none entry inside same.taken⟩
  · have named := unmistaken.resolve_left untaken
    have firstExports : ∀ imported ∈ imports, ∀ entry,
        exportMatch values exports imported = .ok entry → Exports values entry imported := by
      intro imported member entry matched
      have first := exportMatch_eq_ok_iff.mp matched
      exact ⟨first.1.1, named imported member entry first⟩
    constructor
    · intro refs resolved
      have related := resolveImports_ok_iff.mp resolved
      refine ⟨related.length_eq.symm, fun index imported isImport => ?_⟩
      obtain ⟨_, ⟨entry, matched, rfl⟩, isRef⟩ := getFunctionRef_forall₂ related isImport
      exact ⟨entry, (exportMatch_eq_ok_iff.mp matched).mem, matched,
        firstExports imported (List.mem_iff_getElem?.mpr ⟨index, isImport⟩) entry matched,
        getFunctionRef_of_getElem? isRef⟩
    · apply iff_of_false (mt resolveImports_error_iff.mp untaken)
      rintro ⟨imported, member, none⟩
      cases matched : exportMatch values exports imported with
      | error error => exact untaken ⟨imported, member, exportMatch_error_iff.mp ⟨error, matched⟩⟩
      | ok entry =>
          exact none entry (exportMatch_eq_ok_iff.mp matched).mem
            (firstExports imported member entry matched)

end All

/-- Imports are resolved to exports of their signature and name when no export of another name
is taken for the first one. -/
theorem imports_resolved_iff (values : StringValues) (exports : List ExportFunction)
    (imports : List ImportFunction) :
    ImportsResolved values exports imports ↔ Unmistaken values exports imports :=
  ⟨unmistaken_of_resolved, resolved_of_unmistaken⟩

/-- U+0101 and U+0201. -/
def twoNames : StringValues
  | 0 => oneRune 0x101 (by decide)
  | _ + 1 => oneRune 0x201 (by decide)

/-- The second name is resolved to an export of the first name. -/
theorem import_mistaken : ¬ ImportsResolved twoNames [⟨0, 0, 7, 0⟩] [⟨7, 1⟩] := by
  intro law
  have resolved : resolveImports twoNames [⟨0, 0, 7, 0⟩] [⟨7, 1⟩] = .ok [⟨0, 0⟩] := by decide
  obtain ⟨entry, member, -, same, -⟩ := (law.resolved _ resolved).2 0 ⟨7, 1⟩ rfl
  obtain rfl := List.mem_singleton.mp member
  exact absurd same.2 (by decide)

end Disvm.ImportResolution
