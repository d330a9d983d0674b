import Disvm.CallDiscipline
import Disvm.StringCases

/-!
# The search for a handler

A raised exception goes to the innermost frame that handles it.  The search walks from the
top frame to its callers, with the module and the pc that each was executing, and compares
the names of the cases as strings are compared.
-/

namespace Disvm.HandlerSearch

open ModuleCalls Strings

/-- `exception_entry_t`; the name of a wildcard is nil. -/
structure ExceptionCase where
  name : Option ℕ
  pc : ℤ
  deriving DecidableEq, Repr

/-- What the search uses of `handler_entry_t`. -/
structure Handler where
  beginPc : ℤ
  endPc : ℤ
  exceptionTable : List ExceptionCase
  deriving DecidableEq, Repr

section Search

variable (values : StringValues) (sections : ℕ → List Handler) (exceptionId : ℕ)

/-- The loop over the cases of a handler. -/
def searchTable : List ExceptionCase → Option ℤ
  | [] => none
  | exception :: rest =>
      if compare values (some exceptionId) exception.name = 0 then some exception.pc
      else if exception.name = none ∧ exception.pc ≠ invalidProgramCounter then
        some exception.pc
      else searchTable rest

/-- The loop over the handlers of a module. -/
def searchSection (currentPc : ℤ) : List Handler → Option (Handler × ℤ)
  | [] => none
  | handler :: rest =>
      if currentPc < handler.beginPc ∨ handler.endPc ≤ currentPc then
        searchSection currentPc rest
      else
        match searchTable values exceptionId handler.exceptionTable with
        | some pc => some (handler, pc)
        | none => searchSection currentPc rest

/-- `find_exception_handler`, with the handler sections of the modules. -/
def findExceptionHandler : ℕ → ℤ → List Frame → Option (Handler × ℕ × ℤ)
  | _, _, [] => none
  | currentModule, currentPc, frame :: rest =>
      match searchSection values exceptionId currentPc (sections currentModule) with
      | some (handler, pc) => some (handler, frame.address, pc)
      | none =>
          if frame.prevFrame.isSome then
            findExceptionHandler (frame.prevModuleRef.getD currentModule) (frame.prevPc - 1) rest
          else none

end Search

/-- A frame with the module and the instruction that it is executing. -/
structure Activation where
  frame : ℕ
  moduleRef : ℕ
  pc : ℤ
  deriving DecidableEq, Repr

/-- The frames of a stack, as `call` and `mcall` link them, with what each is executing. -/
inductive Executing : ℕ → ℤ → List Frame → List Activation → Prop
  | empty (moduleRef : ℕ) (pc : ℤ) : Executing moduleRef pc [] []
  | first (moduleRef : ℕ) (pc : ℤ) {frame : Frame} (prevFrame : frame.prevFrame = none) :
      Executing moduleRef pc [frame] [⟨frame.address, moduleRef, pc⟩]
  | called {moduleRef callerRef : ℕ} {callerPc : ℤ} (pc : ℤ) {callee caller : Frame}
      {frames : List Frame} {activations : List Activation}
      (prevFrame : callee.prevFrame = some caller.address)
      (prevPc : callee.prevPc = callerPc + 1)
      (prevModuleRef : callee.prevModuleRef = some callerRef ∨
        (callee.prevModuleRef = none ∧ callerRef = moduleRef))
      (below : Executing callerRef callerPc (caller :: frames) activations) :
      Executing moduleRef pc (callee :: caller :: frames)
        (⟨callee.address, moduleRef, pc⟩ :: activations)

/-- What the records of the calls say that the frames execute. -/
def recorded (frames : List Frame) (moduleRef : ℕ) (pc : ℤ) (suspended : List Suspension) :
    List Activation :=
  match frames with
  | [] => []
  | frame :: _ => ⟨frame.address, moduleRef, pc⟩ ::
      suspended.map fun record => ⟨record.frame, record.moduleRef, record.nextPc - 1⟩

/-- In a run the stack is that of the calls that were made. -/
theorem executing_of_chained {moduleRef : ℕ} {mpBase : Option ℕ} {frames : List Frame}
    {suspended : List Suspension} (chained : Chained moduleRef mpBase frames suspended)
    (pc : ℤ) : Executing moduleRef pc frames (recorded frames moduleRef pc suspended) := by
  induction chained generalizing pc with
  | empty moduleRef mpBase => exact Executing.empty moduleRef pc
  | first moduleRef mpBase address prevFrame prevModuleRef =>
      exact Executing.first moduleRef pc prevFrame
  | @called moduleRef mpBase callee caller frames record earlier address records same below ih =>
      have isBelow := ih (record.nextPc - 1)
      rw [recorded] at isBelow
      rw [recorded, List.map_cons, records.frame]
      apply Executing.called pc records.prevFrame _ _ isBelow
      · rw [sub_add_cancel, records.nextPc]
      · rw [records.prevModuleRef]
        cases isCrossed : record.crossed with
        | true => exact Or.inl rfl
        | false => exact Or.inr ⟨rfl, (same isCrossed).1⟩

def Handler.Covers (handler : Handler) (pc : ℤ) : Prop :=
  handler.beginPc ≤ pc ∧ pc < handler.endPc

instance (handler : Handler) (pc : ℤ) : Decidable (handler.Covers pc) :=
  inferInstanceAs (Decidable (_ ∧ _))

section Matches

variable (sections : ℕ → List Handler) (accepts : ExceptionCase → Bool)

/-- The first accepted case of a handler that covers the pc. -/
def inHandler (pc : ℤ) (handler : Handler) : Option (Handler × ℤ) :=
  if handler.Covers pc then
    (handler.exceptionTable.find? accepts).map fun exception => (handler, exception.pc)
  else none

/-- The first such handler of the module that a frame executes. -/
def inFrame (activation : Activation) : Option (Handler × ℕ × ℤ) :=
  ((sections activation.moduleRef).findSome? (inHandler accepts activation.pc)).map
    fun (handler, pc) => (handler, activation.frame, pc)

/-- The innermost frame that has one. -/
def innermost (activations : List Activation) : Option (Handler × ℕ × ℤ) :=
  activations.findSome? (inFrame sections accepts)

/-- A case that the search can come to. -/
structure Candidate where
  handler : Handler
  frame : ℕ
  exception : ExceptionCase
  deriving DecidableEq, Repr

def Candidate.result (candidate : Candidate) : Handler × ℕ × ℤ :=
  (candidate.handler, candidate.frame, candidate.exception.pc)

/-- The cases of a handler, for a frame. -/
def handlerCandidates (activation : Activation) (handler : Handler) : List Candidate :=
  if handler.Covers activation.pc then
    handler.exceptionTable.map (Candidate.mk handler activation.frame)
  else []

/-- All cases in the order of the search. -/
def candidates (activations : List Activation) : List Candidate :=
  activations.flatMap fun activation =>
    (sections activation.moduleRef).flatMap (handlerCandidates activation)

theorem inHandler_eq (activation : Activation) (handler : Handler) :
    (inHandler accepts activation.pc handler).map
        (fun (handler, pc) => (handler, activation.frame, pc)) =
      ((handlerCandidates activation handler).find? fun candidate =>
        accepts candidate.exception).map Candidate.result := by
  unfold inHandler handlerCandidates
  by_cases covers : handler.Covers activation.pc
  · rw [if_pos covers, if_pos covers, List.find?_map, Option.map_map, Option.map_map]
    rfl
  · rw [if_neg covers, if_neg covers]
    rfl

theorem inFrame_eq (activation : Activation) :
    inFrame sections accepts activation =
      (((sections activation.moduleRef).flatMap (handlerCandidates activation)).find?
        fun candidate => accepts candidate.exception).map Candidate.result := by
  unfold inFrame
  rw [List.find?_flatMap, List.map_findSome?, List.map_findSome?]
  exact congrArg (fun search => List.findSome? search _)
    (funext fun handler => inHandler_eq accepts activation handler)

theorem innermost_eq (activations : List Activation) :
    innermost sections accepts activations =
      ((candidates sections activations).find? fun candidate =>
        accepts candidate.exception).map Candidate.result := by
  unfold innermost candidates
  rw [List.find?_flatMap, List.map_findSome?]
  exact congrArg (fun search => List.findSome? search _)
    (funext fun activation => inFrame_eq sections accepts activation)

/-- The search that is specified fails exactly when no frame has an accepted case. -/
theorem innermost_eq_none_iff (activations : List Activation) :
    innermost sections accepts activations = none ↔
      ∀ activation ∈ activations, ∀ handler ∈ sections activation.moduleRef,
        handler.Covers activation.pc →
          ∀ exception ∈ handler.exceptionTable, ¬ accepts exception := by
  unfold innermost inFrame
  simp only [List.findSome?_eq_none_iff, Option.map_eq_none_iff]
  apply forall₂_congr
  intro activation _
  apply forall₂_congr
  intro handler _
  unfold inHandler
  by_cases covers : handler.Covers activation.pc
  · rw [if_pos covers, Option.map_eq_none_iff, List.find?_eq_none]
    exact ⟨fun none _ => none, fun none => none covers⟩
  · rw [if_neg covers]
    exact iff_of_true rfl fun isCovered => absurd isCovered covers

end Matches

section Accepted

variable (values : StringValues) (exceptionId : ℕ)

/-- The tests of the search on a case. -/
def isTaken (exception : ExceptionCase) : Bool :=
  compare values (some exceptionId) exception.name = 0 ∨
    (exception.name = none ∧ exception.pc ≠ invalidProgramCounter)

/-- The name is the id, or the case is a valid wildcard. -/
def catches (exception : ExceptionCase) : Bool :=
  (exception.name ≠ none ∧ runesAt values exception.name = runesAt values (some exceptionId)) ∨
    (exception.name = none ∧ exception.pc ≠ invalidProgramCounter)

/-- The case is taken for one that catches the exception and does not: the missing wildcard
for an empty id, or a name with the length of the id and with as many equal bytes, both
stored in runes. -/
def IsMistaken (exception : ExceptionCase) : Prop :=
  (exception.name = none ∧ exception.pc = invalidProgramCounter ∧
    runesAt values (some exceptionId) = []) ∨
  (exception.name ≠ none ∧ BothInRunes values (some exceptionId) exception.name ∧
    (stringAt values (some exceptionId)).length = (stringAt values exception.name).length ∧
    SameBytes values (some exceptionId) exception.name
      (stringAt values (some exceptionId)).length ∧
    runesAt values exception.name ≠ runesAt values (some exceptionId))

variable {values exceptionId}

/-- Nothing that catches the exception is passed over. -/
theorem isTaken_iff (exception : ExceptionCase) :
    isTaken values exceptionId exception ↔
      catches values exceptionId exception ∨ IsMistaken values exceptionId exception := by
  unfold isTaken catches IsMistaken
  rw [decide_eq_true_iff, decide_eq_true_iff]
  cases isName : exception.name with
  | none =>
      have notBoth : ¬ BothInRunes values (some exceptionId) none := fun both => both.2 rfl
      have isEmpty : compare values (some exceptionId) none = 0 ↔
          runesAt values (some exceptionId) = [] := by
        rw [compare_eq_zero_iff]
        exact ⟨fun taken => taken.2 notBoth,
          fun empty => ⟨fun both => absurd both notBoth, fun _ => empty⟩⟩
      rw [isEmpty]
      tauto
  | some name =>
      by_cases same : runesAt values (some name) = runesAt values (some exceptionId)
      · simp [same, compare_eq_zero_of_runes same.symm]
      · rw [compare_eq_zero_iff]
        have notSame : runesAt values (some exceptionId) ≠ runesAt values (some name) :=
          fun isSame => same isSame.symm
        unfold TakenForEqual
        simp only [ne_eq, reduceCtorEq, not_false_eq_true, true_and, false_and, or_false, same,
          false_or, and_true, notSame, imp_false, not_not]
        tauto

end Accepted

section Result

variable {values : StringValues} {sections : ℕ → List Handler} {exceptionId : ℕ}

theorem searchTable_eq (table : List ExceptionCase) :
    searchTable values exceptionId table =
      (table.find? (isTaken values exceptionId)).map ExceptionCase.pc := by
  induction table with
  | nil => rfl
  | cons exception rest ih =>
      rw [searchTable, List.find?_cons, isTaken]
      by_cases isSame : compare values (some exceptionId) exception.name = 0
      · rw [if_pos isSame, decide_eq_true (Or.inl isSame)]
        rfl
      · rw [if_neg isSame]
        by_cases isWildcard : exception.name = none ∧ exception.pc ≠ invalidProgramCounter
        · rw [if_pos isWildcard, decide_eq_true (Or.inr isWildcard)]
          rfl
        · rw [if_neg isWildcard, decide_eq_false (not_or.mpr ⟨isSame, isWildcard⟩), ih]

theorem searchSection_eq (pc : ℤ) (handlers : List Handler) :
    searchSection values exceptionId pc handlers =
      handlers.findSome? (inHandler (isTaken values exceptionId) pc) := by
  induction handlers with
  | nil => rfl
  | cons handler rest ih =>
      rw [searchSection, List.findSome?_cons, inHandler, searchTable_eq, ih]
      by_cases covers : handler.Covers pc
      · have inside : ¬ (pc < handler.beginPc ∨ handler.endPc ≤ pc) := by
          have := covers.1
          have := covers.2
          omega
        rw [if_neg inside, if_pos covers]
        cases handler.exceptionTable.find? (isTaken values exceptionId) with
        | none => rfl
        | some exception => rfl
      · have outside : pc < handler.beginPc ∨ handler.endPc ≤ pc := by
          unfold Handler.Covers at covers
          omega
        rw [if_pos outside, if_neg covers]

/-- The search finds the first case that it takes for one that catches the exception. -/
theorem findExceptionHandler_eq {moduleRef : ℕ} {pc : ℤ} {frames : List Frame}
    {activations : List Activation} (executing : Executing moduleRef pc frames activations) :
    findExceptionHandler values sections exceptionId moduleRef pc frames =
      innermost sections (isTaken values exceptionId) activations := by
  induction executing with
  | empty moduleRef pc => rfl
  | @first moduleRef pc frame prevFrame =>
      rw [findExceptionHandler, searchSection_eq, prevFrame, innermost, List.findSome?_cons,
        inFrame]
      cases (sections moduleRef).findSome? (inHandler (isTaken values exceptionId) pc) with
      | none => rfl
      | some found => rfl
  | @called moduleRef callerRef callerPc pc callee caller frames activations prevFrame prevPc
      prevModuleRef below ih =>
      have isCaller : callee.prevModuleRef.getD moduleRef = callerRef := by
        rcases prevModuleRef with isCrossed | ⟨isLocal, sameRef⟩
        · rw [isCrossed, Option.getD_some]
        · rw [isLocal, Option.getD_none, sameRef]
      rw [findExceptionHandler, searchSection_eq, prevFrame, isCaller, prevPc,
        add_sub_cancel_right, ih, innermost, innermost, List.findSome?_cons, inFrame]
      cases (sections moduleRef).findSome? (inHandler (isTaken values exceptionId) pc) with
      | none => rfl
      | some found => rfl

variable (values sections exceptionId)

/-- The first case, in the order of the search, that is mistaken or catches the exception
gives the right result if it is mistaken. -/
def MistakesHarmless (activations : List Activation) : Prop :=
  ∀ before candidate after, candidates sections activations = before ++ candidate :: after →
    IsMistaken values exceptionId candidate.exception →
    ¬ catches values exceptionId candidate.exception →
    (∀ earlier ∈ before, ¬ catches values exceptionId earlier.exception ∧
      ¬ IsMistaken values exceptionId earlier.exception) →
    innermost sections (catches values exceptionId) activations = some candidate.result

variable {values sections exceptionId}

/-- A mistaken case with none before it that is taken is where the search ends. -/
theorem find_mistaken {before after : List Candidate} {candidate : Candidate}
    (mistaken : IsMistaken values exceptionId candidate.exception)
    (untaken : ∀ earlier ∈ before, ¬ catches values exceptionId earlier.exception ∧
      ¬ IsMistaken values exceptionId earlier.exception) :
    ((before ++ candidate :: after).find? fun candidate =>
      isTaken values exceptionId candidate.exception) = some candidate := by
  rw [List.find?_eq_some_iff_append]
  refine ⟨(isTaken_iff candidate.exception).mpr (Or.inr mistaken), before, after, rfl, ?_⟩
  intro earlier isEarlier
  rw [Bool.not_eq_true', Bool.eq_false_iff]
  intro taken
  exact not_or.mpr (untaken earlier isEarlier) ((isTaken_iff earlier.exception).mp taken)

variable (values sections exceptionId)

/-- The search finds the handler of the innermost frame that has one exactly when no case
is mistaken before it, or when it is with the same result. -/
theorem findExceptionHandler_iff {moduleRef : ℕ} {pc : ℤ} {frames : List Frame}
    {activations : List Activation} (executing : Executing moduleRef pc frames activations) :
    findExceptionHandler values sections exceptionId moduleRef pc frames =
        innermost sections (catches values exceptionId) activations ↔
      MistakesHarmless values sections exceptionId activations := by
  rw [findExceptionHandler_eq executing, innermost_eq sections (isTaken values exceptionId)]
  cases found : (candidates sections activations).find? fun candidate =>
      isTaken values exceptionId candidate.exception with
  | none =>
      have untaken := List.find?_eq_none.mp found
      constructor
      · intro _ before candidate after split mistaken _ _
        have member : candidate ∈ candidates sections activations := by
          rw [split]
          exact List.mem_append_right before List.mem_cons_self
        exact absurd ((isTaken_iff candidate.exception).mpr (Or.inr mistaken))
          (untaken candidate member)
      · intro _
        have noneCatches : ((candidates sections activations).find? fun candidate =>
            catches values exceptionId candidate.exception) = none := by
          rw [List.find?_eq_none]
          intro candidate member isCaught
          exact untaken candidate member ((isTaken_iff candidate.exception).mpr (Or.inl isCaught))
        rw [innermost_eq, noneCatches]
  | some selected =>
      obtain ⟨taken, before, after, split, untaken⟩ := List.find?_eq_some_iff_append.mp found
      have beforeUntaken : ∀ earlier ∈ before,
          ¬ catches values exceptionId earlier.exception ∧
            ¬ IsMistaken values exceptionId earlier.exception := by
        intro earlier isEarlier
        have notTaken := untaken earlier isEarlier
        rw [Bool.not_eq_true', Bool.eq_false_iff] at notTaken
        exact not_or.mp fun isTaken => notTaken ((isTaken_iff earlier.exception).mpr isTaken)
      have unique : ∀ before candidate after,
          candidates sections activations = before ++ candidate :: after →
          IsMistaken values exceptionId candidate.exception →
          (∀ earlier ∈ before, ¬ catches values exceptionId earlier.exception ∧
            ¬ IsMistaken values exceptionId earlier.exception) → selected = candidate := by
        intro before candidate after split mistaken untaken
        rw [split] at found
        exact Option.some.inj (found.symm.trans (find_mistaken mistaken untaken))
      by_cases isCaught : catches values exceptionId selected.exception
      · apply iff_of_true
        · have first : ((candidates sections activations).find? fun candidate =>
              catches values exceptionId candidate.exception) = some selected := by
            rw [List.find?_eq_some_iff_append]
            refine ⟨isCaught, before, after, split, fun earlier isEarlier => ?_⟩
            rw [Bool.not_eq_true', Bool.eq_false_iff]
            exact (beforeUntaken earlier isEarlier).1
          rw [innermost_eq, first]
        · intro before candidate after split mistaken notCaught untaken
          rw [unique before candidate after split mistaken untaken] at isCaught
          exact absurd isCaught notCaught
      · have mistaken := ((isTaken_iff selected.exception).mp taken).resolve_left isCaught
        constructor
        · intro isResult before candidate after split mistaken _ untaken
          rw [← isResult, unique before candidate after split mistaken untaken]
          rfl
        · intro harmless
          exact (harmless before selected after split mistaken isCaught beforeUntaken).symm

end Result

/-- A store of empty strings that are not nil. -/
def emptyStrings : StringValues := fun _ =>
  { string := VmString.empty, wellFormed := wellFormed_empty, word := by decide }

def plainFrame (address : ℕ) : Frame :=
  Frame.create address { size := 5, pointers := [], nodup := List.nodup_nil }

/-- A handler with one case, without a wildcard unless it is that case. -/
def handlerOf (exception : ExceptionCase) : Handler where
  beginPc := 0
  endPc := 10
  exceptionTable := [exception]

/-- A frame that the plain frame at 0 has called from module 0. -/
def calledFrame : Frame :=
  { plainFrame 1 with prevPc := 6, prevFrame := some 0, prevModuleRef := some 0 }

/-- Only module 0 has a handler. -/
def firstModule (id : ℕ) : List Handler :=
  if id = 0 then [handlerOf ⟨none, 7⟩] else []

/-- An exception with an empty id is caught by the wildcard of the caller, which is in
another module. -/
theorem caller_handles :
    findExceptionHandler emptyStrings firstModule 3 1 30 [calledFrame, plainFrame 0] =
      innermost firstModule (catches emptyStrings 3) [⟨1, 1, 30⟩, ⟨0, 0, 5⟩] := by
  have below : Executing 0 5 [plainFrame 0] [⟨0, 0, 5⟩] := Executing.first 0 5 rfl
  have executing : Executing 1 30 [calledFrame, plainFrame 0] [⟨1, 1, 30⟩, ⟨0, 0, 5⟩] :=
    Executing.called 30 rfl rfl (Or.inl rfl) below
  apply (findExceptionHandler_iff emptyStrings firstModule 3 executing).mpr
  intro before candidate after split mistaken _ _
  have isOnly : candidate ∈ [(⟨handlerOf ⟨none, 7⟩, 0, ⟨none, 7⟩⟩ : Candidate)] := by
    rw [show [(⟨handlerOf ⟨none, 7⟩, 0, ⟨none, 7⟩⟩ : Candidate)] = before ++ candidate :: after
      from split]
    exact List.mem_append_right before List.mem_cons_self
  obtain rfl := List.mem_singleton.mp isOnly
  rcases mistaken with ⟨_, invalid, _⟩ | ⟨named, _⟩
  · exact absurd invalid (by decide)
  · exact absurd rfl named

/-- Without a wildcard an exception with an empty id is not handled, but the search finds
the missing wildcard and its invalid pc. -/
theorem missing_wildcard_found :
    Executing 0 5 [plainFrame 0] [⟨0, 0, 5⟩] ∧
      findExceptionHandler emptyStrings (fun _ => [handlerOf ⟨none, invalidProgramCounter⟩]) 3
          0 5 [plainFrame 0] ≠
        innermost (fun _ => [handlerOf ⟨none, invalidProgramCounter⟩])
          (catches emptyStrings 3) [⟨0, 0, 5⟩] := by
  constructor
  · exact Executing.first 0 5 rfl
  · decide

end Disvm.HandlerSearch
