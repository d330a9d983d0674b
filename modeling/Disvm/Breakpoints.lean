import Disvm.TransitionRuns
import Mathlib.Algebra.Order.Ring.Int

/-!
# Breakpoints

`set_breakpoint` patches the code of a module, which all workers share, and keeps
the opcode that was there.  It reads this opcode before it takes the lock.  A
worker that has fetched the breakpoint opcode asks for the kept one when it
executes the instruction, at which time it may be gone.
-/

namespace Disvm.Breakpoints

/-- The opcodes; `runt` does nothing. -/
inductive Opcode where
  | runt
  | brkpt
  | other (code : ℕ)
  deriving DecidableEq, Repr

/-- What breakpoints use of a module as it was loaded. -/
structure VmModule where
  builtin : Bool
  codeSection : List Opcode

structure Location where
  module : ℕ
  pc : ℤ
  deriving DecidableEq, Repr

/-- `breakpoint_details_t`. -/
structure BreakpointDetails where
  location : Location
  originalOpcode : Opcode
  deriving DecidableEq, Repr

inductive VmSystemException where
  | unableToSetBreakpoint
  | invalidPc
  | unknownCookie
  deriving DecidableEq, Repr

/-- A call of `set_breakpoint` that has ended: the cookie of the location when the
call took the lock, and the location whose opcode it has written. -/
structure SetCall where
  location : Location
  earlier : Option ℕ
  result : Except VmSystemException ℕ
  written : Option Location

/-- An instruction that a worker has executed, with the opcode of the handler that
ran; none when the breakpoint threw. -/
structure Execution where
  location : Location
  opcode : Option Opcode
  deriving DecidableEq, Repr

/-- Modules are shared by their pointers; `loaded` is what they were. -/
structure State where
  loaded : ℕ → VmModule
  code : ℕ → List Opcode
  cookieCounter : ℕ
  details : ℕ → Option BreakpointDetails
  originalOpcodes : Location → Option (Opcode × ℕ)
  /-- Callers that have read the opcode and wait for the lock. -/
  pending : ℕ → Option BreakpointDetails
  fetched : ℕ → Option (Location × Opcode)
  setCalls : List SetCall
  executions : List Execution
  assertionFailed : Bool

/-- The opcode at a location inside the code. -/
def opcodeAt (code : ℕ → List Opcode) (location : Location) : Option Opcode :=
  if 0 ≤ location.pc then (code location.module)[location.pc.toNat]? else none

/-- Writes outside the code do not change it. -/
def writeOpcode (code : ℕ → List Opcode) (location : Location) (opcode : Opcode) :
    ℕ → List Opcode :=
  if 0 ≤ location.pc then
    Function.update code location.module
      ((code location.module).set location.pc.toNat opcode)
  else code

namespace State

def loadedCode (state : State) (module : ℕ) : List Opcode :=
  (state.loaded module).codeSection

/-- The call throws before it takes the lock. -/
def refuse (state : State) (location : Location) (exception : VmSystemException) : State :=
  { state with
    setCalls := { location := location, earlier := none, result := .error exception,
                  written := none } :: state.setCalls }

/-- `set_breakpoint` up to the lock.  A pc below zero passes the check; `outside` is
then what is read from the memory before the code. -/
def readOpcode (state : State) (caller : ℕ) (module : Option ℕ) (pc : ℤ) (outside : Opcode) :
    State :=
  match module with
  | none => state.refuse ⟨0, pc⟩ .unableToSetBreakpoint
  | some module =>
      let location : Location := ⟨module, pc⟩
      if (state.loaded module).builtin then state.refuse location .unableToSetBreakpoint
      else if (state.code module).length ≤ pc then state.refuse location .invalidPc
      else
        let realOpcode := (opcodeAt state.code location).getD outside
        { state with
          pending := Function.update state.pending caller (some ⟨location, realOpcode⟩) }

/-- The cookie and the opcode that are known for a location. -/
def knownBreakpoint (state : State) (read : BreakpointDetails) : Option (Opcode × ℕ) :=
  if read.originalOpcode = .brkpt then state.originalOpcodes read.location else none

/-- `set_breakpoint` under the lock. -/
def enterBreakpoint (state : State) (caller : ℕ) : Option State :=
  (state.pending caller).map fun read =>
    let earlier := (state.originalOpcodes read.location).map Prod.snd
    let pending := Function.update state.pending caller none
    match state.knownBreakpoint read with
    | some (_, cookieId) =>
        { state with
          pending := pending
          setCalls := { location := read.location, earlier := earlier, result := .ok cookieId,
                        written := none } :: state.setCalls }
    | none =>
        let cookieId := state.cookieCounter
        { state with
          code := writeOpcode state.code read.location .brkpt
          cookieCounter := cookieId + 1
          details := Function.update state.details cookieId (some read)
          originalOpcodes := Function.update state.originalOpcodes read.location
            (some (read.originalOpcode, cookieId))
          pending := pending
          setCalls := { location := read.location, earlier := earlier, result := .ok cookieId,
                        written := some read.location } :: state.setCalls }

/-- `clear_breakpoint`; it throws when the cookie is not known. -/
def clearBreakpoint (state : State) (cookieId : ℕ) : State :=
  match state.details cookieId with
  | none => state
  | some details =>
      match state.originalOpcodes details.location with
      | none => { state with assertionFailed := true }
      | some (originalOpcode, _) =>
          { state with
            code := writeOpcode state.code details.location originalOpcode
            originalOpcodes := Function.update state.originalOpcodes details.location none
            details := Function.update state.details cookieId none
            assertionFailed := state.assertionFailed ||
              decide (opcodeAt state.code details.location ≠ some .brkpt) }

/-- A worker reads the opcode of its next instruction, which is in the code of a
module that is not built in. -/
def fetch (state : State) (worker : ℕ) (location : Location) : Option State :=
  match state.fetched worker with
  | some _ => none
  | none =>
      if (state.loaded location.module).builtin then none
      else (opcodeAt state.code location).map fun opcode =>
        { state with fetched := Function.update state.fetched worker (some (location, opcode)) }

def execute (state : State) (worker : ℕ) (location : Location) (opcode : Option Opcode) : State :=
  { state with
    fetched := Function.update state.fetched worker none
    executions := ⟨location, opcode⟩ :: state.executions }

/-- The handler of the fetched opcode.  That of a breakpoint throws without a tool
dispatch and goes on with the original opcode otherwise, which is `runt` when it is
not known; when it is a breakpoint again the handler calls itself. -/
def dispatch (state : State) (worker : ℕ) (toolDispatch : Bool) : Option State :=
  (state.fetched worker).map fun (location, opcode) =>
    if opcode = .brkpt then
      if toolDispatch then
        match state.originalOpcodes location with
        | none => state.execute worker location (some .runt)
        | some (originalOp, _) =>
            if originalOp = .brkpt then state
            else state.execute worker location (some originalOp)
      else state.execute worker location none
    else state.execute worker location (some opcode)

inductive Action where
  | readOpcode (caller : ℕ) (module : Option ℕ) (pc : ℤ) (outside : Opcode)
  | enterBreakpoint (caller : ℕ)
  | clearBreakpoint (cookieId : ℕ)
  | fetch (worker : ℕ) (location : Location)
  | dispatch (worker : ℕ) (toolDispatch : Bool)
  deriving DecidableEq, Repr

def step (state : State) : Action → Option State
  | .readOpcode caller module pc outside =>
      if state.pending caller = none then some (state.readOpcode caller module pc outside) else none
  | .enterBreakpoint caller => state.enterBreakpoint caller
  | .clearBreakpoint cookieId => some (state.clearBreakpoint cookieId)
  | .fetch worker location => state.fetch worker location
  | .dispatch worker toolDispatch => state.dispatch worker toolDispatch

def start (loaded : ℕ → VmModule) : State where
  loaded := loaded
  code module := (loaded module).codeSection
  cookieCounter := 1
  details _ := none
  originalOpcodes _ := none
  pending _ := none
  fetched _ := none
  setCalls := []
  executions := []
  assertionFailed := false

def Initial (state : State) : Prop :=
  ∃ loaded, state = start loaded

/-- Breakpoints that are set do not change what is executed. -/
structure Transparent (state : State) : Prop where
  refused : ∀ call ∈ state.setCalls, ∀ exception, call.result = .error exception →
    call.written = none
  inside : ∀ call ∈ state.setCalls, ∀ cookieId, call.result = .ok cookieId →
    0 ≤ call.location.pc ∧
      call.location.pc < (state.loadedCode call.location.module).length
  same : ∀ call ∈ state.setCalls, ∀ cookieId, call.earlier = some cookieId →
    call.result = .ok cookieId
  executes : ∀ execution ∈ state.executions,
    execution.opcode = opcodeAt state.loadedCode execution.location ∧ execution.opcode ≠ none
  restored : (∀ cookieId, state.details cookieId = none) → state.code = state.loadedCode
  asserted : state.assertionFailed = false

/-- The pc of a breakpoint is not below zero, the opcode that was read for it is still
there under the lock, no instruction that is a breakpoint as loaded is fetched, and a
breakpoint that was fetched is set, and the thread has a tool dispatch, when it is
executed. -/
def Permitted (state : State) : Action → Prop
  | .readOpcode _ module pc _ =>
      ∀ target ∈ module, (state.loaded target).builtin = false → 0 ≤ pc
  | .enterBreakpoint caller =>
      ∀ read ∈ state.pending caller,
        opcodeAt state.code read.location = some read.originalOpcode
  | .clearBreakpoint _ => True
  | .fetch _ location => opcodeAt state.loadedCode location ≠ some .brkpt
  | .dispatch worker toolDispatch =>
      ∀ location, state.fetched worker = some (location, .brkpt) →
        toolDispatch = true ∧ state.originalOpcodes location ≠ none

/-- The states of runs of permitted steps. -/
def Reached : State → Prop :=
  Transition.Reachable Initial (Transition.StepsBy Permitted step)

end State

section Code

variable {code : ℕ → List Opcode} {location other : Location} {opcode : Opcode}

theorem opcodeAt_eq_some (found : opcodeAt code location = some opcode) :
    0 ≤ location.pc ∧ location.pc < (code location.module).length := by
  unfold opcodeAt at found
  split_ifs at found with low
  obtain ⟨high, -⟩ := List.getElem?_eq_some_iff.mp found
  exact ⟨low, by omega⟩

theorem length_writeOpcode (module : ℕ) :
    (writeOpcode code location opcode module).length = (code module).length := by
  unfold writeOpcode
  split_ifs
  · by_cases same : module = location.module
    · subst same
      rw [Function.update_self, List.length_set]
    · rw [Function.update_of_ne same]
  · rfl

theorem opcodeAt_write_self {before : Opcode} (inside : opcodeAt code location = some before) :
    opcodeAt (writeOpcode code location opcode) location = some opcode := by
  obtain ⟨low, high⟩ := opcodeAt_eq_some inside
  unfold opcodeAt writeOpcode
  rw [if_pos low, if_pos low, Function.update_self, List.getElem?_set_self (by omega)]

theorem opcodeAt_write_of_ne (different : other ≠ location) :
    opcodeAt (writeOpcode code location opcode) other = opcodeAt code other := by
  unfold opcodeAt writeOpcode
  split_ifs with otherLow low
  · by_cases same : other.module = location.module
    · have place : location.pc.toNat ≠ other.pc.toNat := fun samePlace => different (by
        cases other
        cases location
        congr
        dsimp only at *
        omega)
      rw [same, Function.update_self, List.getElem?_set_ne place]
    · rw [Function.update_of_ne same]
  · rfl
  · rfl

/-- Code with the same opcodes is the same. -/
theorem code_ext {otherCode : ℕ → List Opcode}
    (same : ∀ location, opcodeAt code location = opcodeAt otherCode location) :
    code = otherCode := by
  funext module
  apply List.ext_getElem?
  intro index
  have here := same ⟨module, index⟩
  unfold opcodeAt at here
  rwa [if_pos (Int.natCast_nonneg index), if_pos (Int.natCast_nonneg index)] at here

end Code

namespace State

variable {state after : State}

/-- The opcodes that are kept are those of the modules as loaded, where there is a
breakpoint; everything else is as it was loaded. -/
structure Coherent (state : State) : Prop where
  size : ∀ module, (state.code module).length = (state.loadedCode module).length
  set : ∀ location opcode cookieId, state.originalOpcodes location = some (opcode, cookieId) →
    opcodeAt state.code location = some .brkpt ∧
      opcodeAt state.loadedCode location = some opcode ∧
      state.details cookieId = some ⟨location, opcode⟩
  unset : ∀ location, state.originalOpcodes location = none →
    opcodeAt state.code location = opcodeAt state.loadedCode location
  known : ∀ cookieId details, state.details cookieId = some details →
    state.originalOpcodes details.location = some (details.originalOpcode, cookieId) ∧
      cookieId < state.cookieCounter
  pending : ∀ caller read, state.pending caller = some read →
    0 ≤ read.location.pc ∧ read.location.pc < (state.loadedCode read.location.module).length
  fetched : ∀ worker location opcode, state.fetched worker = some (location, opcode) →
    ∃ original, opcodeAt state.loadedCode location = some original ∧ original ≠ .brkpt ∧
      (opcode = original ∨ opcode = .brkpt)
  refused : ∀ call ∈ state.setCalls, ∀ exception, call.result = .error exception →
    call.written = none
  inside : ∀ call ∈ state.setCalls, ∀ cookieId, call.result = .ok cookieId →
    0 ≤ call.location.pc ∧
      call.location.pc < (state.loadedCode call.location.module).length
  same : ∀ call ∈ state.setCalls, ∀ cookieId, call.earlier = some cookieId →
    call.result = .ok cookieId
  executes : ∀ execution ∈ state.executions,
    execution.opcode = opcodeAt state.loadedCode execution.location ∧ execution.opcode ≠ none
  asserted : state.assertionFailed = false

theorem coherent_start (loaded : ℕ → VmModule) : Coherent (start loaded) where
  size _ := rfl
  set _ _ _ known := by cases known
  unset _ _ := rfl
  known _ _ known := by cases known
  pending _ _ isPending := by cases isPending
  fetched _ _ _ isFetched := by cases isFetched
  refused _ member := by cases member
  inside _ member := by cases member
  same _ member := by cases member
  executes _ member := by cases member
  asserted := rfl

theorem Coherent.transparent (coherent : Coherent state) : Transparent state where
  refused := coherent.refused
  inside := coherent.inside
  same := coherent.same
  executes := coherent.executes
  restored := by
    intro cleared
    apply code_ext
    intro location
    apply coherent.unset
    cases isKnown : state.originalOpcodes location with
    | none => rfl
    | some kept =>
        have isDetails := (coherent.set location kept.1 kept.2 isKnown).2.2
        rw [cleared] at isDetails
        cases isDetails
  asserted := coherent.asserted

/-- A call that has ended without a change. -/
theorem Coherent.call (coherent : Coherent state) {call : SetCall} {pending}
    (isPending : ∀ caller read, pending caller = some read → state.pending caller = some read)
    (refused : ∀ exception, call.result = .error exception → call.written = none)
    (inside : ∀ cookieId, call.result = .ok cookieId → 0 ≤ call.location.pc ∧
      call.location.pc < (state.loadedCode call.location.module).length)
    (same : ∀ cookieId, call.earlier = some cookieId → call.result = .ok cookieId) :
    Coherent { state with pending := pending, setCalls := call :: state.setCalls } :=
  { coherent with
    pending := fun caller read found => coherent.pending caller read (isPending caller read found)
    refused := List.forall_mem_cons.mpr ⟨refused, coherent.refused⟩
    inside := List.forall_mem_cons.mpr ⟨inside, coherent.inside⟩
    same := List.forall_mem_cons.mpr ⟨same, coherent.same⟩ }

theorem Coherent.refuse (coherent : Coherent state) (location : Location)
    (exception : VmSystemException) : Coherent (state.refuse location exception) :=
  coherent.call (fun _ _ found => found) (fun _ _ => rfl) (fun _ isOk => by cases isOk)
    (fun _ isSome => by cases isSome)

theorem coherent_readOpcode (coherent : Coherent state) {caller : ℕ} {module : Option ℕ} {pc : ℤ}
    {outside : Opcode} (permitted : Permitted state (.readOpcode caller module pc outside)) :
    Coherent (state.readOpcode caller module pc outside) := by
  cases module with
  | none => exact coherent.refuse _ _
  | some module =>
      unfold readOpcode
      dsimp only
      split_ifs with builtin beyond
      · exact coherent.refuse _ _
      · exact coherent.refuse _ _
      · have low := permitted module rfl (by simpa using builtin)
        refine { coherent with pending := fun other read found => ?_ }
        dsimp only at found
        by_cases same : other = caller
        · subst same
          rw [Function.update_self] at found
          cases found
          refine ⟨low, ?_⟩
          show pc < ((state.loadedCode module).length : ℤ)
          rw [← coherent.size module]
          omega
        · rw [Function.update_of_ne same] at found
          exact coherent.pending other read found

theorem pending_update_none {caller other : ℕ} {read : BreakpointDetails}
    (found : Function.update state.pending caller none other = some read) :
    state.pending other = some read := by
  by_cases same : other = caller
  · subst same
    rw [Function.update_self] at found
    cases found
  · rwa [Function.update_of_ne same] at found

/-- A location whose opcode has been read and is still there has no breakpoint that
the call would not find. -/
theorem Coherent.unknown_unset (coherent : Coherent state) {read : BreakpointDetails}
    (unchanged : opcodeAt state.code read.location = some read.originalOpcode)
    (unknown : state.knownBreakpoint read = none) :
    state.originalOpcodes read.location = none := by
  by_contra isSet
  obtain ⟨⟨opcode, cookieId⟩, isKnown⟩ := Option.ne_none_iff_exists'.mp isSet
  have isBreakpoint := (coherent.set _ _ _ isKnown).1
  rw [unchanged] at isBreakpoint
  rw [knownBreakpoint, if_pos (Option.some.inj isBreakpoint), isKnown] at unknown
  cases unknown

theorem coherent_enterBreakpoint (coherent : Coherent state) {caller : ℕ}
    (permitted : Permitted state (.enterBreakpoint caller))
    (entered : state.enterBreakpoint caller = some after) : Coherent after := by
  unfold enterBreakpoint at entered
  obtain ⟨read, isPending, isAfter⟩ := Option.map_eq_some_iff.mp entered
  have unchanged := permitted read isPending
  have inside := coherent.pending caller read isPending
  dsimp only at isAfter
  cases isKnown : state.knownBreakpoint read with
  | some kept =>
      obtain ⟨opcode, cookieId⟩ := kept
      rw [isKnown] at isAfter
      subst isAfter
      have isSet : state.originalOpcodes read.location = some (opcode, cookieId) := by
        unfold knownBreakpoint at isKnown
        split_ifs at isKnown
        exact isKnown
      refine coherent.call (fun _ _ => pending_update_none) (fun _ isError => by cases isError)
        (fun _ _ => inside) fun other isEarlier => ?_
      dsimp only at isEarlier
      rw [isSet] at isEarlier
      cases isEarlier
      rfl
  | none =>
      rw [isKnown] at isAfter
      subst isAfter
      have isUnset := coherent.unknown_unset unchanged isKnown
      constructor
      · intro module
        rw [length_writeOpcode]
        exact coherent.size module
      · intro location opcode cookieId found
        dsimp only at found ⊢
        by_cases here : location = read.location
        · subst here
          rw [Function.update_self] at found
          cases found
          refine ⟨opcodeAt_write_self unchanged, ?_, Function.update_self _ _ _⟩
          exact (coherent.unset _ isUnset).symm.trans unchanged
        · rw [Function.update_of_ne here] at found
          obtain ⟨isBreakpoint, isLoaded, isDetails⟩ := coherent.set _ _ _ found
          refine ⟨(opcodeAt_write_of_ne here).trans isBreakpoint, isLoaded, ?_⟩
          rw [Function.update_of_ne (coherent.known _ _ isDetails).2.ne, isDetails]
      · intro location found
        dsimp only at found ⊢
        by_cases here : location = read.location
        · subst here
          rw [Function.update_self] at found
          cases found
        · rw [Function.update_of_ne here] at found
          exact (opcodeAt_write_of_ne here).trans (coherent.unset _ found)
      · intro cookieId details found
        dsimp only at found ⊢
        by_cases new : cookieId = state.cookieCounter
        · subst new
          rw [Function.update_self] at found
          cases found
          exact ⟨Function.update_self _ _ _, Nat.lt_succ_self _⟩
        · rw [Function.update_of_ne new] at found
          obtain ⟨isKnown, isOld⟩ := coherent.known _ _ found
          have elsewhere : details.location ≠ read.location := fun here => by
            rw [here, isUnset] at isKnown
            cases isKnown
          rw [Function.update_of_ne elsewhere]
          exact ⟨isKnown, Nat.lt_succ_of_lt isOld⟩
      · exact fun other read found => coherent.pending other read (pending_update_none found)
      · exact coherent.fetched
      · exact List.forall_mem_cons.mpr ⟨(fun _ isError => by cases isError), coherent.refused⟩
      · exact List.forall_mem_cons.mpr ⟨fun _ _ => inside, coherent.inside⟩
      · refine List.forall_mem_cons.mpr ⟨fun cookieId isEarlier => ?_, coherent.same⟩
        dsimp only at isEarlier
        rw [isUnset] at isEarlier
        cases isEarlier
      · exact coherent.executes
      · exact coherent.asserted

theorem coherent_clearBreakpoint (coherent : Coherent state) (cookieId : ℕ) :
    Coherent (state.clearBreakpoint cookieId) := by
  unfold clearBreakpoint
  cases isDetails : state.details cookieId with
  | none => exact coherent
  | some details =>
      have isKnown := (coherent.known _ _ isDetails).1
      obtain ⟨isBreakpoint, isLoaded, -⟩ := coherent.set _ _ _ isKnown
      dsimp only
      rw [isKnown]
      constructor
      · intro module
        rw [length_writeOpcode]
        exact coherent.size module
      · intro location opcode other found
        dsimp only at found ⊢
        by_cases here : location = details.location
        · subst here
          rw [Function.update_self] at found
          cases found
        · rw [Function.update_of_ne here] at found
          obtain ⟨isSet, isOriginal, otherDetails⟩ := coherent.set _ _ _ found
          refine ⟨(opcodeAt_write_of_ne here).trans isSet, isOriginal, ?_⟩
          have different : other ≠ cookieId := fun same => by
            subst same
            cases isDetails.symm.trans otherDetails
            exact here rfl
          rw [Function.update_of_ne different, otherDetails]
      · intro location found
        dsimp only at found ⊢
        by_cases here : location = details.location
        · subst here
          exact (opcodeAt_write_self isBreakpoint).trans isLoaded.symm
        · rw [Function.update_of_ne here] at found
          exact (opcodeAt_write_of_ne here).trans (coherent.unset _ found)
      · intro other otherDetails found
        dsimp only at found ⊢
        by_cases same : other = cookieId
        · subst same
          rw [Function.update_self] at found
          cases found
        · rw [Function.update_of_ne same] at found
          obtain ⟨otherKnown, isOld⟩ := coherent.known _ _ found
          have elsewhere : otherDetails.location ≠ details.location := fun here => by
            rw [here, isKnown] at otherKnown
            exact same (congrArg Prod.snd (Option.some.inj otherKnown)).symm
          rw [Function.update_of_ne elsewhere]
          exact ⟨otherKnown, isOld⟩
      · exact coherent.pending
      · exact coherent.fetched
      · exact coherent.refused
      · exact coherent.inside
      · exact coherent.same
      · exact coherent.executes
      · show (state.assertionFailed || decide _) = false
        rw [coherent.asserted, isBreakpoint]
        rfl

/-- A worker fetches the opcode as loaded or a breakpoint. -/
theorem coherent_fetch (coherent : Coherent state) {worker : ℕ} {location : Location}
    (permitted : Permitted state (.fetch worker location))
    (fetched : state.fetch worker location = some after) : Coherent after := by
  unfold fetch at fetched
  split at fetched
  next => cases fetched
  next =>
    split_ifs at fetched
    obtain ⟨opcode, isOpcode, rfl⟩ := Option.map_eq_some_iff.mp fetched
    refine { coherent with fetched := fun other place found isFetched => ?_ }
    dsimp only at isFetched
    by_cases same : other = worker
    · subst same
      rw [Function.update_self] at isFetched
      cases isFetched
      cases isKnown : state.originalOpcodes location with
      | none =>
          have isLoaded := (coherent.unset _ isKnown).symm.trans isOpcode
          exact ⟨opcode, isLoaded, fun isBreakpoint => permitted (isBreakpoint ▸ isLoaded),
            Or.inl rfl⟩
      | some kept =>
          obtain ⟨isBreakpoint, isLoaded, -⟩ := coherent.set location kept.1 kept.2 isKnown
          refine ⟨kept.1, isLoaded, fun isAlso => permitted (isAlso ▸ isLoaded), Or.inr ?_⟩
          exact Option.some.inj (isOpcode.symm.trans isBreakpoint)
    · rw [Function.update_of_ne same] at isFetched
      exact coherent.fetched _ _ _ isFetched

/-- The opcode as loaded is executed. -/
theorem Coherent.execute (coherent : Coherent state) {worker : ℕ} {location : Location}
    {opcode : Opcode} (isLoaded : opcodeAt state.loadedCode location = some opcode) :
    Coherent (state.execute worker location (some opcode)) :=
  { coherent with
    fetched := fun other place found isFetched => by
      apply coherent.fetched other
      dsimp only [State.execute] at isFetched
      by_cases same : other = worker
      · subst same
        rw [Function.update_self] at isFetched
        cases isFetched
      · rwa [Function.update_of_ne same] at isFetched
    executes := by
      refine List.forall_mem_cons.mpr ⟨⟨isLoaded.symm, ?_⟩, coherent.executes⟩
      exact Option.some_ne_none _ }

/-- A fetched instruction executes the opcode as loaded. -/
theorem dispatch_spec (coherent : Coherent state) {worker : ℕ} {toolDispatch : Bool}
    {location : Location} {opcode : Opcode}
    (permitted : Permitted state (.dispatch worker toolDispatch))
    (isFetched : state.fetched worker = some (location, opcode)) :
    ∃ original, opcodeAt state.loadedCode location = some original ∧
      state.dispatch worker toolDispatch =
        some (state.execute worker location (some original)) := by
  obtain ⟨original, isLoaded, notBreakpoint, either⟩ := coherent.fetched _ _ _ isFetched
  refine ⟨original, isLoaded, ?_⟩
  unfold dispatch
  rw [isFetched, Option.map_some]
  refine congrArg some ?_
  dsimp only
  by_cases isBreakpoint : opcode = .brkpt
  · subst isBreakpoint
    obtain ⟨attached, isSet⟩ := permitted location isFetched
    obtain ⟨⟨kept, cookieId⟩, isKnown⟩ := Option.ne_none_iff_exists'.mp isSet
    obtain ⟨-, isKept, -⟩ := coherent.set _ _ _ isKnown
    obtain rfl : kept = original := Option.some.inj (isKept.symm.trans isLoaded)
    rw [if_pos rfl, if_pos attached, isKnown]
    dsimp only
    rw [if_neg notBreakpoint]
  · rw [if_neg isBreakpoint, either.resolve_right isBreakpoint]

theorem coherent_dispatch (coherent : Coherent state) {worker : ℕ} {toolDispatch : Bool}
    (permitted : Permitted state (.dispatch worker toolDispatch))
    (dispatched : state.dispatch worker toolDispatch = some after) : Coherent after := by
  cases isFetched : state.fetched worker with
  | none =>
      rw [dispatch, isFetched] at dispatched
      cases dispatched
  | some waiting =>
      obtain ⟨original, isLoaded, executes⟩ := dispatch_spec coherent permitted isFetched
      cases executes.symm.trans dispatched
      exact coherent.execute isLoaded

theorem coherent_step (coherent : Coherent state) {action : Action}
    (permitted : Permitted state action) (stepped : state.step action = some after) :
    Coherent after := by
  cases action with
  | readOpcode caller module pc outside =>
      unfold step at stepped
      dsimp only at stepped
      split_ifs at stepped
      cases stepped
      exact coherent_readOpcode coherent permitted
  | enterBreakpoint caller => exact coherent_enterBreakpoint coherent permitted stepped
  | clearBreakpoint cookieId =>
      cases stepped
      exact coherent_clearBreakpoint coherent cookieId
  | fetch worker location => exact coherent_fetch coherent permitted stepped
  | dispatch worker toolDispatch => exact coherent_dispatch coherent permitted stepped

theorem coherent_of_reached (reached : Reached state) : Coherent state := by
  refine Transition.Reachable.invariant Coherent ?_ ?_ reached
  · rintro _ ⟨loaded, rfl⟩
    exact coherent_start loaded
  · rintro before after _ coherent ⟨action, permitted, stepped⟩
    exact coherent_step coherent permitted stepped

/-- Breakpoints are transparent in every run of permitted steps, and an instruction
that is executed next executes the opcode as loaded. -/
theorem transparent_of_reached (reached : Reached state) :
    Transparent state ∧ ∀ worker toolDispatch location opcode,
      Permitted state (.dispatch worker toolDispatch) →
        state.fetched worker = some (location, opcode) →
          ∃ original, opcodeAt state.loadedCode location = some original ∧
            state.dispatch worker toolDispatch =
              some (state.execute worker location (some original)) := by
  have coherent := coherent_of_reached reached
  refine ⟨coherent.transparent, ?_⟩
  intro worker toolDispatch location opcode permitted isFetched
  exact dispatch_spec coherent permitted isFetched

/-- One module of two instructions. -/
def twoInstructions : ℕ → VmModule := fun _ =>
  { builtin := false, codeSection := [.other 5, .other 6] }

/-- A breakpoint is set and hit. -/
theorem transparent_hit : ∃ state : State,
    state.executions = [⟨⟨0, 1⟩, some (.other 6)⟩] ∧ Transparent state := by
  let opened := (start twoInstructions).readOpcode 0 (some 0) 1 .runt
  let entered := (opened.step (.enterBreakpoint 0)).get (by decide)
  let waiting := (entered.step (.fetch 0 ⟨0, 1⟩)).get (by decide)
  let executed := (waiting.step (.dispatch 0 true)).get (by decide)
  have reachedOpened : Reached opened :=
    (Transition.Reachable.start ⟨twoInstructions, rfl⟩).next
      ⟨.readOpcode 0 (some 0) 1 .runt, fun _ _ _ => by decide, rfl⟩
  have reachedEntered : Reached entered := reachedOpened.next
    ⟨.enterBreakpoint 0, fun read isPending => by cases isPending; rfl, (Option.some_get _).symm⟩
  have reachedWaiting : Reached waiting := reachedEntered.next
    ⟨.fetch 0 ⟨0, 1⟩, (by decide : opcodeAt entered.loadedCode ⟨0, 1⟩ ≠ some .brkpt),
      (Option.some_get _).symm⟩
  have reachedExecuted : Reached executed := reachedWaiting.next
    ⟨.dispatch 0 true, fun location isFetched => by cases isFetched; exact ⟨rfl, by decide⟩,
      (Option.some_get _).symm⟩
  exact ⟨executed, rfl, (transparent_of_reached reachedExecuted).1⟩

/-- A breakpoint that is cleared between the fetch and the execution of its
instruction makes it one that does nothing. -/
theorem cleared_after_fetch : ∃ state : State,
    Transition.Reachable Initial (Transition.StepsBy (fun _ _ => True) step) state ∧
      ¬ Transparent state := by
  let actions : List Action := [.readOpcode 0 (some 0) 1 .runt, .enterBreakpoint 0,
    .fetch 0 ⟨0, 1⟩, .clearBreakpoint 1, .dispatch 0 true]
  let last := (Transition.execute step (start twoInstructions) actions).get (by decide)
  have executed : (⟨⟨0, 1⟩, some .runt⟩ : Execution) ∈ last.executions := by decide
  refine ⟨last, ?_, fun transparent => ?_⟩
  · exact Transition.reachable_of_execute (Transition.Reachable.start ⟨twoInstructions, rfl⟩)
      (fun _ _ _ => trivial) (Option.some_get _).symm
  · exact absurd (transparent.executes _ executed).1 (by decide)

end State

end Disvm.Breakpoints
