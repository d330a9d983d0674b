import Disvm.TransitionRuns
import Mathlib.Data.Finset.Card

/-!
# Tools and the threads that dispatch to them

A thread reports to the tools when its tool dispatch is set.  The threads are
attached when the dispatcher is made, which is once, and detached whenever a
call of `unload_tool` leaves no tool; a thread that is scheduled is attached
when there is a dispatcher.
-/

namespace Disvm.ToolAttachment

/-- How a tool takes part in `load_tool`. -/
inductive Tool where
  | null
  | failing
  | loading
  deriving DecidableEq, Repr

inductive Failure where
  | toolCannotBeNull
  | onLoad
  deriving DecidableEq, Repr

/-- `vm_thread_t`, with whether its tool dispatch is set. -/
structure VmThread where
  id : ℕ
  toolDispatch : Bool
  deriving DecidableEq

/-- `vm_tool_dispatch_t`, by the keys of its tools. -/
structure ToolDispatch where
  tools : Finset ℕ
  deriving DecidableEq

structure Vm where
  toolDispatch : Option ToolDispatch
  toolIdCounter : ℕ
  threads : List VmThread
  /-- Every call of `set_tool_dispatch` has met its assertion. -/
  toggled : Bool
  deriving DecidableEq

namespace VmThread

def setToolDispatch (thread : VmThread) (dispatch : Bool) : VmThread :=
  { thread with toolDispatch := dispatch }

/-- The assertion of `set_tool_dispatch`. -/
def toggles (thread : VmThread) (dispatch : Bool) : Bool :=
  thread.toolDispatch != dispatch

end VmThread

namespace Vm

/-- The tools that are loaded. -/
def tools (vm : Vm) : Finset ℕ :=
  (vm.toolDispatch.map ToolDispatch.tools).getD ∅

def setToolDispatchOnAllThreads (vm : Vm) (dispatch : Bool) : Vm :=
  { vm with
    threads := vm.threads.map fun thread => thread.setToolDispatch dispatch
    toggled := vm.toggled && vm.threads.all fun thread => thread.toggles dispatch }

/-- `vm_tool_dispatch_t::load_tool`. -/
def dispatchLoadTool (vm : Vm) (dispatch : ToolDispatch) (tool : Tool) :
    Vm × Except Failure ℕ :=
  match tool with
  | .null => (vm, .error .toolCannotBeNull)
  | .failing => ({ vm with toolIdCounter := vm.toolIdCounter + 1 }, .error .onLoad)
  | .loading =>
      ({ vm with
          toolDispatch := some { tools := insert vm.toolIdCounter dispatch.tools }
          toolIdCounter := vm.toolIdCounter + 1 }, .ok vm.toolIdCounter)

/-- `vm_t::load_tool`. -/
def loadTool (vm : Vm) (tool : Tool) : Vm × Except Failure ℕ :=
  match vm.toolDispatch with
  | some dispatch => vm.dispatchLoadTool dispatch tool
  | none =>
      let dispatch : ToolDispatch := { tools := ∅ }
      let attached := { vm with toolDispatch := some dispatch }.setToolDispatchOnAllThreads true
      attached.dispatchLoadTool dispatch tool

/-- `vm_t::unload_tool`. -/
def unloadTool (vm : Vm) (toolId : ℕ) : Vm :=
  match vm.toolDispatch with
  | none => vm
  | some dispatch =>
      let remaining := dispatch.tools.erase toolId
      let unloaded := { vm with toolDispatch := some { tools := remaining } }
      if remaining.card = 0 then unloaded.setToolDispatchOnAllThreads false else unloaded

/-- `vm_t::schedule_thread` of a new thread. -/
def scheduleThread (vm : Vm) (id : ℕ) : Vm :=
  let thread : VmThread := { id := id, toolDispatch := false }
  if vm.toolDispatch.isSome then
    { vm with
      threads := thread.setToolDispatch true :: vm.threads
      toggled := vm.toggled && thread.toggles true }
  else { vm with threads := thread :: vm.threads }

inductive Action where
  | loadTool (tool : Tool)
  | unloadTool (toolId : ℕ)
  | scheduleThread (id : ℕ)
  | threadEnd (id : ℕ)
  deriving DecidableEq, Repr

def step (vm : Vm) : Action → Vm
  | .loadTool tool => (vm.loadTool tool).1
  | .unloadTool toolId => vm.unloadTool toolId
  | .scheduleThread id => vm.scheduleThread id
  | .threadEnd id => { vm with threads := vm.threads.filter fun thread => thread.id ≠ id }

/-- A virtual machine before its first thread and tool; the counter of tools is
shared with other ones. -/
def start (toolIdCounter : ℕ) : Vm where
  toolDispatch := none
  toolIdCounter := toolIdCounter
  threads := []
  toggled := true

/-- The threads are attached when there are tools, and no assertion has failed. -/
structure Attached (vm : Vm) : Prop where
  iff_tools : ∀ thread ∈ vm.threads, thread.toolDispatch = true ↔ vm.tools.Nonempty
  toggled : vm.toggled = true

/-- A step keeps the attachment; a load that fails changes no tool and no thread. -/
structure Keeps (vm : Vm) (action : Action) : Prop where
  attached : Attached (vm.step action)
  unchanged : ∀ tool failure, action = .loadTool tool → (vm.loadTool tool).2 = .error failure →
    (vm.step action).tools = vm.tools ∧ (vm.step action).threads = vm.threads

/-- There is a dispatcher without tools. -/
def Idle (vm : Vm) : Prop :=
  vm.toolDispatch = some { tools := ∅ }

/-- The first load is not one that fails; once all tools are unloaded no tool is
loaded or unloaded.  Both only matter when there are threads.  No thread is
scheduled while the dispatcher has no tools. -/
def Permitted (vm : Vm) : Action → Prop
  | .loadTool tool =>
      vm.threads = [] ∨ (vm.toolDispatch = none → tool = .loading) ∧
        (Idle vm → tool ≠ .loading)
  | .unloadTool _ => vm.threads = [] ∨ ¬ Idle vm
  | .scheduleThread _ => ¬ Idle vm
  | .threadEnd _ => True

section Attachment

variable {vm : Vm}

theorem tools_of_none (isNone : vm.toolDispatch = none) : vm.tools = ∅ := by
  rw [tools, isNone]
  rfl

theorem tools_of_some {dispatch : ToolDispatch} (isSome : vm.toolDispatch = some dispatch) :
    vm.tools = dispatch.tools := by
  rw [tools, isSome]
  rfl

theorem idle_iff {dispatch : ToolDispatch} (isSome : vm.toolDispatch = some dispatch) :
    Idle vm ↔ ¬ dispatch.tools.Nonempty := by
  rw [Idle, isSome, Finset.not_nonempty_iff_eq_empty]
  constructor
  · intro same
    rw [Option.some.inj same]
  · intro isEmpty
    rw [← isEmpty]

/-- The threads have all the same dispatch. -/
theorem Attached.all (attached : Attached vm) (dispatch : Bool)
    (isDispatch : dispatch = true ↔ vm.tools.Nonempty) :
    ∀ thread ∈ vm.threads, thread.toolDispatch = dispatch := by
  intro thread member
  rw [Bool.eq_iff_iff, attached.iff_tools thread member, isDispatch]

/-- Threads with the other dispatch are set to one that fits the tools. -/
theorem attached_setAll {dispatch : Bool} (toggled : vm.toggled = true)
    (other : ∀ thread ∈ vm.threads, thread.toolDispatch = !dispatch)
    (fits : dispatch = true ↔ vm.tools.Nonempty) :
    Attached (vm.setToolDispatchOnAllThreads dispatch) where
  iff_tools := by
    intro thread member
    obtain ⟨before, -, rfl⟩ := List.mem_map.mp member
    exact fits
  toggled := by
    refine Bool.and_eq_true_iff.mpr ⟨toggled, List.all_eq_true.mpr fun thread member => ?_⟩
    rw [VmThread.toggles, other thread member]
    cases dispatch <;> rfl

/-- Threads that have a dispatch already fail the assertion. -/
theorem threads_nil_of_toggled {dispatch : Bool}
    (same : ∀ thread ∈ vm.threads, thread.toolDispatch = dispatch)
    (toggled : (vm.setToolDispatchOnAllThreads dispatch).toggled = true) : vm.threads = [] := by
  apply List.eq_nil_iff_forall_not_mem.mpr
  intro thread member
  have toggles := List.all_eq_true.mp (Bool.and_eq_true_iff.mp toggled).2 thread member
  rw [VmThread.toggles, same thread member] at toggles
  cases dispatch <;> cases toggles

/-- Threads whose dispatch does not fit the tools are none. -/
theorem Attached.threads_nil (attached : Attached vm) {dispatch : Bool}
    (same : ∀ thread ∈ vm.threads, thread.toolDispatch = dispatch)
    (unfit : ¬ (dispatch = true ↔ vm.tools.Nonempty)) : vm.threads = [] := by
  apply List.eq_nil_iff_forall_not_mem.mpr
  intro thread member
  apply unfit
  rw [← same thread member]
  exact attached.iff_tools thread member

theorem attached_nil (noThreads : vm.threads = []) (toggled : vm.toggled = true) :
    Attached vm where
  iff_tools thread member := by
    rw [noThreads] at member
    cases member
  toggled := toggled

/-- Loading into a dispatcher that there is. -/
theorem keeps_loadTool_some {dispatch : ToolDispatch} (attached : Attached vm)
    (isSome : vm.toolDispatch = some dispatch) (tool : Tool) :
    Keeps vm (.loadTool tool) ↔ Permitted vm (.loadTool tool) := by
  have isLoad : vm.loadTool tool = vm.dispatchLoadTool dispatch tool := by
    rw [loadTool, isSome]
  have notNone : vm.toolDispatch = none → tool = .loading := fun isNone => by
    rw [isSome] at isNone
    cases isNone
  cases tool with
  | null =>
      refine iff_of_true ⟨?_, fun tool failure same _ => ?_⟩ (Or.inr ⟨notNone, fun _ => by decide⟩)
      · rw [step, isLoad]
        exact attached
      · rw [step, isLoad]
        exact ⟨rfl, rfl⟩
  | failing =>
      refine iff_of_true ⟨?_, fun tool failure same _ => ?_⟩ (Or.inr ⟨notNone, fun _ => by decide⟩)
      · rw [step, isLoad]
        exact ⟨attached.iff_tools, attached.toggled⟩
      · rw [step, isLoad]
        exact ⟨rfl, rfl⟩
  | loading =>
      have loaded : (vm.dispatchLoadTool dispatch .loading).1.tools.Nonempty :=
        ⟨_, Finset.mem_insert_self _ _⟩
      constructor
      · intro keeps
        have after := keeps.attached
        rw [step, isLoad] at after
        by_cases idle : Idle vm
        · refine Or.inl (after.threads_nil (attached.all false ?_) ?_)
          · rw [tools_of_some isSome]
            exact iff_of_false Bool.false_ne_true ((idle_iff isSome).mp idle)
          · exact fun same => Bool.false_ne_true (same.mpr loaded)
        · exact Or.inr ⟨notNone, fun isIdle => absurd isIdle idle⟩
      · intro permitted
        refine ⟨?_, fun tool failure same failed => ?_⟩
        · rw [step, isLoad]
          rcases permitted with noThreads | ⟨-, notIdle⟩
          · exact attached_nil noThreads attached.toggled
          · refine ⟨fun thread member => iff_of_true ?_ loaded, attached.toggled⟩
            refine attached.all true (iff_of_true rfl ?_) thread member
            rw [tools_of_some isSome]
            by_contra noTools
            exact notIdle ((idle_iff isSome).mpr noTools) rfl
        · cases same
          rw [isLoad] at failed
          cases failed

/-- The threads are attached before the first tool is loaded. -/
def attachedFirst (vm : Vm) : Vm :=
  { vm with toolDispatch := some { tools := ∅ } }.setToolDispatchOnAllThreads true

theorem threads_attachedFirst (vm : Vm) : ∀ thread ∈ vm.attachedFirst.threads,
    thread.toolDispatch = true := by
  intro thread member
  obtain ⟨before, -, rfl⟩ := List.mem_map.mp member
  rfl

theorem attachedFirst_nil : vm.attachedFirst.threads = [] ↔ vm.threads = [] :=
  List.map_eq_nil_iff

theorem toggled_attachedFirst (attached : Attached vm) (isNone : vm.toolDispatch = none) :
    vm.attachedFirst.toggled = true := by
  refine Bool.and_eq_true_iff.mpr ⟨attached.toggled, List.all_eq_true.mpr fun thread member => ?_⟩
  have detached := attached.all false (by simp [tools_of_none isNone]) thread member
  rw [VmThread.toggles, detached]
  rfl

/-- A first tool that is not loaded leaves the threads attached. -/
theorem keeps_failed_none (attached : Attached vm) (isNone : vm.toolDispatch = none) {tool : Tool}
    {counter : ℕ} {failure : Failure}
    (failed : vm.loadTool tool =
      ({ vm.attachedFirst with toolIdCounter := counter }, .error failure)) :
    Keeps vm (.loadTool tool) ↔ vm.threads = [] := by
  have noTools : vm.attachedFirst.tools = ∅ := rfl
  have toggled := toggled_attachedFirst attached isNone
  constructor
  · intro keeps
    have after := keeps.attached
    rw [step, failed] at after
    refine attachedFirst_nil.mp (after.threads_nil (threads_attachedFirst vm) ?_)
    exact fun same => Finset.not_nonempty_empty (noTools ▸ same.mp rfl)
  · intro noThreads
    refine ⟨?_, fun tool failure same _ => ?_⟩
    · rw [step, failed]
      exact attached_nil (attachedFirst_nil.mpr noThreads) toggled
    · rw [step, failed, tools_of_none isNone]
      refine ⟨rfl, ?_⟩
      rw [noThreads]
      exact attachedFirst_nil.mpr noThreads

/-- Loading the first tool. -/
theorem keeps_loadTool_none (attached : Attached vm) (isNone : vm.toolDispatch = none)
    (tool : Tool) : Keeps vm (.loadTool tool) ↔ Permitted vm (.loadTool tool) := by
  have notIdle : ¬ Idle vm := fun idle => by
    rw [Idle, isNone] at idle
    cases idle
  have isLoad : vm.loadTool tool = vm.attachedFirst.dispatchLoadTool { tools := ∅ } tool := by
    rw [loadTool, isNone]
    rfl
  cases tool with
  | null =>
      rw [keeps_failed_none attached isNone isLoad]
      exact ⟨Or.inl, fun permitted => permitted.resolve_right fun both => nomatch both.1 isNone⟩
  | failing =>
      rw [keeps_failed_none attached isNone isLoad]
      exact ⟨Or.inl, fun permitted => permitted.resolve_right fun both => nomatch both.1 isNone⟩
  | loading =>
      refine iff_of_true ⟨?_, fun tool failure same failed => ?_⟩
        (Or.inr ⟨fun _ => rfl, fun idle => absurd idle notIdle⟩)
      · rw [step, isLoad]
        refine ⟨fun thread member => iff_of_true ?_ ?_, toggled_attachedFirst attached isNone⟩
        · exact threads_attachedFirst vm thread member
        · exact ⟨_, Finset.mem_insert_self _ _⟩
      · cases same
        rw [isLoad] at failed
        cases failed

theorem keeps_iff_attached {action : Action} (notLoad : ∀ tool, action ≠ .loadTool tool) :
    Keeps vm action ↔ Attached (vm.step action) :=
  ⟨Keeps.attached, fun attached =>
    ⟨attached, fun tool _ isLoad => absurd isLoad (notLoad tool)⟩⟩

theorem keeps_unloadTool (attached : Attached vm) (toolId : ℕ) :
    Keeps vm (.unloadTool toolId) ↔ Permitted vm (.unloadTool toolId) := by
  rw [keeps_iff_attached (fun _ isLoad => by cases isLoad), step, unloadTool]
  cases isDispatch : vm.toolDispatch with
  | none =>
      refine iff_of_true attached (Or.inr fun idle => ?_)
      rw [Idle, isDispatch] at idle
      cases idle
  | some dispatch =>
      have isTools := tools_of_some isDispatch
      dsimp only
      by_cases last : dispatch.tools.erase toolId = ∅
      · rw [if_pos (Finset.card_eq_zero.mpr last)]
        by_cases idle : Idle vm
        · have detached := attached.all false (by
            rw [isTools]
            exact iff_of_false Bool.false_ne_true ((idle_iff isDispatch).mp idle))
          constructor
          · intro after
            exact Or.inl (threads_nil_of_toggled detached after.toggled)
          · intro permitted
            have noThreads := permitted.resolve_right (not_not.mpr idle)
            refine attached_nil ?_ ?_
            · exact List.map_eq_nil_iff.mpr noThreads
            · refine Bool.and_eq_true_iff.mpr ⟨attached.toggled, ?_⟩
              rw [noThreads]
              rfl
        · refine iff_of_true (attached_setAll attached.toggled ?_ ?_) (Or.inr idle)
          · refine attached.all true (iff_of_true rfl ?_)
            rw [isTools]
            by_contra noTools
            exact idle ((idle_iff isDispatch).mpr noTools)
          · refine iff_of_false Bool.false_ne_true ?_
            exact Finset.not_nonempty_iff_eq_empty.mpr last
      · rw [if_neg fun isZero => last (Finset.card_eq_zero.mp isZero)]
        have some : dispatch.tools.Nonempty :=
          (Finset.nonempty_iff_ne_empty.mpr last).mono (Finset.erase_subset _ _)
        refine iff_of_true ⟨fun thread member => ?_, attached.toggled⟩
          (Or.inr fun idle => (idle_iff isDispatch).mp idle some)
        refine iff_of_true ?_ (Finset.nonempty_iff_ne_empty.mpr last)
        exact attached.all true (iff_of_true rfl (isTools ▸ some)) thread member

theorem keeps_scheduleThread (attached : Attached vm) (id : ℕ) :
    Keeps vm (.scheduleThread id) ↔ Permitted vm (.scheduleThread id) := by
  rw [keeps_iff_attached (fun _ isLoad => by cases isLoad), step, scheduleThread]
  cases isDispatch : vm.toolDispatch with
  | none =>
      have noTools := tools_of_none isDispatch
      refine iff_of_true ⟨fun thread member => ?_, attached.toggled⟩ fun idle => ?_
      · show thread.toolDispatch = true ↔ Finset.Nonempty ∅
        rcases List.mem_cons.mp member with rfl | inVm
        · exact iff_of_false Bool.false_ne_true Finset.not_nonempty_empty
        · rw [← noTools]
          exact attached.iff_tools thread inVm
      · rw [Idle, isDispatch] at idle
        cases idle
  | some dispatch =>
      have isTools := tools_of_some isDispatch
      show Attached _ ↔ ¬ Idle vm
      rw [idle_iff isDispatch, not_not]
      constructor
      · intro after
        exact (after.iff_tools _ List.mem_cons_self).mp rfl
      · intro some
        refine ⟨fun thread member => iff_of_true ?_ some,
          Bool.and_eq_true_iff.mpr ⟨attached.toggled, rfl⟩⟩
        rcases List.mem_cons.mp member with rfl | inVm
        · rfl
        · exact (attached.iff_tools thread inVm).mpr (isTools ▸ some)

theorem keeps_iff (attached : Attached vm) (action : Action) :
    Keeps vm action ↔ Permitted vm action := by
  cases action with
  | loadTool tool =>
      cases isDispatch : vm.toolDispatch with
      | none => exact keeps_loadTool_none attached isDispatch tool
      | some dispatch => exact keeps_loadTool_some attached isDispatch tool
  | unloadTool toolId => exact keeps_unloadTool attached toolId
  | scheduleThread id => exact keeps_scheduleThread attached id
  | threadEnd id =>
      rw [keeps_iff_attached (fun _ isLoad => by cases isLoad)]
      refine iff_of_true ⟨fun thread member => ?_, attached.toggled⟩ trivial
      exact attached.iff_tools thread (List.mem_of_mem_filter member)

theorem attached_start (toolIdCounter : ℕ) : Attached (start toolIdCounter) :=
  attached_nil rfl rfl

/-- Every step of a run keeps the attachment exactly when every step is
permitted. -/
theorem keeps_throughout_iff (toolIdCounter : ℕ) (actions : List Action) :
    Transition.Throughout step Keeps (start toolIdCounter) actions ↔
      Transition.Throughout step Permitted (start toolIdCounter) actions :=
  Transition.throughout_iff Attached (fun _ action attached => keeps_iff attached action)
    (fun _ _ _ keeps => keeps.attached) (attached_start toolIdCounter) actions

end Attachment

/-- A load after all tools have been unloaded does not attach the threads. -/
theorem reload_not_attached :
    ¬ Transition.Throughout step Keeps (start 1)
      [.scheduleThread 1, .loadTool .loading, .unloadTool 1, .loadTool .loading] := by
  rintro ⟨-, -, -, keeps, -⟩
  have fits := keeps.attached.iff_tools { id := 1, toolDispatch := false } (by decide)
  exact absurd (fits.mpr ⟨2, by decide⟩) (by decide)

end Vm

end Disvm.ToolAttachment
