import Disvm.ChannelSystemRuns
import Disvm.LockWaits

/-!
# Lock ownership in the channel system

Which locks a worker holds is determined by its control point.  The lock table
agrees with the control points in every reachable state.
-/

namespace Disvm.ChannelSystem

open VmState

open Function (update)

/-- The data lock held at a control point. -/
def Control.holdsData : Control → ChannelId → Prop
  | .entered visit, channel => visit.channel = channel
  | .scanning visit, channel => visit.channel = channel
  | .inspecting visit _, channel => visit.channel = channel
  | .cancelling _ pass, channel => pass.stage = .holding channel
  | _, _ => False

/-- The loops run while the worker holds its own request lock. -/
def PassOwner.underRequestLock : PassOwner → Prop
  | .callback _ _ => True
  | .handled _ => False
  | .nonBlocking => True

/-- The request locks a worker holds at a control point. -/
def Control.holdsRequest (worker : ThreadId) : Control → ThreadId → Prop
  | .entered _, threadId => worker = threadId
  | .scanning _, threadId => worker = threadId
  | .inspecting _ peer, threadId => worker = threadId ∨ peer.threadId = threadId
  | .cancelling owner _, threadId => owner.underRequestLock ∧ worker = threadId
  | .waking _ _, threadId => worker = threadId
  | .withdrawable, threadId => worker = threadId
  | _, _ => False

variable {Value : Type*}

/-- The lock tables agree with the control points. -/
structure LocksHeld (system : VmState Value) : Prop where
  data : ∀ channel worker, system.dataLock channel = some worker ↔
    (system.control worker).holdsData channel
  request : ∀ threadId worker, system.requestLock threadId = some worker ↔
    (system.control worker).holdsRequest worker threadId
  peerElse : ∀ worker visit peer, system.control worker = .inspecting visit peer →
    peer.threadId ≠ worker

/-- One entry of a lock table across a step of a worker: untouched, acquired by
the worker, or released by it. -/
def LockMove (worker : ThreadId) (heldBefore heldAfter : Prop)
    (before after : Option ThreadId) : Prop :=
  (after = before ∧ (heldAfter ↔ heldBefore)) ∨
    (before = none ∧ after = some worker ∧ heldAfter) ∨
    (heldBefore ∧ after = none ∧ ¬ heldAfter)

theorem lockMove_keep {worker : ThreadId} (held : Prop) (entry : Option ThreadId) :
    LockMove worker held held entry entry :=
  Or.inl ⟨rfl, Iff.rfl⟩

theorem lockMove_acquire {worker key : ℕ} {table : ℕ → Option ThreadId}
    (held : ℕ → Prop) (free : table key = none) (entry : ℕ) :
    LockMove worker (held entry) (held entry ∨ key = entry) (table entry)
      (update table key (some worker) entry) := by
  by_cases same : entry = key
  · subst same
    exact Or.inr (Or.inl ⟨free, by simp, Or.inr rfl⟩)
  · exact Or.inl ⟨by simp [same], by simp [Ne.symm same]⟩

theorem lockMove_release (worker : ThreadId) {key : ℕ} (table : ℕ → Option ThreadId)
    (held : ℕ → Prop) (notHeld : ¬ held key) (entry : ℕ) :
    LockMove worker (held entry ∨ key = entry) (held entry) (table entry)
      (update table key none entry) := by
  by_cases same : entry = key
  · subst same
    exact Or.inr (Or.inr ⟨Or.inr rfl, by simp, notHeld⟩)
  · exact Or.inl ⟨by simp [same], by simp [Ne.symm same]⟩

/-- A worker that holds nothing of a table acquires one lock of it. -/
theorem lockMove_take {worker key : ℕ} {table : ℕ → Option ThreadId}
    (free : table key = none) (entry : ℕ) :
    LockMove worker False (key = entry) (table entry)
      (update table key (some worker) entry) := by
  simpa using @lockMove_acquire worker key table (fun _ => False) free entry

/-- A worker releases the only lock of a table it holds. -/
theorem lockMove_drop {worker : ThreadId} (key : ℕ) (table : ℕ → Option ThreadId)
    (entry : ℕ) :
    LockMove worker (key = entry) False (table entry) (update table key none entry) := by
  simpa using @lockMove_release worker key table (fun _ => False) not_false entry

theorem lockMove_agrees {worker : ThreadId} {before after : Option ThreadId}
    {heldBefore heldAfter : ThreadId → Prop}
    (agrees : ∀ holder, before = some holder ↔ heldBefore holder)
    (others : ∀ holder, holder ≠ worker → (heldAfter holder ↔ heldBefore holder))
    (move : LockMove worker (heldBefore worker) (heldAfter worker) before after)
    (other : ThreadId) : after = some other ↔ heldAfter other := by
  by_cases same : other = worker
  · subst same
    rcases move with ⟨unchanged, iff⟩ | ⟨_, acquired, held⟩ | ⟨_, released, notHeld⟩
    · rw [unchanged, iff]
      exact agrees other
    · simp [acquired, held]
    · simp [released, notHeld]
  · rw [others other same, ← agrees other]
    rcases move with ⟨unchanged, _⟩ | ⟨free, acquired, _⟩ | ⟨held, released, _⟩
    · rw [unchanged]
    · simp [free, acquired, Ne.symm same]
    · have owner : before = some worker := (agrees worker).mpr held
      simp [released, owner, Ne.symm same]

/-- A step changes the tables as the control point of its worker changes. -/
theorem LocksHeld.move {before after : VmState Value} (worker : ThreadId)
    (held : LocksHeld before)
    (others : ∀ threadId, threadId ≠ worker →
      (after.control threadId).holdsData = (before.control threadId).holdsData ∧
        (after.control threadId).holdsRequest threadId =
          (before.control threadId).holdsRequest threadId)
    (data : ∀ channel, LockMove worker ((before.control worker).holdsData channel)
      ((after.control worker).holdsData channel) (before.dataLock channel)
      (after.dataLock channel))
    (request : ∀ threadId, LockMove worker
      ((before.control worker).holdsRequest worker threadId)
      ((after.control worker).holdsRequest worker threadId)
      (before.requestLock threadId) (after.requestLock threadId))
    (peerElse : ∀ other visit peer, after.control other = .inspecting visit peer →
      peer.threadId ≠ other) :
    LocksHeld after where
  data channel other := by
    refine @lockMove_agrees worker _ _ _ (fun holder => (after.control holder).holdsData channel)
      (held.data channel) ?_ (data channel) other
    intro holder different
    rw [(others holder different).1]
  request threadId other := by
    refine @lockMove_agrees worker _ _ _
      (fun holder => (after.control holder).holdsRequest holder threadId)
      (held.request threadId) ?_ (request threadId) other
    intro holder different
    rw [(others holder different).2]
  peerElse := peerElse

/-- The control point after the start of an instruction holds no lock. -/
theorem startInstruction_control (system : VmState Value) (worker : ThreadId)
    (instruction : Instruction) (order : List ℕ) :
    (system.startInstruction worker instruction order).control worker = .broken ∨
      (system.startInstruction worker instruction order).control worker =
        .registering [] order := by
  simp only [startInstruction, Function.update_self]
  split
  · exact Or.inl rfl
  · exact Or.inr rfl

theorem matchPeer_control (system : VmState Value) (worker : ThreadId) (visit : Visit)
    (peer : Request HandledCallback) (channel : Channel HandledCallback Value)
    (memory : Address → Value) :
    (system.matchPeer worker visit peer channel memory).control worker =
        .cancelling (.callback visit peer)
          (CancelPass.start peer.requestHandledCallback.instruction) ∨
      (system.matchPeer worker visit peer channel memory).control worker =
        .waking visit peer := by
  simp only [matchPeer, Function.update_self]
  split
  · exact Or.inl rfl
  · exact Or.inr rfl

theorem locksHeld_initial [Inhabited Value] {system : VmState Value}
    (initial : Initial system) : LocksHeld system where
  data channel worker := by
    rw [initial.dataUnlocked, initial.idle]
    simp [Control.holdsData]
  request threadId worker := by
    rw [initial.requestUnlocked, initial.idle]
    simp [Control.holdsRequest]
  peerElse worker visit peer control := by
    rw [initial.idle] at control
    cases control

section Steps

variable [IntCast Value]

/-- A step moves its worker, and may wake one blocked thread. -/
theorem control_others {system after : VmState Value} {worker : ThreadId}
    (edge : Edge system worker after) (threadId : ThreadId) (different : threadId ≠ worker) :
    after.control threadId = system.control threadId ∨
      (system.control threadId = .blocked ∧ after.control threadId = .idle) := by
  cases edge with
  | passFinish owner handledIndex control =>
      left
      cases owner <;>
        simp [finishPass, setControl, writeIndex, finish, unlockRequest, different]
  | wake visit peer control blocked =>
      by_cases woken : threadId = peer.threadId
      · right
        subst woken
        exact ⟨blocked, by simp [wake, different]⟩
      · left
        simp [wake, different, woken]
  | _ =>
      left
      simp [startInstruction, lockRequest, suspend, setControl, enter, leave, lockPeer,
        queueRequest, settleFromBuffer, skipPeer, matchPeer, lockChannel, cancelIn,
        wakeMissed, writeIndex, finish, withdraw, unlockRequest, different]

theorem holds_others {system after : VmState Value} {worker : ThreadId}
    (edge : Edge system worker after) (threadId : ThreadId) (different : threadId ≠ worker) :
    (after.control threadId).holdsData = (system.control threadId).holdsData ∧
      (after.control threadId).holdsRequest threadId =
        (system.control threadId).holdsRequest threadId := by
  rcases control_others edge threadId different with unchanged | ⟨blocked, idle⟩
  · rw [unchanged]
    exact ⟨rfl, rfl⟩
  · rw [blocked, idle]
    exact ⟨rfl, rfl⟩

theorem dataLock_edge {system after : VmState Value} {worker : ThreadId}
    (edge : Edge system worker after) (channel : ChannelId) :
    LockMove worker ((system.control worker).holdsData channel)
      ((after.control worker).holdsData channel) (system.dataLock channel)
      (after.dataLock channel) := by
  have keep (held : Prop) := @lockMove_keep worker held (system.dataLock channel)
  have drop (key : ChannelId) := @lockMove_drop worker key system.dataLock channel
  cases edge with
  | start instruction order idle =>
      rcases startInstruction_control system worker instruction order with
        control | control <;>
      · rw [idle, control]
        exact keep False
  | enter queued index todo entered control isChannel dataFree requestFree =>
      simpa [enter, control, Control.holdsData] using lockMove_take dataFree channel
  | passLock owner locked remaining handledIndex control free =>
      simpa [lockChannel, control, Control.holdsData] using lockMove_take free channel
  | leave visit control =>
      simpa [leave, control, Control.holdsData] using drop visit.channel
  | queueRequest visit control =>
      simpa [queueRequest, leave, control, Control.holdsData] using drop visit.channel
  | settleFromBuffer visit settled memory control =>
      simpa [settleFromBuffer, control, Control.holdsData] using drop visit.channel
  | matchPeer visit peer settled memory control =>
      rcases matchPeer_control system worker visit peer settled memory with
        matched | matched <;>
      · rw [control, matched]
        simpa [matchPeer, Control.holdsData, CancelPass.start] using drop visit.channel
  | passCancel owner locked remaining handledIndex control =>
      simpa [cancelIn, control, Control.holdsData] using drop locked
  | passFinish owner handledIndex control =>
      cases owner <;>
        simpa [finishPass, setControl, writeIndex, finish, unlockRequest, control,
          Control.holdsData] using keep False
  | lockRequest queued control | suspend queued control
  | throwNil queued index todo control
  | scan visit control | lockPeer visit peer rest control | skipPeer visit peer control
  | passHandled owner index rest handledIndex other control
  | passAsk owner index rest handledIndex other control
  | wake visit peer control | wakeMissed visit peer control
  | finishAlone visit control | clear visit control | finishPlain visit control
  | withdraw control | giveUp control =>
      simpa [lockRequest, suspend, setControl, lockPeer, skipPeer, wake, wakeMissed,
        writeIndex, finish, CancelPass.start, withdraw, unlockRequest, control,
        Control.holdsData] using keep _

theorem requestLock_edge {system after : VmState Value} {worker : ThreadId}
    (held : LocksHeld system) (edge : Edge system worker after) (threadId : ThreadId) :
    LockMove worker ((system.control worker).holdsRequest worker threadId)
      ((after.control worker).holdsRequest worker threadId)
      (system.requestLock threadId) (after.requestLock threadId) := by
  have keep (held : Prop) := @lockMove_keep worker held (system.requestLock threadId)
  have take (free : system.requestLock worker = none) :=
    @lockMove_take worker worker system.requestLock free threadId
  have drop := @lockMove_drop worker worker system.requestLock threadId
  cases edge with
  | start instruction order idle =>
      rcases startInstruction_control system worker instruction order with
        control | control <;>
      · rw [idle, control]
        exact keep False
  | enter queued index todo entered control isChannel dataFree requestFree =>
      simpa [enter, control, Control.holdsRequest] using take requestFree
  | lockRequest queued control nonBlocking free =>
      simpa [lockRequest, control, Control.holdsRequest] using take free
  | leave visit control | queueRequest visit control
  | settleFromBuffer visit settled memory control
  | wake visit peer control | wakeMissed visit peer control | giveUp control =>
      simpa [leave, queueRequest, settleFromBuffer, wake, wakeMissed, suspend,
        unlockRequest, control, Control.holdsRequest] using drop
  | lockPeer visit peer rest control front free =>
      simpa [lockPeer, control, Control.holdsRequest] using
        @lockMove_acquire worker peer.threadId system.requestLock (worker = ·) free threadId
  | skipPeer visit peer control =>
      simpa [skipPeer, control, Control.holdsRequest] using
        @lockMove_release worker peer.threadId system.requestLock (worker = ·)
          (held.peerElse worker visit peer control).symm threadId
  | matchPeer visit peer settled memory control =>
      have release := @lockMove_release worker peer.threadId system.requestLock (worker = ·)
        (held.peerElse worker visit peer control).symm threadId
      rcases matchPeer_control system worker visit peer settled memory with
        matched | matched <;>
      · rw [control, matched]
        simpa [matchPeer, Control.holdsRequest, PassOwner.underRequestLock] using release
  | passFinish owner handledIndex control =>
      cases owner with
      | callback visit peer =>
          simpa [finishPass, setControl, writeIndex, control, Control.holdsRequest,
            PassOwner.underRequestLock] using keep (worker = threadId)
      | handled visit =>
          simpa [finishPass, writeIndex, finish, control, Control.holdsRequest,
            PassOwner.underRequestLock] using keep False
      | nonBlocking =>
          simpa [finishPass, writeIndex, finish, unlockRequest, control,
            Control.holdsRequest, PassOwner.underRequestLock] using drop
  | suspend queued control | throwNil queued index todo control
  | scan visit control | passLock owner channel remaining handledIndex control
  | passCancel owner channel remaining handledIndex control
  | passHandled owner index rest handledIndex other control
  | passAsk owner index rest handledIndex other control
  | finishAlone visit control | clear visit control | finishPlain visit control
  | withdraw control =>
      simpa [suspend, setControl, lockChannel, cancelIn, writeIndex, finish,
        CancelPass.start, withdraw, control, Control.holdsRequest,
        PassOwner.underRequestLock] using keep _

/-- A worker inspects only peers whose lock was free while it held its own. -/
theorem inspecting_edge {system after : VmState Value} {worker : ThreadId}
    (held : LocksHeld system) (edge : Edge system worker after) {visit : Visit}
    {peer : Request HandledCallback}
    (inspecting : after.control worker = .inspecting visit peer) :
    peer.threadId ≠ worker := by
  cases edge with
  | lockPeer entered other rest control front free =>
      simp only [lockPeer, Function.update_self, Control.inspecting.injEq] at inspecting
      obtain ⟨rfl, rfl⟩ := inspecting
      intro same
      have own : system.requestLock worker = some worker := by
        rw [held.request, control]
        exact rfl
      rw [same, own] at free
      cases free
  | start instruction order idle =>
      rcases startInstruction_control system worker instruction order with
        control | control <;>
      · rw [control] at inspecting
        cases inspecting
  | matchPeer entered other settled memory control =>
      rcases matchPeer_control system worker entered other settled memory with
        matched | matched <;>
      · rw [matched] at inspecting
        cases inspecting
  | passFinish owner handledIndex control =>
      cases owner <;>
        simp [finishPass, setControl, writeIndex, finish, unlockRequest] at inspecting
  | _ =>
      simp [lockRequest, suspend, setControl, enter, leave, queueRequest,
        settleFromBuffer, skipPeer, lockChannel, cancelIn, wake, wakeMissed, writeIndex,
        finish, withdraw, unlockRequest] at inspecting

theorem locksHeld_edge {system after : VmState Value} {worker : ThreadId}
    (held : LocksHeld system) (edge : Edge system worker after) : LocksHeld after := by
  refine held.move worker (holds_others edge) (dataLock_edge edge)
    (requestLock_edge held edge) ?_
  intro other visit peer inspecting
  by_cases same : other = worker
  · subst same
    exact inspecting_edge held edge inspecting
  · rcases control_others edge other same with unchanged | ⟨_, idle⟩
    · exact held.peerElse other visit peer (unchanged ▸ inspecting)
    · rw [idle] at inspecting
      cases inspecting

/-- The lock tables agree with the control points in every run. -/
theorem locksHeld_of_reached [Inhabited Value]
    {allowed : VmState Value → ThreadId → Action → Prop} {system : VmState Value}
    (reached : Reached allowed system) : LocksHeld system :=
  Reached.invariant LocksHeld (fun _ initial => locksHeld_initial initial)
    (fun _ _ _ _ _ held _ stepped => locksHeld_edge held (edge_of_step stepped)) reached

end Steps

end Disvm.ChannelSystem
