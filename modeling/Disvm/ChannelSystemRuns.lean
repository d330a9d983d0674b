import Disvm.ChannelSystem

/-!
# Steps and runs of the channel system

What a step of a worker can do, one constructor for each branch of the step
function.  Every invariant of the channel system is proved by cases over these
constructors.
-/

namespace Disvm.ChannelSystem

open VmState

variable {Value : Type*} [IntCast Value]

inductive Edge (system : VmState Value) (worker : ThreadId) : VmState Value → Prop
  | start (instruction : Instruction) (order : List ℕ)
      (idle : system.control worker = .idle)
      (shuffled : order.Perm (List.range instruction.channelCount)) :
      Edge system worker (system.startInstruction worker instruction order)
  | lockRequest (queued : List ℕ)
      (control : system.control worker = .registering queued [])
      (nonBlocking : (system.instruction worker).isNonBlocking = true)
      (free : system.requestLock worker = none) :
      Edge system worker (system.lockRequest worker)
  | suspend (queued : List ℕ)
      (control : system.control worker = .registering queued []) :
      Edge system worker (system.suspend worker)
  | throwNil (queued : List ℕ) (index : ℕ) (todo : List ℕ)
      (control : system.control worker = .registering queued (index :: todo))
      (isNil : (system.instruction worker).channelAt index = none) :
      Edge system worker (system.setControl worker .broken)
  | enter (queued : List ℕ) (index : ℕ) (todo : List ℕ) (channel : ChannelId)
      (control : system.control worker = .registering queued (index :: todo))
      (isChannel : (system.instruction worker).channelAt index = some channel)
      (dataFree : system.dataLock channel = none)
      (requestFree : system.requestLock worker = none) :
      Edge system worker (system.enter worker ⟨index, channel, queued, todo⟩)
  | scan (visit : Visit) (control : system.control worker = .entered visit)
      (raised : system.pendingRequest worker = true) :
      Edge system worker (system.setControl worker (.scanning visit))
  | leave (visit : Visit) (control : system.control worker = .entered visit)
      (lowered : system.pendingRequest worker = false) :
      Edge system worker (system.leave worker visit)
  | lockPeer (visit : Visit) (peer : Request HandledCallback)
      (rest : List (Request HandledCallback))
      (control : system.control worker = .scanning visit)
      (front : peers (system.direction worker visit) (system.channels visit.channel) =
        peer :: rest)
      (free : system.requestLock peer.threadId = none) :
      Edge system worker (system.lockPeer worker visit peer)
  | queueRequest (visit : Visit) (control : system.control worker = .scanning visit)
      (noPeer : peers (system.direction worker visit) (system.channels visit.channel) = [])
      (refused : useBuffer (system.direction worker visit) (system.request worker visit)
        system.memory (system.channels visit.channel) = .ok none) :
      Edge system worker (system.queueRequest worker visit)
  | settleFromBuffer (visit : Visit) (channel : Channel HandledCallback Value)
      (memory : Address → Value) (control : system.control worker = .scanning visit)
      (noPeer : peers (system.direction worker visit) (system.channels visit.channel) = [])
      (served : useBuffer (system.direction worker visit) (system.request worker visit)
        system.memory (system.channels visit.channel) = .ok (some (channel, memory))) :
      Edge system worker (system.settleFromBuffer worker visit channel memory)
  | skipPeer (visit : Visit) (peer : Request HandledCallback)
      (control : system.control worker = .inspecting visit peer)
      (lowered : system.pendingRequest peer.threadId = false) :
      Edge system worker (system.skipPeer worker visit peer)
  | matchPeer (visit : Visit) (peer : Request HandledCallback)
      (channel : Channel HandledCallback Value) (memory : Address → Value)
      (control : system.control worker = .inspecting visit peer)
      (raised : system.pendingRequest peer.threadId = true)
      (exchanged : exchange (system.direction worker visit) (system.request worker visit)
        peer system.memory
        (popPeer (system.direction worker visit) (system.channels visit.channel)) =
          .ok (channel, memory)) :
      Edge system worker (system.matchPeer worker visit peer channel memory)
  | passHandled (owner : PassOwner) (index : ℕ) (rest : List ℕ) (handledIndex : Int)
      (channel : ChannelId)
      (control : system.control worker =
        .cancelling owner ⟨.asking, index :: rest, handledIndex⟩)
      (isChannel : (system.tableOf worker owner).channelAt index = some channel)
      (isHandled : handledChannel owner = some channel) :
      Edge system worker
        (system.setControl worker (.cancelling owner ⟨.asking, rest, index⟩))
  | passAsk (owner : PassOwner) (index : ℕ) (rest : List ℕ) (handledIndex : Int)
      (channel : ChannelId)
      (control : system.control worker =
        .cancelling owner ⟨.asking, index :: rest, handledIndex⟩)
      (isChannel : (system.tableOf worker owner).channelAt index = some channel)
      (notHandled : handledChannel owner ≠ some channel) :
      Edge system worker
        (system.setControl worker
          (.cancelling owner ⟨.waiting channel, index :: rest, handledIndex⟩))
  | passLock (owner : PassOwner) (channel : ChannelId) (remaining : List ℕ)
      (handledIndex : Int)
      (control : system.control worker =
        .cancelling owner ⟨.waiting channel, remaining, handledIndex⟩)
      (free : system.dataLock channel = none) :
      Edge system worker
        (system.lockChannel worker owner ⟨.waiting channel, remaining, handledIndex⟩ channel)
  | passCancel (owner : PassOwner) (channel : ChannelId) (remaining : List ℕ)
      (handledIndex : Int)
      (control : system.control worker =
        .cancelling owner ⟨.holding channel, remaining, handledIndex⟩) :
      Edge system worker
        (system.cancelIn worker owner ⟨.holding channel, remaining, handledIndex⟩ channel)
  | passFinish (owner : PassOwner) (handledIndex : Int)
      (control : system.control worker =
        .cancelling owner ⟨.asking, [], handledIndex⟩) :
      Edge system worker (system.finishPass worker owner ⟨.asking, [], handledIndex⟩)
  | wake (visit : Visit) (peer : Request HandledCallback)
      (control : system.control worker = .waking visit peer)
      (blocked : system.control peer.threadId = .blocked) :
      Edge system worker (system.wake worker visit peer)
  | wakeMissed (visit : Visit) (peer : Request HandledCallback)
      (control : system.control worker = .waking visit peer)
      (stopped : system.control peer.threadId = .idle ∨
        system.control peer.threadId = .broken) :
      Edge system worker (system.wakeMissed worker visit peer)
  | finishAlone (visit : Visit) (control : system.control worker = .handled visit)
      (isAlt : (system.instruction worker).isAlt = true) (alone : visit.queued = []) :
      Edge system worker ((system.writeIndex worker visit.index).finish worker)
  | clear (visit : Visit) (control : system.control worker = .handled visit)
      (isAlt : (system.instruction worker).isAlt = true) (others : visit.queued ≠ []) :
      Edge system worker
        (system.setControl worker
          (.cancelling (.handled visit) (CancelPass.start (system.instruction worker))))
  | finishPlain (visit : Visit) (control : system.control worker = .handled visit)
      (notAlt : (system.instruction worker).isAlt = false) :
      Edge system worker (system.finish worker)
  | withdraw (control : system.control worker = .withdrawable)
      (raised : system.pendingRequest worker = true) :
      Edge system worker (system.withdraw worker)
  | giveUp (control : system.control worker = .withdrawable)
      (lowered : system.pendingRequest worker = false) :
      Edge system worker ((system.unlockRequest worker).suspend worker)

theorem edge_of_runPass {system after : VmState Value} {worker : ThreadId}
    {owner : PassOwner} {pass : CancelPass}
    (control : system.control worker = .cancelling owner pass)
    (stepped : system.runPass worker owner pass = some after) :
    Edge system worker after := by
  obtain ⟨stage, remaining, handledIndex⟩ := pass
  unfold runPass at stepped
  cases stage with
  | asking =>
      cases remaining with
      | nil =>
          cases stepped
          exact .passFinish owner handledIndex control
      | cons index rest =>
          simp only at stepped
          split at stepped
          · cases stepped
          · next channel isChannel =>
            split at stepped
            · next isHandled =>
              cases stepped
              exact .passHandled owner index rest handledIndex channel control isChannel
                isHandled
            · next notHandled =>
              cases stepped
              exact .passAsk owner index rest handledIndex channel control isChannel
                notHandled
  | waiting channel =>
      simp only at stepped
      split at stepped
      · next free =>
        cases stepped
        exact .passLock owner channel remaining handledIndex control free
      · cases stepped
  | holding channel =>
      cases stepped
      exact .passCancel owner channel remaining handledIndex control

theorem edge_of_step {system after : VmState Value} {worker : ThreadId} {action : Action}
    (stepped : system.step worker action = some after) : Edge system worker after := by
  cases action with
  | start instruction order =>
      simp only [step] at stepped
      split at stepped
      · next allowed =>
        cases stepped
        exact .start instruction order allowed.1 (List.isPerm_iff.mp allowed.2)
      · cases stepped
  | tryLockFails =>
      simp only [step] at stepped
      split at stepped
      · next queued control =>
        split at stepped
        · cases stepped
          exact .suspend queued control
        · cases stepped
      · cases stepped
  | proceed =>
      simp only [step] at stepped
      split at stepped
      · cases stepped
      · cases stepped
      · cases stepped
      · next queued control =>
        split at stepped
        · next allowed =>
          cases stepped
          exact .lockRequest queued control allowed.1 allowed.2
        · cases stepped
          exact .suspend queued control
      · next queued index todo control =>
        split at stepped
        · next isNil =>
          cases stepped
          exact .throwNil queued index todo control isNil
        · next channel isChannel =>
          split at stepped
          · next free =>
            cases stepped
            exact .enter queued index todo channel control isChannel free.1 free.2
          · cases stepped
      · next visit control =>
        split at stepped
        · next raised =>
          cases stepped
          exact .scan visit control raised
        · next lowered =>
          cases stepped
          exact .leave visit control (Bool.eq_false_iff.mpr lowered)
      · next visit control =>
        split at stepped
        · next peer rest front =>
          split at stepped
          · next free =>
            cases stepped
            exact .lockPeer visit peer rest control front free
          · cases stepped
        · next noPeer =>
          split at stepped
          · cases stepped
          · next refused =>
            cases stepped
            exact .queueRequest visit control noPeer refused
          · next channel memory served =>
            cases stepped
            exact .settleFromBuffer visit channel memory control noPeer served
      · next visit peer control =>
        split at stepped
        · next raised =>
          split at stepped
          · cases stepped
          · next channel memory exchanged =>
            cases stepped
            exact .matchPeer visit peer channel memory control raised exchanged
        · next lowered =>
          cases stepped
          exact .skipPeer visit peer control (Bool.eq_false_iff.mpr lowered)
      · next owner pass control => exact edge_of_runPass control stepped
      · next visit peer control =>
        split at stepped
        · next blocked =>
          cases stepped
          exact .wake visit peer control blocked
        · next idle =>
          cases stepped
          exact .wakeMissed visit peer control (Or.inl idle)
        · next broken =>
          cases stepped
          exact .wakeMissed visit peer control (Or.inr broken)
        · cases stepped
      · next visit control =>
        split at stepped
        · next isAlt =>
          split at stepped
          · next alone =>
            cases stepped
            exact .finishAlone visit control isAlt alone
          · next others =>
            cases stepped
            exact .clear visit control isAlt others
        · next notAlt =>
          cases stepped
          exact .finishPlain visit control (Bool.eq_false_iff.mpr notAlt)
      · next control =>
        split at stepped
        · next raised =>
          cases stepped
          exact .withdraw control raised
        · next lowered =>
          cases stepped
          exact .giveUp control (Bool.eq_false_iff.mpr lowered)

/-- States reached by steps of any workers in any order, where a step is taken
only if `allowed` holds of the state before it. -/
def Reached [Inhabited Value] (allowed : VmState Value → ThreadId → Action → Prop) :
    VmState Value → Prop :=
  Transition.Reachable Initial
    (Transition.StepsBy (fun system (action : ThreadId × Action) =>
        allowed system action.1 action.2)
      (fun system action => system.step action.1 action.2))

/-- Every run, whatever the instructions. -/
def anyStep (_ : VmState Value) (_ : ThreadId) (_ : Action) : Prop := True

/-- The run rule of the channel system. -/
theorem Reached.invariant [Inhabited Value]
    {allowed : VmState Value → ThreadId → Action → Prop}
    (property : VmState Value → Prop)
    (established : ∀ system, Initial system → property system)
    (preserved : ∀ system worker action after, Reached allowed system →
      property system → allowed system worker action →
      system.step worker action = some after → property after)
    {system : VmState Value} (reached : Reached allowed system) : property system := by
  refine Transition.Reachable.invariant property established ?_ reached
  rintro before after earlier holds ⟨⟨worker, action⟩, permitted, stepped⟩
  exact preserved before worker action after earlier holds permitted stepped

/-- Unbuffered channels only. -/
def unbuffered : VmState Int where
  channels _ := ⟨none, 0, 0, [], []⟩
  memory _ := 0
  pendingRequest _ := false
  dataLock _ := none
  requestLock _ := none
  control _ := .idle
  instruction _ := .recv none 0
  serial _ := 0
  phase _ := .quiet
  transfers := []
  written _ := []
  suspensions _ := 0
  wakeups _ := 0

theorem unbuffered_initial : Initial unbuffered where
  created _ := ⟨0, rfl⟩
  notPending _ := rfl
  dataUnlocked _ := rfl
  requestUnlocked _ := rfl
  idle _ := rfl
  serial _ := rfl
  phase _ := rfl
  transfers := rfl
  written _ := rfl
  suspensions _ := rfl
  wakeups _ := rfl

/-- Replay actions of workers on unbuffered channels. -/
def replay (actions : List (ThreadId × Action)) : Option (VmState Int) :=
  Transition.execute (fun system action => system.step action.1 action.2) unbuffered actions

theorem reached_of_replay {allowed : VmState Int → ThreadId → Action → Prop}
    {actions : List (ThreadId × Action)} {last : VmState Int}
    (replayed : replay actions = some last)
    (permitted : ∀ system, ∀ action ∈ actions, allowed system action.1 action.2) :
    Reached allowed last :=
  Transition.reachable_of_execute (Transition.Reachable.start unbuffered_initial)
    permitted replayed

end Disvm.ChannelSystem
