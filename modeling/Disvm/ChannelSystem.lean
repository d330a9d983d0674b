import Disvm.ChannelModel
import Disvm.TransitionRuns
import Mathlib.Data.List.Perm.Basic
import Mathlib.Logic.Function.Basic

/-!
# Threads, channels and their locks

The channel instructions of all threads at the granularity of single lock
operations.  A worker executes one VM thread at a time and holds no lock
between instructions, so it is identified with the thread it executes; any
number of workers is covered.  Each channel has a data lock and each thread a
lock for its request flag.  `std::lock` takes both locks of a pair or neither.
Assertions are compiled out.
-/

namespace Disvm

/-- `vm_alt_channel_stack_layout_t`. -/
structure AltChannel where
  alloc : Option ChannelId
  data : Address
  deriving DecidableEq, Repr

/-- `vm_alt_stack_layout_t`: the send alternatives, then the receive
alternatives. -/
structure AltStackLayout where
  sendCount : ℕ
  receiveCount : ℕ
  channels : List AltChannel
  sized : channels.length = sendCount + receiveCount
  deriving DecidableEq, Repr

/-- The alternatives that send are in front of those that receive. -/
def AltStackLayout.ofAlternatives (sends receives : List AltChannel) : AltStackLayout where
  sendCount := sends.length
  receiveCount := receives.length
  channels := sends ++ receives
  sized := List.length_append

namespace ChannelSystem

variable {Value : Type*}

/-- A channel instruction with the operands its worker decoded. -/
inductive Instruction where
  | send (channel : Option ChannelId) (src dest : Address)
  | recv (channel : Option ChannelId) (dest : Address)
  | alt (blocking : Bool) (layout : AltStackLayout) (dest : Address)
  deriving DecidableEq, Repr

namespace Instruction

/-- A plain send or receive offers a single alternative. -/
def layout : Instruction → AltStackLayout
  | .send channel src _ => ⟨1, 0, [⟨channel, src⟩], rfl⟩
  | .recv channel dest => ⟨0, 1, [⟨channel, dest⟩], rfl⟩
  | .alt _ layout _ => layout

/-- The location `r.dest` designates. -/
def dest : Instruction → Address
  | .send _ _ dest => dest
  | .recv _ dest => dest
  | .alt _ _ dest => dest

def isAlt : Instruction → Bool
  | .alt _ _ _ => true
  | _ => false

def isNonBlocking : Instruction → Bool
  | .alt blocking _ _ => !blocking
  | _ => false

def channelCount (instruction : Instruction) : ℕ :=
  instruction.layout.sendCount + instruction.layout.receiveCount

/-- The channel of an alternative, unless it is nil or out of range. -/
def channelAt (instruction : Instruction) (index : ℕ) : Option ChannelId :=
  instruction.layout.channels[index]?.bind AltChannel.alloc

def dataAt (instruction : Instruction) (index : ℕ) : Address :=
  (instruction.layout.channels[index]?.map AltChannel.data).getD 0

end Instruction

/-- The closure stored as `request_handled_callback`.  The serial number counts
the instructions of the thread; the code does not have it. -/
structure HandledCallback where
  instruction : Instruction
  serial : ℕ
  deriving DecidableEq, Repr

inductive Direction where
  | send
  | receive
  deriving DecidableEq, Repr

def Direction.opposite : Direction → Direction
  | .send => .receive
  | .receive => .send

/-- Senders come first in the table. -/
def directionOf (instruction : Instruction) (index : ℕ) : Direction :=
  if index < instruction.layout.sendCount then .send else .receive

/-- The queue of the requests that wait to send or to receive. -/
def queue (direction : Direction) (channel : Channel HandledCallback Value) :
    List (Request HandledCallback) :=
  match direction with
  | .send => channel.dataSenders
  | .receive => channel.dataReceivers

/-- The queue searched for a peer. -/
def peers (direction : Direction) (channel : Channel HandledCallback Value) :
    List (Request HandledCallback) :=
  queue direction.opposite channel

def popPeer (direction : Direction) (channel : Channel HandledCallback Value) :
    Channel HandledCallback Value :=
  match direction with
  | .send => { channel with dataReceivers := channel.dataReceivers.tail }
  | .receive => { channel with dataSenders := channel.dataSenders.tail }

def enqueue (direction : Direction) (request : Request HandledCallback)
    (channel : Channel HandledCallback Value) : Channel HandledCallback Value :=
  match direction with
  | .send => { channel with dataSenders := channel.dataSenders ++ [request] }
  | .receive => { channel with dataReceivers := channel.dataReceivers ++ [request] }

/-- Without a peer the operation tries the buffer, if there is one. -/
def useBuffer (direction : Direction) (request : Request HandledCallback)
    (memory : Address → Value) (channel : Channel HandledCallback Value) :
    Except VmException
      (Option (Channel HandledCallback Value × (Address → Value))) :=
  match channel.dataBuffer, direction with
  | none, _ => .ok none
  | some cells, .send =>
      match channel.trySendToBuffer memory cells request with
      | .error exception => .error exception
      | .ok none => .ok none
      | .ok (some after) => .ok (some (after, memory))
  | some cells, .receive =>
      match channel.tryReceiveFromBuffer cells with
      | .error exception => .error exception
      | .ok none => .ok none
      | .ok (some (after, value)) =>
          .ok (some (after, Function.update memory request.data value))

/-- The transfer between an operation and the peer it matched, which has left
its queue.  A receiver prefers the oldest buffered value and then lets the
sender use the free slot. -/
def exchange (direction : Direction) (request peer : Request HandledCallback)
    (memory : Address → Value) (channel : Channel HandledCallback Value) :
    Except VmException (Channel HandledCallback Value × (Address → Value)) :=
  match direction with
  | .send => .ok (channel, Function.update memory peer.data (memory request.data))
  | .receive =>
      let direct := Function.update memory request.data (memory peer.data)
      match channel.dataBuffer with
      | none => .ok (channel, direct)
      | some cells =>
          match channel.tryReceiveFromBuffer cells with
          | .error exception => .error exception
          | .ok none => .ok (channel, direct)
          | .ok (some (after, value)) =>
              let received := Function.update memory request.data value
              match after.trySendToBuffer received cells peer with
              | .error exception => .error exception
              | .ok none => .ok (after, received)
              | .ok (some refilled) => .ok (refilled, received)

/-- One iteration of the loop over the shuffled table indices. -/
structure Visit where
  index : ℕ
  channel : ChannelId
  queued : List ℕ
  todo : List ℕ
  deriving DecidableEq, Repr

/-- Progress of one call of `cancel_request`. -/
inductive Stage where
  | asking
  | waiting (channel : ChannelId)
  | holding (channel : ChannelId)
  deriving DecidableEq, Repr

/-- A loop over a table that cancels requests. -/
structure CancelPass where
  stage : Stage
  remaining : List ℕ
  handledIndex : Int
  deriving DecidableEq, Repr

def CancelPass.start (instruction : Instruction) : CancelPass :=
  ⟨.asking, List.range instruction.channelCount, -1⟩

/-- The loops that cancel requests: the callback of a matched alt, the end of
an alt whose alternative was handled at once, and a non-blocking alt that
gives up. -/
inductive PassOwner where
  | callback (visit : Visit) (peer : Request HandledCallback)
  | handled (visit : Visit)
  | nonBlocking
  deriving DecidableEq, Repr

/-- Where the worker of a thread stands in its channel instruction. -/
inductive Control where
  -- outside channel instructions, running or runnable
  | idle
  -- stopped by an exception
  | broken
  -- suspended until a callback
  | blocked
  -- about to lock the channel of the next alternative
  | registering (queued todo : List ℕ)
  -- holds both locks, before the flag test
  | entered (visit : Visit)
  -- at the head of the loop over the peers
  | scanning (visit : Visit)
  -- holds the lock of the first peer too
  | inspecting (visit : Visit) (peer : Request HandledCallback)
  | cancelling (owner : PassOwner) (pass : CancelPass)
  -- in `enqueue_blocked_thread` for the matched peer
  | waking (visit : Visit) (peer : Request HandledCallback)
  -- `send_data` or `receive_data` returned true
  | handled (visit : Visit)
  -- nbalt after the successful `try_lock`
  | withdrawable
  deriving DecidableEq, Repr

/-- A data transfer as it was made, with the instruction that issued the
request and the one its thread was executing. -/
structure Transfer where
  threadId : ThreadId
  direction : Direction
  channel : ChannelId
  data : Address
  issuedBy : ℕ
  during : Option ℕ
  deriving DecidableEq, Repr

/-- Who settles the current instruction of a thread. -/
inductive Phase where
  | quiet
  | offering
  | completing
  | completedBy (worker : ThreadId)
  | withdrawn
  deriving DecidableEq, Repr

/-- The state of all threads and channels.  The fields after `instruction` are
history that no step reads. -/
structure VmState (Value : Type*) where
  channels : ChannelId → Channel HandledCallback Value
  memory : Address → Value
  pendingRequest : ThreadId → Bool
  dataLock : ChannelId → Option ThreadId
  requestLock : ThreadId → Option ThreadId
  control : ThreadId → Control
  instruction : ThreadId → Instruction
  serial : ThreadId → ℕ
  phase : ThreadId → Phase
  transfers : List Transfer
  written : ThreadId → List Int
  suspensions : ThreadId → ℕ
  wakeups : ThreadId → ℕ

/-- A worker starts an instruction with a shuffled index sequence, takes its
next step, or finds that `try_lock` failed, which it may do spuriously. -/
inductive Action where
  | start (instruction : Instruction) (order : List ℕ)
  | proceed
  | tryLockFails
  deriving DecidableEq, Repr

namespace VmState

open Function (update)

def setControl (system : VmState Value) (worker : ThreadId) (control : Control) :
    VmState Value :=
  { system with control := update system.control worker control }

def direction (system : VmState Value) (worker : ThreadId) (visit : Visit) : Direction :=
  directionOf (system.instruction worker) visit.index

/-- The request made for one alternative. -/
def request (system : VmState Value) (worker : ThreadId) (visit : Visit) :
    Request HandledCallback :=
  { threadId := worker
    data := (system.instruction worker).dataAt visit.index
    requestHandledCallback := ⟨system.instruction worker, system.serial worker⟩ }

/-- The log entry of a request whose data is transferred now. -/
def transfer (system : VmState Value) (direction : Direction) (channel : ChannelId)
    (request : Request HandledCallback) : Transfer :=
  { threadId := request.threadId
    direction := direction
    channel := channel
    data := request.data
    issuedBy := request.requestHandledCallback.serial
    during :=
      if system.control request.threadId = .idle then none
      else some (system.serial request.threadId) }

/-- Send and receive refuse a nil channel before they raise the flag. -/
def startInstruction (system : VmState Value) (worker : ThreadId)
    (instruction : Instruction) (order : List ℕ) : VmState Value :=
  let refused := !instruction.isAlt && (instruction.channelAt 0).isNone
  { system with
    pendingRequest := update system.pendingRequest worker !refused
    control := update system.control worker (if refused then .broken else .registering [] order)
    instruction := update system.instruction worker instruction
    serial := update system.serial worker (system.serial worker + 1)
    phase := update system.phase worker (if refused then .quiet else .offering)
    written := update system.written worker []
    suspensions := update system.suspensions worker 0
    wakeups := update system.wakeups worker 0 }

def suspend (system : VmState Value) (worker : ThreadId) : VmState Value :=
  { system with
    control := update system.control worker .blocked
    suspensions := update system.suspensions worker (system.suspensions worker + 1) }

def enter (system : VmState Value) (worker : ThreadId) (visit : Visit) : VmState Value :=
  { system with
    dataLock := update system.dataLock visit.channel (some worker)
    requestLock := update system.requestLock worker (some worker)
    control := update system.control worker (.entered visit) }

/-- Return false from `send_data` or `receive_data`. -/
def leave (system : VmState Value) (worker : ThreadId) (visit : Visit) : VmState Value :=
  { system with
    dataLock := update system.dataLock visit.channel none
    requestLock := update system.requestLock worker none
    control := update system.control worker
      (.registering (visit.queued ++ [visit.index]) visit.todo) }

def queueRequest (system : VmState Value) (worker : ThreadId) (visit : Visit) :
    VmState Value :=
  { system.leave worker visit with
    channels := update system.channels visit.channel
      (enqueue (system.direction worker visit) (system.request worker visit)
        (system.channels visit.channel)) }

/-- The buffer took or supplied the value. -/
def settleFromBuffer (system : VmState Value) (worker : ThreadId) (visit : Visit)
    (channel : Channel HandledCallback Value) (memory : Address → Value) :
    VmState Value :=
  { system with
    channels := update system.channels visit.channel channel
    memory := memory
    pendingRequest := update system.pendingRequest worker false
    dataLock := update system.dataLock visit.channel none
    requestLock := update system.requestLock worker none
    control := update system.control worker (.handled visit)
    phase := update system.phase worker .completing
    transfers := system.transfers ++
      [system.transfer (system.direction worker visit) visit.channel
        (system.request worker visit)] }

def lockPeer (system : VmState Value) (worker : ThreadId) (visit : Visit)
    (peer : Request HandledCallback) : VmState Value :=
  { system with
    requestLock := update system.requestLock peer.threadId (some worker)
    control := update system.control worker (.inspecting visit peer) }

/-- The peer was handled elsewhere. -/
def skipPeer (system : VmState Value) (worker : ThreadId) (visit : Visit)
    (peer : Request HandledCallback) : VmState Value :=
  { system with
    channels := update system.channels visit.channel
      (popPeer (system.direction worker visit) (system.channels visit.channel))
    requestLock := update system.requestLock peer.threadId none
    control := update system.control worker (.scanning visit) }

/-- The transfer with a peer.  The worker keeps its own request lock during
the peer's callback. -/
def matchPeer (system : VmState Value) (worker : ThreadId) (visit : Visit)
    (peer : Request HandledCallback) (channel : Channel HandledCallback Value)
    (memory : Address → Value) : VmState Value :=
  { system with
    channels := update system.channels visit.channel channel
    memory := memory
    pendingRequest := update (update system.pendingRequest worker false) peer.threadId false
    dataLock := update system.dataLock visit.channel none
    requestLock := update system.requestLock peer.threadId none
    control := update system.control worker
      (if peer.requestHandledCallback.instruction.isAlt then
        .cancelling (.callback visit peer)
          (CancelPass.start peer.requestHandledCallback.instruction)
      else .waking visit peer)
    phase := update (update system.phase worker .completing) peer.threadId
      (.completedBy worker)
    transfers := system.transfers ++
      [system.transfer (system.direction worker visit) visit.channel
          (system.request worker visit),
        system.transfer (Direction.opposite (system.direction worker visit)) visit.channel
          peer] }

/-- Store an alternative's index at `r.dest` of a thread. -/
def writeIndex [IntCast Value] (system : VmState Value) (threadId : ThreadId)
    (index : Int) : VmState Value :=
  { system with
    memory := update system.memory (system.instruction threadId).dest (index : Value)
    written := update system.written threadId (system.written threadId ++ [index]) }

/-- Return to the interpreter loop. -/
def finish (system : VmState Value) (worker : ThreadId) : VmState Value :=
  { system with
    control := update system.control worker .idle
    phase := update system.phase worker .quiet }

def wake (system : VmState Value) (worker : ThreadId) (visit : Visit)
    (peer : Request HandledCallback) : VmState Value :=
  { system with
    requestLock := update system.requestLock worker none
    control := update (update system.control peer.threadId .idle) worker (.handled visit)
    phase := update system.phase peer.threadId .quiet
    wakeups := update system.wakeups peer.threadId (system.wakeups peer.threadId + 1) }

/-- `enqueue_blocked_thread` does nothing for a thread that is not blocked. -/
def wakeMissed (system : VmState Value) (worker : ThreadId) (visit : Visit)
    (peer : Request HandledCallback) : VmState Value :=
  { system with
    requestLock := update system.requestLock worker none
    control := update system.control worker (.handled visit)
    phase := update system.phase peer.threadId .quiet }

def lockRequest (system : VmState Value) (worker : ThreadId) : VmState Value :=
  { system with
    requestLock := update system.requestLock worker (some worker)
    control := update system.control worker .withdrawable }

def unlockRequest (system : VmState Value) (worker : ThreadId) : VmState Value :=
  { system with requestLock := update system.requestLock worker none }

def withdraw (system : VmState Value) (worker : ThreadId) : VmState Value :=
  { system with
    pendingRequest := update system.pendingRequest worker false
    control := update system.control worker
      (.cancelling .nonBlocking (CancelPass.start (system.instruction worker)))
    phase := update system.phase worker .withdrawn }

/-- The thread whose requests are cancelled. -/
def victim (worker : ThreadId) : PassOwner → ThreadId
  | .callback _ peer => peer.threadId
  | .handled _ => worker
  | .nonBlocking => worker

/-- The instruction whose table the loop runs over. -/
def tableOf (system : VmState Value) (worker : ThreadId) : PassOwner → Instruction
  | .callback _ peer => peer.requestHandledCallback.instruction
  | .handled _ => system.instruction worker
  | .nonBlocking => system.instruction worker

def handledChannel : PassOwner → Option ChannelId
  | .callback visit _ => some visit.channel
  | .handled visit => some visit.channel
  | .nonBlocking => none

def finishPass [IntCast Value] (system : VmState Value) (worker : ThreadId)
    (owner : PassOwner) (pass : CancelPass) : VmState Value :=
  match owner with
  | .callback visit peer =>
      (system.writeIndex peer.threadId pass.handledIndex).setControl worker
        (.waking visit peer)
  | .handled visit => (system.writeIndex worker visit.index).finish worker
  | .nonBlocking =>
      ((system.writeIndex worker (system.instruction worker).channelCount).finish
        worker).unlockRequest worker

def lockChannel (system : VmState Value) (worker : ThreadId) (owner : PassOwner)
    (pass : CancelPass) (channel : ChannelId) : VmState Value :=
  { system with
    dataLock := update system.dataLock channel (some worker)
    control := update system.control worker
      (.cancelling owner { pass with stage := .holding channel }) }

def cancelIn (system : VmState Value) (worker : ThreadId) (owner : PassOwner)
    (pass : CancelPass) (channel : ChannelId) : VmState Value :=
  { system with
    channels := update system.channels channel
      ((system.channels channel).cancelRequest (victim worker owner))
    dataLock := update system.dataLock channel none
    control := update system.control worker
      (.cancelling owner
        { pass with stage := .asking, remaining := pass.remaining.tail }) }

/-- One step of a cancellation loop.  A nil entry makes the worker crash. -/
def runPass [IntCast Value] (system : VmState Value) (worker : ThreadId)
    (owner : PassOwner) (pass : CancelPass) : Option (VmState Value) :=
  match pass.stage, pass.remaining with
  | .asking, [] => some (system.finishPass worker owner pass)
  | .asking, index :: rest =>
      match (system.tableOf worker owner).channelAt index with
      | none => none
      | some channel =>
          if handledChannel owner = some channel then
            some (system.setControl worker
              (.cancelling owner { pass with remaining := rest, handledIndex := index }))
          else
            some (system.setControl worker
              (.cancelling owner { pass with stage := .waiting channel }))
  | .waiting channel, _ =>
      if system.dataLock channel = none then
        some (system.lockChannel worker owner pass channel)
      else none
  | .holding channel, _ => some (system.cancelIn worker owner pass channel)

/-- One step of a worker, or `none` while it has to wait. -/
def step [IntCast Value] (system : VmState Value) (worker : ThreadId) :
    Action → Option (VmState Value)
  | .start instruction order =>
      if system.control worker = .idle ∧
          order.isPerm (List.range instruction.channelCount) then
        some (system.startInstruction worker instruction order)
      else none
  | .tryLockFails =>
      match system.control worker with
      | .registering _ [] =>
          if (system.instruction worker).isNonBlocking then some (system.suspend worker)
          else none
      | _ => none
  | .proceed =>
      match system.control worker with
      | .idle => none
      | .broken => none
      | .blocked => none
      | .registering _ [] =>
          if (system.instruction worker).isNonBlocking ∧
              system.requestLock worker = none then
            some (system.lockRequest worker)
          else some (system.suspend worker)
      | .registering queued (index :: todo) =>
          match (system.instruction worker).channelAt index with
          | none => some (system.setControl worker .broken)
          | some channel =>
              if system.dataLock channel = none ∧ system.requestLock worker = none then
                some (system.enter worker ⟨index, channel, queued, todo⟩)
              else none
      | .entered visit =>
          if system.pendingRequest worker then
            some (system.setControl worker (.scanning visit))
          else some (system.leave worker visit)
      | .scanning visit =>
          match peers (system.direction worker visit) (system.channels visit.channel) with
          | peer :: _ =>
              if system.requestLock peer.threadId = none then
                some (system.lockPeer worker visit peer)
              else none
          | [] =>
              match useBuffer (system.direction worker visit)
                  (system.request worker visit) system.memory
                  (system.channels visit.channel) with
              | .error _ => none
              | .ok none => some (system.queueRequest worker visit)
              | .ok (some (channel, memory)) =>
                  some (system.settleFromBuffer worker visit channel memory)
      | .inspecting visit peer =>
          if system.pendingRequest peer.threadId then
            match exchange (system.direction worker visit)
                (system.request worker visit) peer system.memory
                (popPeer (system.direction worker visit)
                  (system.channels visit.channel)) with
            | .error _ => none
            | .ok (channel, memory) =>
                some (system.matchPeer worker visit peer channel memory)
          else some (system.skipPeer worker visit peer)
      | .cancelling owner pass => system.runPass worker owner pass
      | .waking visit peer =>
          match system.control peer.threadId with
          | .blocked => some (system.wake worker visit peer)
          | .idle => some (system.wakeMissed worker visit peer)
          | .broken => some (system.wakeMissed worker visit peer)
          | _ => none
      | .handled visit =>
          if (system.instruction worker).isAlt then
            if visit.queued = [] then
              some ((system.writeIndex worker visit.index).finish worker)
            else
              some (system.setControl worker
                (.cancelling (.handled visit)
                  (CancelPass.start (system.instruction worker))))
          else some (system.finish worker)
      | .withdrawable =>
          if system.pendingRequest worker then some (system.withdraw worker)
          else some ((system.unlockRequest worker).suspend worker)

/-- A system before any channel instruction: new channels, and no thread has
made a request. -/
structure Initial [Inhabited Value] (system : VmState Value) : Prop where
  created : ∀ channel, ∃ bufferLen, Channel.create bufferLen = .ok (system.channels channel)
  notPending : ∀ threadId, system.pendingRequest threadId = false
  dataUnlocked : ∀ channel, system.dataLock channel = none
  requestUnlocked : ∀ threadId, system.requestLock threadId = none
  idle : ∀ threadId, system.control threadId = .idle
  serial : ∀ threadId, system.serial threadId = 0
  phase : ∀ threadId, system.phase threadId = .quiet
  transfers : system.transfers = []
  written : ∀ threadId, system.written threadId = []
  suspensions : ∀ threadId, system.suspensions threadId = 0
  wakeups : ∀ threadId, system.wakeups threadId = 0

end VmState

end ChannelSystem

end Disvm
