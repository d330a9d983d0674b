import Disvm.ChannelModel
import Disvm.TransitionRuns
import Mathlib.Data.List.Nodup
import Mathlib.Logic.Function.Basic

/-!
# First-in first-out delivery through a channel

Send, receive and cancel operations of any number of threads run on one channel
in any order.  The flags of the threads also change because of other channels,
and the threads write their own memory between operations.  The world below
logs, next to the program state, the sends that were accepted and the values
that were delivered, and the main result relates the two logs to the contents
of the circular buffer.
-/

namespace Disvm.ChannelFifo

variable {Callback Value : Type*}

/-- One channel with the request flags of all threads, program memory, and the
logs.  The callback object of a request is made for that request alone, so it
identifies the request in the logs. -/
structure World (Callback Value : Type*) where
  channel : Channel Callback Value
  pendingRequest : ThreadId → Bool
  memory : Address → Value
  issued : List Callback
  accepted : List (Callback × Value)
  withdrawn : List Callback
  delivered : List Value

/-- The result of an operation: whether the request was handled at once, and
the queued request whose callback is invoked at the end. -/
structure Served (Callback Value : Type*) where
  world : World Callback Value
  handled : Bool
  notified : Option (Request Callback)

/-- Clear the pending flag of a thread. -/
def World.clearPending (threadId : ThreadId) (world : World Callback Value) :
    World Callback Value :=
  { world with pendingRequest := Function.update world.pendingRequest threadId false }

/-- The loop of `send_data` over the receiver queue. -/
def sendLoop (sendRequest : Request Callback) :
    List (Request Callback) → World Callback Value →
      Except VmException (Served Callback Value)
  | [], world =>
      let emptied := { world.channel with dataReceivers := [] }
      let queued : Served Callback Value :=
        { world :=
            { world with
              channel :=
                { emptied with dataSenders := emptied.dataSenders ++ [sendRequest] } }
          handled := false
          notified := none }
      match emptied.dataBuffer with
      | none => .ok queued
      | some cells =>
          match Channel.trySendToBuffer world.memory cells sendRequest emptied with
          | .error exception => .error exception
          | .ok none => .ok queued
          | .ok (some channel) =>
              .ok
                { world :=
                    { world.clearPending sendRequest.threadId with
                      channel := channel
                      accepted := world.accepted ++
                        [(sendRequest.requestHandledCallback, world.memory sendRequest.data)] }
                  handled := true
                  notified := none }
  | receiver :: rest, world =>
      if world.pendingRequest receiver.threadId then
        let cleared := (world.clearPending sendRequest.threadId).clearPending receiver.threadId
        let memory := Function.update world.memory receiver.data (world.memory sendRequest.data)
        .ok
          { world :=
              { cleared with
                channel := { world.channel with dataReceivers := rest }
                memory := memory
                accepted := world.accepted ++
                  [(sendRequest.requestHandledCallback, world.memory sendRequest.data)]
                delivered := world.delivered ++ [memory receiver.data] }
            handled := true
            notified := some receiver }
      else
        sendLoop sendRequest rest world

/-- `send_data`. -/
def sendData (sendRequest : Request Callback) (world : World Callback Value) :
    Except VmException (Served Callback Value) :=
  if world.pendingRequest sendRequest.threadId then
    sendLoop sendRequest world.channel.dataReceivers world
  else
    .ok { world := world, handled := false, notified := none }

/-- Move the value at the sender's address to the receiver's address. -/
def transferDirectly (sender receiveRequest : Request Callback)
    (world : World Callback Value) : World Callback Value :=
  let memory := Function.update world.memory receiveRequest.data (world.memory sender.data)
  { world with
    memory := memory
    accepted := world.accepted ++
      [(sender.requestHandledCallback, world.memory sender.data)]
    delivered := world.delivered ++ [memory receiveRequest.data] }

/-- Hand the oldest buffered value to the receiver and let the queued sender
use the free slot, or transfer directly when nothing is buffered. -/
def receiveFromSender (sender receiveRequest : Request Callback)
    (world : World Callback Value) : Except VmException (World Callback Value) :=
  match world.channel.dataBuffer with
  | none => .ok (transferDirectly sender receiveRequest world)
  | some cells =>
      match Channel.tryReceiveFromBuffer cells world.channel with
      | .error exception => .error exception
      | .ok none => .ok (transferDirectly sender receiveRequest world)
      | .ok (some (channel, value)) =>
          let memory := Function.update world.memory receiveRequest.data value
          let received :=
            { world with
              channel := channel
              memory := memory
              delivered := world.delivered ++ [value] }
          match Channel.trySendToBuffer memory cells sender channel with
          | .error exception => .error exception
          -- the code only asserts that there is room
          | .ok none => .ok received
          | .ok (some refilled) =>
              .ok
                { received with
                  channel := refilled
                  accepted := world.accepted ++
                    [(sender.requestHandledCallback, memory sender.data)] }

/-- The loop of `receive_data` over the sender queue. -/
def receiveLoop (receiveRequest : Request Callback) :
    List (Request Callback) → World Callback Value →
      Except VmException (Served Callback Value)
  | [], world =>
      let emptied := { world.channel with dataSenders := [] }
      let queued : Served Callback Value :=
        { world :=
            { world with
              channel :=
                { emptied with dataReceivers := emptied.dataReceivers ++ [receiveRequest] } }
          handled := false
          notified := none }
      match emptied.dataBuffer with
      | none => .ok queued
      | some cells =>
          match Channel.tryReceiveFromBuffer cells emptied with
          | .error exception => .error exception
          | .ok none => .ok queued
          | .ok (some (channel, value)) =>
              .ok
                { world :=
                    { world.clearPending receiveRequest.threadId with
                      channel := channel
                      memory := Function.update world.memory receiveRequest.data value
                      delivered := world.delivered ++ [value] }
                  handled := true
                  notified := none }
  | sender :: rest, world =>
      if world.pendingRequest sender.threadId then
        let cleared := (world.clearPending receiveRequest.threadId).clearPending sender.threadId
        match receiveFromSender sender receiveRequest
            { cleared with channel := { world.channel with dataSenders := rest } } with
        | .error exception => .error exception
        | .ok after => .ok { world := after, handled := true, notified := some sender }
      else
        receiveLoop receiveRequest rest world

/-- `receive_data`. -/
def receiveData (receiveRequest : Request Callback) (world : World Callback Value) :
    Except VmException (Served Callback Value) :=
  if world.pendingRequest receiveRequest.threadId then
    receiveLoop receiveRequest world.channel.dataSenders world
  else
    .ok { world := world, handled := false, notified := none }

/-- The send request that `cancel_request` removes, if it removes one. -/
def withdrawnBy (threadId : ThreadId) (channel : Channel Callback Value) :
    List Callback :=
  if channel.dataReceivers.any (·.threadId == threadId) then
    []
  else
    ((channel.dataSenders.find? (·.threadId == threadId)).map
      Request.requestHandledCallback).toList

/-- `cancel_request`. -/
def cancel (threadId : ThreadId) (world : World Callback Value) :
    World Callback Value :=
  { world with
    channel := Channel.cancelRequest threadId world.channel
    withdrawn := withdrawnBy threadId world.channel ++ world.withdrawn }

/-- The thread has a request in one of the queues of the channel. -/
def Outstanding (threadId : ThreadId) (world : World Callback Value) : Prop :=
  ∃ request, (request ∈ world.channel.dataSenders ∨
    request ∈ world.channel.dataReceivers) ∧ request.threadId = threadId

/-- A request with a new callback object from a thread that has no other
request on the channel. -/
def Admissible (request : Request Callback) (world : World Callback Value) : Prop :=
  ¬ Outstanding request.threadId world ∧ request.requestHandledCallback ∉ world.issued

/-- Record that a request was made. -/
def issue (request : Request Callback) (world : World Callback Value) :
    World Callback Value :=
  { world with issued := request.requestHandledCallback :: world.issued }

/-- One atomic step of some thread.  A thread raises its flag before it makes
requests; the flag also falls when a request is handled by another channel. -/
inductive Step : World Callback Value → World Callback Value → Prop
  | raiseFlag (threadId : ThreadId) (world : World Callback Value)
      (idle : world.pendingRequest threadId = false) :
      Step world
        { world with pendingRequest := Function.update world.pendingRequest threadId true }
  | handledElsewhere (threadId : ThreadId) (world : World Callback Value) :
      Step world (world.clearPending threadId)
  | store (address : Address) (value : Value) (world : World Callback Value) :
      Step world { world with memory := Function.update world.memory address value }
  | send (request : Request Callback) (world : World Callback Value)
      (served : Served Callback Value) (admissible : Admissible request world)
      (sent : sendData request (issue request world) = .ok served) :
      Step world served.world
  | receive (request : Request Callback) (world : World Callback Value)
      (served : Served Callback Value) (admissible : Admissible request world)
      (received : receiveData request (issue request world) = .ok served) :
      Step world served.world
  | cancel (threadId : ThreadId) (world : World Callback Value) :
      Step world (cancel threadId world)

/-- A newly created channel of the given buffer length, no thread operating on it. -/
def Initial [Inhabited Value] (bufferLen : Int) (world : World Callback Value) : Prop :=
  Channel.create bufferLen = .ok world.channel ∧
    (∀ threadId, world.pendingRequest threadId = false) ∧
      world.issued = [] ∧ world.accepted = [] ∧ world.withdrawn = [] ∧ world.delivered = []

/-- The queues are one-sided, senders wait only behind a full buffer and
receivers only at an empty one, and the logs differ by the buffered values. -/
structure Delivery (world : World Callback Value) : Prop where
  bounded : world.channel.Bounded
  sendersFull : world.channel.dataSenders ≠ [] →
    world.channel.dataBufferCount = world.channel.getBufferSize
  receiversEmpty : world.channel.dataReceivers ≠ [] →
    world.channel.dataBufferCount = 0
  oneSided : world.channel.dataSenders = [] ∨ world.channel.dataReceivers = []
  fifo : world.delivered ++ world.channel.buffered = world.accepted.map Prod.snd

/-- Every send is accepted at most once, and neither before it leaves the queue
nor after it was cancelled. -/
structure Ledger (issued accepted queued withdrawn : List Callback) : Prop where
  acceptedOnce : accepted.Nodup
  acceptedIssued : ∀ callback ∈ accepted, callback ∈ issued
  queuedOnce : queued.Nodup
  queuedWaiting : ∀ callback ∈ queued, callback ∈ issued ∧ callback ∉ accepted
  withdrawnFinal : ∀ callback ∈ withdrawn,
    callback ∈ issued ∧ callback ∉ accepted ∧ callback ∉ queued

def Accounting (world : World Callback Value) : Prop :=
  Ledger world.issued (world.accepted.map Prod.fst)
    (world.channel.dataSenders.map Request.requestHandledCallback) world.withdrawn

theorem buffered_eq_nil {channel : Channel Callback Value}
    (empty : channel.dataBufferCount = 0) : channel.buffered = [] := by
  unfold Channel.buffered
  split
  · rfl
  · rw [empty, Ring.window_zero]

/-- The request joins the sender queue behind a full or absent buffer. -/
def queueSender (request : Request Callback) (world : World Callback Value) :
    World Callback Value :=
  { world with
    channel :=
      { world.channel with
        dataReceivers := []
        dataSenders := world.channel.dataSenders ++ [request] } }

/-- The ways `send_data` can end once the sender's flag was found raised. -/
inductive SendOutcome (request : Request Callback) (world : World Callback Value) :
    Served Callback Value → Prop
  | queued (full : world.channel.dataBufferCount = world.channel.getBufferSize) :
      SendOutcome request world ⟨queueSender request world, false, none⟩
  | stored (channel : Channel Callback Value)
      (sent : Channel.SentToBuffer world.memory request
        { world.channel with dataReceivers := [] } channel) :
      SendOutcome request world
        ⟨{ world.clearPending request.threadId with
            channel := channel
            accepted := world.accepted ++
              [(request.requestHandledCallback, world.memory request.data)] }, true, none⟩
  | handed (receiver : Request Callback) (rest : List (Request Callback))
      (front : receiver :: rest <:+ world.channel.dataReceivers)
      (live : world.pendingRequest receiver.threadId = true) :
      SendOutcome request world
        ⟨{ (world.clearPending request.threadId).clearPending receiver.threadId with
            channel := { world.channel with dataReceivers := rest }
            memory := Function.update world.memory receiver.data (world.memory request.data)
            accepted := world.accepted ++
              [(request.requestHandledCallback, world.memory request.data)]
            delivered := world.delivered ++ [world.memory request.data] }, true,
          some receiver⟩

theorem sendLoop_spec (request : Request Callback) {world : World Callback Value}
    (bounded : world.channel.Bounded) {receivers : List (Request Callback)}
    (remaining : receivers <:+ world.channel.dataReceivers) :
    ∃ served, sendLoop request receivers world = .ok served ∧
      SendOutcome request world served := by
  induction receivers with
  | nil =>
      cases buffer : world.channel.dataBuffer with
      | none =>
          have full : world.channel.dataBufferCount = world.channel.getBufferSize := by
            have fits := bounded.countFits
            rw [Channel.getBufferSize_none buffer] at fits ⊢
            omega
          refine ⟨_, ?_, .queued full⟩
          simp only [sendLoop, buffer, queueSender]
      | some cells =>
          have emptiedBounded :
              ({ world.channel with dataReceivers := [] } : Channel Callback Value).Bounded :=
            bounded.of_buffer_eq rfl rfl rfl
          rcases Channel.trySendToBuffer_spec world.memory request
            emptiedBounded buffer with ⟨refused, full⟩ | ⟨after, sent, spec⟩
          · refine ⟨_, ?_, .queued full⟩
            simp only [sendLoop, buffer] at refused ⊢
            simp only [refused, queueSender, buffer]
          · refine ⟨_, ?_, .stored after spec⟩
            simp only [sendLoop, buffer] at sent ⊢
            simp only [sent]
  | cons receiver rest ih =>
      by_cases live : world.pendingRequest receiver.threadId = true
      · refine ⟨_, ?_, .handed receiver rest remaining live⟩
        simp [sendLoop, live]
      · obtain ⟨served, looped, outcome⟩ :=
          ih ((List.suffix_cons receiver rest).trans remaining)
        refine ⟨served, ?_, outcome⟩
        rw [sendLoop, if_neg live]
        exact looped

/-- `send_data` never throws on a channel whose indices are in bounds. -/
theorem sendData_spec (request : Request Callback) {world : World Callback Value}
    (bounded : world.channel.Bounded) :
    sendData request world = .ok ⟨world, false, none⟩ ∨
      ∃ served, sendData request world = .ok served ∧ SendOutcome request world served := by
  unfold sendData
  by_cases live : world.pendingRequest request.threadId = true
  · rw [if_pos live]
    exact Or.inr (sendLoop_spec request bounded List.suffix_rfl)
  · rw [if_neg live]
    exact Or.inl rfl

/-- The request joins the receiver queue of a channel with nothing buffered. -/
def queueReceiver (request : Request Callback) (world : World Callback Value) :
    World Callback Value :=
  { world with
    channel :=
      { world.channel with
        dataSenders := []
        dataReceivers := world.channel.dataReceivers ++ [request] } }

/-- The ways `receive_data` can end once the receiver's flag was found raised. -/
inductive ReceiveOutcome (request : Request Callback) (world : World Callback Value) :
    Served Callback Value → Prop
  | queued (empty : world.channel.dataBufferCount = 0) :
      ReceiveOutcome request world ⟨queueReceiver request world, false, none⟩
  | taken (channel : Channel Callback Value) (value : Value)
      (received : Channel.ReceivedFromBuffer
        { world.channel with dataSenders := [] } channel value) :
      ReceiveOutcome request world
        ⟨{ world.clearPending request.threadId with
            channel := channel
            memory := Function.update world.memory request.data value
            delivered := world.delivered ++ [value] }, true, none⟩
  | handed (sender : Request Callback) (rest : List (Request Callback))
      (front : sender :: rest <:+ world.channel.dataSenders)
      (live : world.pendingRequest sender.threadId = true)
      (empty : world.channel.dataBufferCount = 0) :
      ReceiveOutcome request world
        ⟨{ (world.clearPending request.threadId).clearPending sender.threadId with
            channel := { world.channel with dataSenders := rest }
            memory := Function.update world.memory request.data (world.memory sender.data)
            accepted := world.accepted ++
              [(sender.requestHandledCallback, world.memory sender.data)]
            delivered := world.delivered ++ [world.memory sender.data] }, true,
          some sender⟩
  | refilled (sender : Request Callback) (rest : List (Request Callback))
      (front : sender :: rest <:+ world.channel.dataSenders)
      (live : world.pendingRequest sender.threadId = true)
      (middle after : Channel Callback Value) (value : Value)
      (received : Channel.ReceivedFromBuffer
        { world.channel with dataSenders := rest } middle value)
      (sent : Channel.SentToBuffer (Function.update world.memory request.data value)
        sender middle after) :
      ReceiveOutcome request world
        ⟨{ (world.clearPending request.threadId).clearPending sender.threadId with
            channel := after
            memory := Function.update world.memory request.data value
            accepted := world.accepted ++ [(sender.requestHandledCallback,
              Function.update world.memory request.data value sender.data)]
            delivered := world.delivered ++ [value] }, true, some sender⟩

theorem receiveFromSender_spec {sender : Request Callback} (request : Request Callback)
    {rest : List (Request Callback)} {world : World Callback Value}
    (bounded : world.channel.Bounded)
    (front : sender :: rest <:+ world.channel.dataSenders)
    (live : world.pendingRequest sender.threadId = true) :
    ∃ after, receiveFromSender sender request
        { (world.clearPending request.threadId).clearPending sender.threadId with
          channel := { world.channel with dataSenders := rest } } = .ok after ∧
      ReceiveOutcome request world ⟨after, true, some sender⟩ := by
  have poppedBounded :
      ({ world.channel with dataSenders := rest } : Channel Callback Value).Bounded :=
    bounded.of_buffer_eq rfl rfl rfl
  unfold receiveFromSender
  cases buffer : world.channel.dataBuffer with
  | none =>
      have empty : world.channel.dataBufferCount = 0 := by
        have fits := bounded.countFits
        rw [Channel.getBufferSize_none buffer] at fits
        omega
      refine ⟨_, rfl, ?_⟩
      simp only [transferDirectly, Function.update_self]
      exact .handed sender rest front live empty
  | some cells =>
      rcases Channel.tryReceiveFromBuffer_spec poppedBounded buffer with
        ⟨refused, empty⟩ | ⟨middle, value, received, spec⟩
      · simp only [refused]
        refine ⟨_, rfl, ?_⟩
        simp only [transferDirectly, Function.update_self]
        exact .handed sender rest front live empty
      · simp only [received]
        have middleBuffer : middle.dataBuffer = some cells := spec.present.trans buffer
        rcases Channel.trySendToBuffer_spec
          (Function.update world.memory request.data value) sender
          spec.bounded middleBuffer with ⟨_, full⟩ | ⟨after, sent, sentSpec⟩
        · -- the value just taken leaves room
          have fits := poppedBounded.countFits
          have := spec.count
          have := spec.size
          omega
        · refine ⟨_, ?_, .refilled sender rest front live middle after value spec sentSpec⟩
          simp only [World.clearPending, sent]

theorem receiveLoop_spec (request : Request Callback) {world : World Callback Value}
    (bounded : world.channel.Bounded) {senders : List (Request Callback)}
    (remaining : senders <:+ world.channel.dataSenders) :
    ∃ served, receiveLoop request senders world = .ok served ∧
      ReceiveOutcome request world served := by
  induction senders with
  | nil =>
      cases buffer : world.channel.dataBuffer with
      | none =>
          have empty : world.channel.dataBufferCount = 0 := by
            have fits := bounded.countFits
            rw [Channel.getBufferSize_none buffer] at fits
            omega
          refine ⟨_, ?_, .queued empty⟩
          simp only [receiveLoop, buffer, queueReceiver]
      | some cells =>
          have emptiedBounded :
              ({ world.channel with dataSenders := [] } : Channel Callback Value).Bounded :=
            bounded.of_buffer_eq rfl rfl rfl
          rcases Channel.tryReceiveFromBuffer_spec emptiedBounded buffer with
            ⟨refused, empty⟩ | ⟨after, value, received, spec⟩
          · refine ⟨_, ?_, .queued empty⟩
            simp only [receiveLoop, buffer] at refused ⊢
            simp only [refused, queueReceiver, buffer]
          · refine ⟨_, ?_, .taken after value spec⟩
            simp only [receiveLoop, buffer] at received ⊢
            simp only [received]
  | cons sender rest ih =>
      by_cases live : world.pendingRequest sender.threadId = true
      · obtain ⟨after, handed, outcome⟩ :=
          receiveFromSender_spec request bounded remaining live
        refine ⟨_, ?_, outcome⟩
        rw [receiveLoop, if_pos live]
        simp only [handed]
      · obtain ⟨served, looped, outcome⟩ :=
          ih ((List.suffix_cons sender rest).trans remaining)
        refine ⟨served, ?_, outcome⟩
        rw [receiveLoop, if_neg live]
        exact looped

/-- `receive_data` never throws on a channel whose indices are in bounds. -/
theorem receiveData_spec (request : Request Callback) {world : World Callback Value}
    (bounded : world.channel.Bounded) :
    receiveData request world = .ok ⟨world, false, none⟩ ∨
      ∃ served, receiveData request world = .ok served ∧
        ReceiveOutcome request world served := by
  unfold receiveData
  by_cases live : world.pendingRequest request.threadId = true
  · rw [if_pos live]
    exact Or.inr (receiveLoop_spec request bounded List.suffix_rfl)
  · rw [if_neg live]
    exact Or.inl rfl

theorem delivery_of_sendOutcome {request : Request Callback}
    {world : World Callback Value} {served : Served Callback Value}
    (delivery : Delivery world) (outcome : SendOutcome request world served) :
    Delivery served.world := by
  cases outcome with
  | queued full =>
      exact
        { bounded := delivery.bounded.of_buffer_eq rfl rfl rfl
          sendersFull := fun _ => full
          receiversEmpty := fun nonempty => (nonempty rfl).elim
          oneSided := Or.inr rfl
          fifo := delivery.fifo }
  | stored channel sent =>
      have noSenders : world.channel.dataSenders = [] := by
        by_contra waiting
        have := delivery.sendersFull waiting
        have room : world.channel.dataBufferCount < world.channel.getBufferSize := sent.room
        omega
      refine ⟨sent.bounded, fun waiting => ?_, fun waiting => ?_, Or.inr sent.receivers, ?_⟩
      · exact (waiting (sent.senders.trans noSenders)).elim
      · exact (waiting sent.receivers).elim
      · have appended : channel.buffered =
            world.channel.buffered ++ [world.memory request.data] := sent.appended
        change world.delivered ++ channel.buffered = _
        simp only [List.map_append, List.map_cons, List.map_nil]
        rw [appended, ← List.append_assoc, delivery.fifo]
  | handed receiver rest front live =>
      have waiting : world.channel.dataReceivers ≠ [] := by
        intro none
        rw [none] at front
        simp at front
      have empty := delivery.receiversEmpty waiting
      have noSenders := delivery.oneSided.resolve_right waiting
      refine ⟨delivery.bounded.of_buffer_eq rfl rfl rfl, fun waits => (waits noSenders).elim,
        fun _ => empty, Or.inl noSenders, ?_⟩
      have nothingBuffered : world.channel.buffered = [] := buffered_eq_nil empty
      have logs := delivery.fifo
      rw [nothingBuffered, List.append_nil] at logs
      have popped : ({ world.channel with dataReceivers := rest } :
          Channel Callback Value).buffered = [] := nothingBuffered
      simp only [List.map_append, List.map_cons, List.map_nil]
      rw [popped, List.append_nil, logs]

theorem delivery_of_receiveOutcome {request : Request Callback}
    {world : World Callback Value} {served : Served Callback Value}
    (delivery : Delivery world) (outcome : ReceiveOutcome request world served) :
    Delivery served.world := by
  cases outcome with
  | queued empty =>
      exact
        { bounded := delivery.bounded.of_buffer_eq rfl rfl rfl
          sendersFull := fun nonempty => (nonempty rfl).elim
          receiversEmpty := fun _ => empty
          oneSided := Or.inl rfl
          fifo := delivery.fifo }
  | taken channel value received =>
      have noReceivers : world.channel.dataReceivers = [] := by
        by_contra waiting
        have := delivery.receiversEmpty waiting
        have count : channel.dataBufferCount + 1 = world.channel.dataBufferCount :=
          received.count
        omega
      refine ⟨received.bounded, fun waiting => ?_, fun waiting => ?_,
        Or.inl received.senders, ?_⟩
      · exact (waiting received.senders).elim
      · exact (waiting (received.receivers.trans noReceivers)).elim
      · have removed : world.channel.buffered = value :: channel.buffered := received.removed
        simp only [World.clearPending]
        rw [List.append_assoc, List.singleton_append, ← removed, delivery.fifo]
  | handed sender rest front live empty =>
      have waiting : world.channel.dataSenders ≠ [] := by
        intro none
        rw [none] at front
        simp at front
      have noReceivers := delivery.oneSided.resolve_left waiting
      have full := delivery.sendersFull waiting
      refine ⟨delivery.bounded.of_buffer_eq rfl rfl rfl, fun _ => full,
        fun waits => (waits noReceivers).elim, Or.inr noReceivers, ?_⟩
      have nothingBuffered : world.channel.buffered = [] := buffered_eq_nil empty
      have logs := delivery.fifo
      rw [nothingBuffered, List.append_nil] at logs
      have popped : ({ world.channel with dataSenders := rest } :
          Channel Callback Value).buffered = [] := nothingBuffered
      simp only [List.map_append, List.map_cons, List.map_nil]
      rw [popped, List.append_nil, logs]
  | refilled sender rest front live middle after value received sent =>
      have waiting : world.channel.dataSenders ≠ [] := by
        intro none
        rw [none] at front
        simp at front
      have noReceivers := delivery.oneSided.resolve_left waiting
      have full := delivery.sendersFull waiting
      have taken : middle.dataBufferCount + 1 = world.channel.dataBufferCount := received.count
      have middleSize : middle.getBufferSize = world.channel.getBufferSize := received.size
      have receiversEq : after.dataReceivers = [] := calc
        after.dataReceivers = middle.dataReceivers := sent.receivers
        _ = world.channel.dataReceivers := received.receivers
        _ = [] := noReceivers
      refine ⟨sent.bounded, fun _ => ?_, fun waits => (waits receiversEq).elim,
        Or.inr receiversEq, ?_⟩
      · have := sent.count
        have := sent.size
        simp only
        omega
      · have removed : world.channel.buffered = value :: middle.buffered := received.removed
        simp only [List.map_append, List.map_cons, List.map_nil]
        rw [sent.appended, ← delivery.fifo, removed]
        simp

theorem delivery_cancel {world : World Callback Value} (threadId : ThreadId)
    (delivery : Delivery world) : Delivery (cancel threadId world) := by
  have senders := Channel.cancelRequest_dataSenders_sublist threadId world.channel
  have receivers := Channel.cancelRequest_dataReceivers_sublist threadId world.channel
  refine ⟨delivery.bounded.of_buffer_eq (by simp [cancel]) (by simp [cancel])
    (by simp [cancel]), fun waiting => ?_, fun waiting => ?_, ?_, ?_⟩
  · have waited : world.channel.dataSenders ≠ [] := by
      intro none
      rw [none] at senders
      exact waiting (List.sublist_nil.mp senders)
    simpa [cancel] using delivery.sendersFull waited
  · have waited : world.channel.dataReceivers ≠ [] := by
      intro none
      rw [none] at receivers
      exact waiting (List.sublist_nil.mp receivers)
    simpa [cancel] using delivery.receiversEmpty waited
  · rcases delivery.oneSided with none | none
    · rw [none] at senders
      exact Or.inl (List.sublist_nil.mp senders)
    · rw [none] at receivers
      exact Or.inr (List.sublist_nil.mp receivers)
  · simpa [cancel] using delivery.fifo

namespace Ledger

variable {issued accepted queued withdrawn : List Callback}

theorem issue (ledger : Ledger issued accepted queued withdrawn) (callback : Callback) :
    Ledger (callback :: issued) accepted queued withdrawn where
  acceptedOnce := ledger.acceptedOnce
  acceptedIssued other member := List.mem_cons_of_mem _ (ledger.acceptedIssued other member)
  queuedOnce := ledger.queuedOnce
  queuedWaiting other member :=
    ⟨List.mem_cons_of_mem _ (ledger.queuedWaiting other member).1,
      (ledger.queuedWaiting other member).2⟩
  withdrawnFinal other member :=
    ⟨List.mem_cons_of_mem _ (ledger.withdrawnFinal other member).1,
      (ledger.withdrawnFinal other member).2⟩

/-- A callback object that occurs in none of the lists. -/
structure Unseen (callback : Callback) (accepted queued withdrawn : List Callback) :
    Prop where
  notAccepted : callback ∉ accepted
  notQueued : callback ∉ queued
  notWithdrawn : callback ∉ withdrawn

theorem unseen (ledger : Ledger issued accepted queued withdrawn) {callback : Callback}
    (fresh : callback ∉ issued) : Unseen callback accepted queued withdrawn where
  notAccepted member := fresh (ledger.acceptedIssued callback member)
  notQueued member := fresh (ledger.queuedWaiting callback member).1
  notWithdrawn member := fresh (ledger.withdrawnFinal callback member).1

theorem enqueue (ledger : Ledger issued accepted queued withdrawn) {callback : Callback}
    (isIssued : callback ∈ issued) (unseen : Unseen callback accepted queued withdrawn) :
    Ledger issued accepted (queued ++ [callback]) withdrawn where
  acceptedOnce := ledger.acceptedOnce
  acceptedIssued := ledger.acceptedIssued
  queuedOnce := by
    rw [List.nodup_append]
    refine ⟨ledger.queuedOnce, List.nodup_singleton _, fun first member second last => ?_⟩
    rw [List.mem_singleton] at last
    rintro rfl
    exact unseen.notQueued (last ▸ member)
  queuedWaiting other member := by
    rcases List.mem_append.mp member with old | new
    · exact ledger.queuedWaiting other old
    · rw [List.mem_singleton.mp new]
      exact ⟨isIssued, unseen.notAccepted⟩
  withdrawnFinal other member := by
    obtain ⟨wasIssued, notAccepted, notQueued⟩ := ledger.withdrawnFinal other member
    refine ⟨wasIssued, notAccepted, fun present => ?_⟩
    rcases List.mem_append.mp present with old | new
    · exact notQueued old
    · exact unseen.notWithdrawn (List.mem_singleton.mp new ▸ member)

theorem accept (ledger : Ledger issued accepted queued withdrawn) {callback : Callback}
    (isIssued : callback ∈ issued) (unseen : Unseen callback accepted queued withdrawn) :
    Ledger issued (accepted ++ [callback]) queued withdrawn where
  acceptedOnce := by
    rw [List.nodup_append]
    refine ⟨ledger.acceptedOnce, List.nodup_singleton _, fun first member second last => ?_⟩
    rw [List.mem_singleton] at last
    rintro rfl
    exact unseen.notAccepted (last ▸ member)
  acceptedIssued other member := by
    rcases List.mem_append.mp member with old | new
    · exact ledger.acceptedIssued other old
    · rw [List.mem_singleton.mp new]
      exact isIssued
  queuedOnce := ledger.queuedOnce
  queuedWaiting other member := by
    obtain ⟨wasIssued, notAccepted⟩ := ledger.queuedWaiting other member
    refine ⟨wasIssued, fun present => ?_⟩
    rcases List.mem_append.mp present with old | new
    · exact notAccepted old
    · exact unseen.notQueued (List.mem_singleton.mp new ▸ member)
  withdrawnFinal other member := by
    obtain ⟨wasIssued, notAccepted, notQueued⟩ := ledger.withdrawnFinal other member
    refine ⟨wasIssued, fun present => ?_, notQueued⟩
    rcases List.mem_append.mp present with old | new
    · exact notAccepted old
    · exact unseen.notWithdrawn (List.mem_singleton.mp new ▸ member)

theorem shrink (ledger : Ledger issued accepted queued withdrawn) {remaining : List Callback}
    (sublist : remaining.Sublist queued) : Ledger issued accepted remaining withdrawn where
  acceptedOnce := ledger.acceptedOnce
  acceptedIssued := ledger.acceptedIssued
  queuedOnce := ledger.queuedOnce.sublist sublist
  queuedWaiting other member := ledger.queuedWaiting other (sublist.subset member)
  withdrawnFinal other member := by
    obtain ⟨wasIssued, notAccepted, notQueued⟩ := ledger.withdrawnFinal other member
    exact ⟨wasIssued, notAccepted, fun present => notQueued (sublist.subset present)⟩

/-- Accept the request that stands in front of the remaining queue. -/
theorem acceptQueued (ledger : Ledger issued accepted queued withdrawn)
    {callback : Callback} {remaining : List Callback}
    (front : (callback :: remaining).Sublist queued) :
    Ledger issued (accepted ++ [callback]) remaining withdrawn := by
  have member : callback ∈ queued := front.subset (by simp)
  obtain ⟨isIssued, notAccepted⟩ := ledger.queuedWaiting callback member
  have notRemaining : callback ∉ remaining :=
    (List.nodup_cons.mp (ledger.queuedOnce.sublist front)).1
  have notWithdrawn : callback ∉ withdrawn := fun present =>
    (ledger.withdrawnFinal callback present).2.2 member
  exact (ledger.shrink ((List.sublist_cons_self _ _).trans front)).accept isIssued
    ⟨notAccepted, notRemaining, notWithdrawn⟩

theorem withdraw (ledger : Ledger issued accepted queued withdrawn)
    {removed remaining : List Callback} (sublist : remaining.Sublist queued)
    (wasQueued : ∀ callback ∈ removed, callback ∈ queued ∧ callback ∉ remaining) :
    Ledger issued accepted remaining (removed ++ withdrawn) where
  acceptedOnce := ledger.acceptedOnce
  acceptedIssued := ledger.acceptedIssued
  queuedOnce := ledger.queuedOnce.sublist sublist
  queuedWaiting other member := ledger.queuedWaiting other (sublist.subset member)
  withdrawnFinal other member := by
    rcases List.mem_append.mp member with new | old
    · obtain ⟨present, gone⟩ := wasQueued other new
      obtain ⟨wasIssued, notAccepted⟩ := ledger.queuedWaiting other present
      exact ⟨wasIssued, notAccepted, gone⟩
    · obtain ⟨wasIssued, notAccepted, notQueued⟩ := ledger.withdrawnFinal other old
      exact ⟨wasIssued, notAccepted, fun present => notQueued (sublist.subset present)⟩

end Ledger

theorem accounting_of_sendOutcome {request : Request Callback}
    {world : World Callback Value} {served : Served Callback Value}
    (accounting : Accounting world) (fresh : request.requestHandledCallback ∉ world.issued)
    (outcome : SendOutcome request (issue request world) served) :
    Accounting served.world := by
  have unseen := accounting.unseen fresh
  have issued : Accounting (issue request world) := accounting.issue _
  have isIssued : request.requestHandledCallback ∈ (issue request world).issued := by
    simp [issue]
  cases outcome with
  | queued full =>
      have := issued.enqueue isIssued unseen
      simpa [Accounting, queueSender] using this
  | stored channel sent =>
      have := issued.accept isIssued unseen
      have sendersEq : channel.dataSenders = (issue request world).channel.dataSenders :=
        sent.senders
      simpa [Accounting, World.clearPending, sendersEq] using this
  | handed receiver rest front live =>
      have := issued.accept isIssued unseen
      simpa [Accounting, World.clearPending] using this

theorem accounting_of_receiveOutcome {request : Request Callback}
    {world : World Callback Value} {served : Served Callback Value}
    (accounting : Accounting world) (outcome : ReceiveOutcome request world served) :
    Accounting served.world := by
  cases outcome with
  | queued empty =>
      have := accounting.shrink (List.nil_sublist _)
      simpa [Accounting, queueReceiver] using this
  | taken channel value received =>
      have sendersEq : channel.dataSenders = [] := received.senders
      have := accounting.shrink (List.nil_sublist _)
      simpa [Accounting, World.clearPending, sendersEq] using this
  | handed sender rest front live empty =>
      have := accounting.acceptQueued
        (front.sublist.map Request.requestHandledCallback)
      simpa [Accounting, World.clearPending] using this
  | refilled sender rest front live middle after value received sent =>
      have sendersEq : after.dataSenders = rest := sent.senders.trans received.senders
      have := accounting.acceptQueued
        (front.sublist.map Request.requestHandledCallback)
      simpa [Accounting, World.clearPending, sendersEq] using this

theorem accounting_cancel {world : World Callback Value} (threadId : ThreadId)
    (accounting : Accounting world) : Accounting (cancel threadId world) := by
  refine accounting.withdraw
    ((Channel.cancelRequest_dataSenders_sublist threadId world.channel).map _) ?_
  intro callback member
  unfold withdrawnBy at member
  split at member
  · simp at member
  · rename_i noReceiver
    simp only [Option.mem_toList, Option.map_eq_some_iff] at member
    obtain ⟨request, found, rfl⟩ := member
    obtain ⟨isOwn, before, after, split, others⟩ :=
      List.find?_eq_some_iff_append.mp found
    have erased : (Channel.cancelRequest threadId world.channel).dataSenders =
        before ++ after := by
      unfold Channel.cancelRequest
      rw [if_neg noReceiver]
      simp only
      rw [split,
        List.eraseP_append_right _ (fun other member => by simpa using others other member),
        List.eraseP_cons_of_pos (by simpa using isOwn)]
    have once := accounting.queuedOnce
    rw [split, List.map_append, List.map_cons] at once
    refine ⟨by rw [split]; simp, ?_⟩
    change _ ∉ List.map _ (Channel.cancelRequest threadId world.channel).dataSenders
    rw [erased, List.map_append]
    exact (List.nodup_middle.mp once |> List.nodup_cons.mp).1

structure Invariant (world : World Callback Value) : Prop where
  delivery : Delivery world
  accounting : Accounting world

theorem invariant_initial [Inhabited Value] {bufferLen : Int}
    {world : World Callback Value} (initial : Initial bufferLen world) :
    Invariant world := by
  obtain ⟨created, _, noneIssued, noneAccepted, noneWithdrawn, noneDelivered⟩ := initial
  obtain ⟨bounded, empty, count, senders, receivers, _⟩ := Channel.create_spec created
  constructor
  · exact
      { bounded := bounded
        sendersFull := fun waiting => (waiting senders).elim
        receiversEmpty := fun waiting => (waiting receivers).elim
        oneSided := Or.inl senders
        fifo := by rw [noneDelivered, noneAccepted, empty]; rfl }
  · unfold Accounting
    rw [noneIssued, noneAccepted, noneWithdrawn, senders]
    exact ⟨List.nodup_nil, by simp, List.nodup_nil, by simp, by simp⟩

theorem invariant_step {before after : World Callback Value}
    (invariant : Invariant before) (step : Step before after) : Invariant after := by
  obtain ⟨delivery, accounting⟩ := invariant
  cases step with
  | raiseFlag threadId idle =>
      exact ⟨⟨delivery.bounded, delivery.sendersFull, delivery.receiversEmpty,
        delivery.oneSided, delivery.fifo⟩, accounting⟩
  | handledElsewhere threadId =>
      exact ⟨⟨delivery.bounded, delivery.sendersFull, delivery.receiversEmpty,
        delivery.oneSided, delivery.fifo⟩, accounting⟩
  | store address value =>
      exact ⟨⟨delivery.bounded, delivery.sendersFull, delivery.receiversEmpty,
        delivery.oneSided, delivery.fifo⟩, accounting⟩
  | send request _ served admissible sent =>
      have issuedDelivery : Delivery (issue request before) :=
        ⟨delivery.bounded, delivery.sendersFull, delivery.receiversEmpty,
          delivery.oneSided, delivery.fifo⟩
      rcases sendData_spec request issuedDelivery.bounded with
        skipped | ⟨other, sentOther, outcome⟩
      · rw [skipped, Except.ok.injEq] at sent
        subst sent
        exact ⟨issuedDelivery, accounting.issue _⟩
      · rw [sentOther, Except.ok.injEq] at sent
        subst sent
        exact ⟨delivery_of_sendOutcome issuedDelivery outcome,
          accounting_of_sendOutcome accounting admissible.2 outcome⟩
  | receive request _ served admissible received =>
      have issuedDelivery : Delivery (issue request before) :=
        ⟨delivery.bounded, delivery.sendersFull, delivery.receiversEmpty,
          delivery.oneSided, delivery.fifo⟩
      have issuedAccounting : Accounting (issue request before) := accounting.issue _
      rcases receiveData_spec request issuedDelivery.bounded with
        skipped | ⟨other, receivedOther, outcome⟩
      · rw [skipped, Except.ok.injEq] at received
        subst received
        exact ⟨issuedDelivery, issuedAccounting⟩
      · rw [receivedOther, Except.ok.injEq] at received
        subst received
        exact ⟨delivery_of_receiveOutcome issuedDelivery outcome,
          accounting_of_receiveOutcome issuedAccounting outcome⟩
  | cancel threadId =>
      exact ⟨delivery_cancel threadId delivery, accounting_cancel threadId accounting⟩

/-- The worlds reached from a new channel of the given buffer length. -/
def Reached [Inhabited Value] (bufferLen : Int) : World Callback Value → Prop :=
  Transition.Reachable (Initial bufferLen) Step

theorem invariant_of_reached [Inhabited Value] {bufferLen : Int}
    {world : World Callback Value} (reached : Reached bufferLen world) : Invariant world :=
  Transition.Reachable.invariant Invariant
    (fun _ initial => invariant_initial initial)
    (fun _ _ _ invariant step => invariant_step invariant step) reached

/-- The request of an operation, when it is handled at once. -/
def Served.own (request : Request Callback) (served : Served Callback Value) :
    List (Request Callback) :=
  if served.handled then [request] else []

/-- What an operation logs is what program memory holds: the senders gave the
values at their addresses, the receivers find the delivered values at theirs,
and nothing else in memory changes. -/
structure Logged (world : World Callback Value) (senders receivers : List (Request Callback))
    (after : World Callback Value) : Prop where
  accepted : after.accepted = world.accepted ++
    senders.map fun sender => (sender.requestHandledCallback, after.memory sender.data)
  delivered : after.delivered = world.delivered ++
    receivers.map fun receiver => after.memory receiver.data
  elsewhere : ∀ address, (∀ receiver ∈ receivers, receiver.data ≠ address) →
    after.memory address = world.memory address

theorem logged_unchanged (world : World Callback Value) : Logged world [] [] world :=
  ⟨by simp, by simp, fun _ _ => rfl⟩

theorem update_elsewhere {memory : Address → Value} {receiver : Request Callback}
    (value : Value) {address : Address}
    (others : ∀ other ∈ [receiver], other.data ≠ address) :
    Function.update memory receiver.data value address = memory address :=
  Function.update_of_ne (Ne.symm (others receiver List.mem_cons_self)) _ _

/-- A value that is moved directly is at both addresses afterwards. -/
theorem update_given (memory : Address → Value) (sender receiver : Request Callback) :
    Function.update memory receiver.data (memory sender.data) sender.data =
      memory sender.data := by
  by_cases same : sender.data = receiver.data
  · rw [same, Function.update_self]
  · rw [Function.update_of_ne same]

theorem logged_of_sendOutcome {request : Request Callback} {world : World Callback Value}
    {served : Served Callback Value} (outcome : SendOutcome request world served) :
    Logged world (served.own request) served.notified.toList served.world := by
  cases outcome with
  | queued full => exact ⟨by simp [Served.own, queueSender], by simp [queueSender], fun _ _ => rfl⟩
  | stored channel sent =>
      exact ⟨by simp [Served.own, World.clearPending], by simp [World.clearPending],
        fun _ _ => rfl⟩
  | handed receiver rest front live =>
      have given := update_given world.memory request receiver
      exact ⟨by simp [Served.own, given], by simp, fun _ others => update_elsewhere _ others⟩

theorem logged_of_receiveOutcome {request : Request Callback} {world : World Callback Value}
    {served : Served Callback Value} (outcome : ReceiveOutcome request world served) :
    Logged world served.notified.toList (served.own request) served.world := by
  cases outcome with
  | queued empty =>
      exact ⟨by simp [queueReceiver], by simp [Served.own, queueReceiver], fun _ _ => rfl⟩
  | taken channel value received =>
      exact ⟨by simp [World.clearPending], by simp [Served.own], fun _ others =>
        update_elsewhere _ others⟩
  | handed sender rest front live empty =>
      have given := update_given world.memory sender request
      exact ⟨by simp [given], by simp [Served.own], fun _ others => update_elsewhere _ others⟩
  | refilled sender rest front live middle after value received sent =>
      exact ⟨by simp, by simp [Served.own], fun _ others => update_elsewhere _ others⟩

theorem logged_of_sendData {request : Request Callback} {world : World Callback Value}
    (bounded : world.channel.Bounded) {served : Served Callback Value}
    (sent : sendData request world = .ok served) :
    Logged world (served.own request) served.notified.toList served.world := by
  rcases sendData_spec request bounded with skipped | ⟨other, sentOther, outcome⟩
  · rw [skipped, Except.ok.injEq] at sent
    subst sent
    exact logged_unchanged world
  · rw [sentOther, Except.ok.injEq] at sent
    subst sent
    exact logged_of_sendOutcome outcome

theorem logged_of_receiveData {request : Request Callback} {world : World Callback Value}
    (bounded : world.channel.Bounded) {served : Served Callback Value}
    (received : receiveData request world = .ok served) :
    Logged world served.notified.toList (served.own request) served.world := by
  rcases receiveData_spec request bounded with skipped | ⟨other, receivedOther, outcome⟩
  · rw [skipped, Except.ok.injEq] at received
    subst received
    exact logged_unchanged world
  · rw [receivedOther, Except.ok.injEq] at received
    subst received
    exact logged_of_receiveOutcome outcome

/-- A queued request whose thread still waits for it. -/
def Live (world : World Callback Value) (queue : List (Request Callback)) : Prop :=
  ∃ request ∈ queue, world.pendingRequest request.threadId = true

/-- Values leave a channel in the order in which their sends were accepted,
none lost and none repeated, in every interleaving, and the receivers find them
in memory. -/
theorem fifo_delivery [Inhabited Value] {bufferLen : Int} {world : World Callback Value}
    (reached : Reached bufferLen world) :
    (world.delivered ++ world.channel.buffered = world.accepted.map Prod.snd ∧
      (world.accepted.map Prod.fst).Nodup ∧
      ∀ callback ∈ world.withdrawn, callback ∉ world.accepted.map Prod.fst) ∧
    ((∀ request served, sendData request world = .ok served →
        Logged world (served.own request) served.notified.toList served.world) ∧
      ∀ request served, receiveData request world = .ok served →
        Logged world served.notified.toList (served.own request) served.world) ∧
    (0 ≤ world.channel.dataBufferCount ∧
      world.channel.dataBufferCount ≤ world.channel.getBufferSize ∧
      (∀ cells, world.channel.dataBuffer = some cells →
        world.channel.dataBufferHead < cells.length) ∧
      (world.channel.dataBuffer = none → world.channel.dataBufferHead = 0)) ∧
    (Live world world.channel.dataSenders →
      world.channel.dataBuffer = none ∨
        world.channel.dataBufferCount = world.channel.getBufferSize) ∧
    (Live world world.channel.dataReceivers → world.channel.dataBufferCount = 0) ∧
    ¬ (Live world world.channel.dataSenders ∧ Live world world.channel.dataReceivers) := by
  obtain ⟨delivery, accounting⟩ := invariant_of_reached reached
  have nonempty {queue : List (Request Callback)} (live : Live world queue) : queue ≠ [] := by
    obtain ⟨request, member, _⟩ := live
    exact List.ne_nil_of_mem member
  refine ⟨⟨delivery.fifo, accounting.acceptedOnce, fun callback member =>
      (accounting.withdrawnFinal callback member).2.1⟩,
    ⟨fun _ _ => logged_of_sendData delivery.bounded,
      fun _ _ => logged_of_receiveData delivery.bounded⟩,
    ⟨Nat.zero_le _, delivery.bounded.countFits, delivery.bounded.headInside,
      delivery.bounded.headAbsent⟩, fun live => Or.inr (delivery.sendersFull (nonempty live)),
    fun live => delivery.receiversEmpty (nonempty live), ?_⟩
  rintro ⟨sender, receiver⟩
  rcases delivery.oneSided with none | none
  · exact nonempty sender none
  · exact nonempty receiver none

/-- The world around a channel on which no thread has operated yet. -/
def newWorld (channel : Channel Callback Value) (memory : Address → Value) :
    World Callback Value where
  channel := channel
  pendingRequest := fun _ => false
  memory := memory
  issued := []
  accepted := []
  withdrawn := []
  delivered := []

/-- The steps as a function, to replay them. -/
inductive Operation (Callback : Type*) where
  | raiseFlag (threadId : ThreadId)
  | send (request : Request Callback)
  | receive (request : Request Callback)
  | cancel (threadId : ThreadId)

instance (threadId : ThreadId) (world : World Callback Value) :
    Decidable (Outstanding threadId world) :=
  decidable_of_iff
    (∃ request ∈ world.channel.dataSenders ++ world.channel.dataReceivers,
      request.threadId = threadId) (by simp only [Outstanding, List.mem_append])

instance [DecidableEq Callback] (request : Request Callback) (world : World Callback Value) :
    Decidable (Admissible request world) :=
  inferInstanceAs (Decidable (_ ∧ _))

def perform [DecidableEq Callback] (world : World Callback Value) :
    Operation Callback → Option (World Callback Value)
  | .raiseFlag threadId =>
      if world.pendingRequest threadId then none
      else some { world with
        pendingRequest := Function.update world.pendingRequest threadId true }
  | .send request =>
      if Admissible request world then
        (sendData request (issue request world)).toOption.map Served.world
      else none
  | .receive request =>
      if Admissible request world then
        (receiveData request (issue request world)).toOption.map Served.world
      else none
  | .cancel threadId => some (cancel threadId world)

theorem step_of_perform [DecidableEq Callback] {world after : World Callback Value}
    {operation : Operation Callback} (performed : perform world operation = some after) :
    Step world after := by
  cases operation with
  | raiseFlag threadId =>
      simp only [perform] at performed
      split at performed
      · cases performed
      · next idle =>
          cases performed
          exact .raiseFlag threadId world (Bool.eq_false_iff.mpr idle)
  | send request =>
      simp only [perform] at performed
      split at performed
      · next admissible =>
          cases sent : sendData request (issue request world) with
          | error exception =>
              rw [sent] at performed
              cases performed
          | ok served =>
              rw [sent] at performed
              cases performed
              exact .send request world served admissible sent
      · cases performed
  | receive request =>
      simp only [perform] at performed
      split at performed
      · next admissible =>
          cases received : receiveData request (issue request world) with
          | error exception =>
              rw [received] at performed
              cases performed
          | ok served =>
              rw [received] at performed
              cases performed
              exact .receive request world served admissible received
      · cases performed
  | cancel threadId =>
      cases performed
      exact .cancel threadId world

theorem reached_of_perform [DecidableEq Callback] [Inhabited Value] {bufferLen : Int}
    {first last : World Callback Value} (initial : Initial bufferLen first)
    {operations : List (Operation Callback)}
    (performed : Transition.execute perform first operations = some last) :
    Reached bufferLen last := by
  have replayed : Transition.Reachable (Initial bufferLen)
      (Transition.StepsBy (fun _ _ => True) perform) last :=
    Transition.reachable_of_execute (Transition.Reachable.start initial)
      (fun _ _ _ => trivial) performed
  refine replayed.mono ?_
  rintro before after ⟨operation, -, edge⟩
  exact step_of_perform edge

/-- A channel with one cell, and memory that holds at each address the address. -/
def newChannel : World ℕ ℕ :=
  newWorld ⟨some [0], 0, 0, [], []⟩ id

/-- Threads 1 to 3 send, of which the second is queued and the third gives up, and
threads 4 and 5 receive. -/
def sendsAndReceives : List (Operation ℕ) :=
  [.raiseFlag 1, .send ⟨1, 10, 0⟩, .raiseFlag 2, .send ⟨2, 20, 1⟩, .raiseFlag 3,
    .send ⟨3, 30, 2⟩, .cancel 3, .raiseFlag 4, .receive ⟨4, 40, 3⟩, .raiseFlag 5,
    .receive ⟨5, 50, 4⟩, .raiseFlag 4, .receive ⟨4, 41, 5⟩]

theorem fifo_delivery_sendsAndReceives :
    ∃ world, Transition.execute perform newChannel sendsAndReceives = some world ∧
      world.delivered = [10, 20] ∧ world.withdrawn = [2] ∧
      world.delivered ++ world.channel.buffered = world.accepted.map Prod.snd ∧
      (Live world world.channel.dataReceivers → world.channel.dataBufferCount = 0) ∧
      (∀ request served, sendData request world = .ok served →
        Logged world (served.own request) served.notified.toList served.world) ∧
      [40, 50].map world.memory = world.delivered := by
  obtain ⟨world, performed, delivered, withdrawn, received⟩ :
      ∃ world, Transition.execute perform newChannel sendsAndReceives = some world ∧
        world.delivered = [10, 20] ∧ world.withdrawn = [2] ∧
        [40, 50].map world.memory = [10, 20] := ⟨_, rfl, rfl, rfl, rfl⟩
  have reached : Reached 1 world :=
    reached_of_perform ⟨rfl, fun _ => rfl, rfl, rfl, rfl, rfl⟩ performed
  have laws := fifo_delivery reached
  exact ⟨world, performed, delivered, withdrawn, laws.1.1, laws.2.2.2.2.1, laws.2.1.1,
    received.trans delivered.symm⟩

/-- Without a buffer the head is not below the buffer length: both are zero. -/
theorem unbuffered_head_not_inside :
    ∃ world : World ℕ ℕ, Reached 0 world ∧
      ¬ world.channel.dataBufferHead < world.channel.getBufferSize :=
  ⟨newWorld ⟨none, 0, 0, [], []⟩ (fun _ => 0),
    Transition.Reachable.start ⟨rfl, fun _ => rfl, rfl, rfl, rfl, rfl⟩, by decide⟩

/-- From every reachable world the two operations complete without throwing. -/
theorem operations_total [Inhabited Value] {bufferLen : Int} {world : World Callback Value}
    (reached : Reached bufferLen world) (request : Request Callback) :
    (∃ served, sendData request world = .ok served) ∧
      ∃ served, receiveData request world = .ok served := by
  have bounded := (invariant_of_reached reached).delivery.bounded
  constructor
  · rcases sendData_spec request bounded with skipped | ⟨served, sent, _⟩
    · exact ⟨_, skipped⟩
    · exact ⟨served, sent⟩
  · rcases receiveData_spec request bounded with skipped | ⟨served, received, _⟩
    · exact ⟨_, skipped⟩
    · exact ⟨served, received⟩

end Disvm.ChannelFifo
