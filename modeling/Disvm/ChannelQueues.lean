import Disvm.ChannelSystemRuns

/-!
# Request queues in the channel system

A step touches a queue of requests in three ways only: a worker appends its own
request, removes the first peer it has locked, or cancels the requests of one
thread.  Instructions change only when their thread starts the next one.
-/

namespace Disvm.ChannelSystem

open VmState

open Function (update)

variable {Value : Type*}

@[simp]
theorem queue_enqueue_self (direction : Direction) (request : Request HandledCallback)
    (channel : Channel HandledCallback Value) :
    queue direction (enqueue direction request channel) =
      queue direction channel ++ [request] := by
  cases direction <;> rfl

@[simp]
theorem queue_enqueue_opposite (direction : Direction) (request : Request HandledCallback)
    (channel : Channel HandledCallback Value) :
    queue direction.opposite (enqueue direction request channel) =
      queue direction.opposite channel := by
  cases direction <;> rfl

@[simp]
theorem queue_popPeer_self (direction : Direction)
    (channel : Channel HandledCallback Value) :
    queue direction (popPeer direction channel) = queue direction channel := by
  cases direction <;> rfl

@[simp]
theorem queue_popPeer_opposite (direction : Direction)
    (channel : Channel HandledCallback Value) :
    queue direction.opposite (popPeer direction channel) =
      (queue direction.opposite channel).tail := by
  cases direction <;> rfl

theorem Direction.eq_or_opposite (first second : Direction) :
    first = second ∨ first = second.opposite := by
  cases first <;> cases second <;> decide

theorem queue_trySendToBuffer {memory : Address → Value} {cells : List Value}
    {request : Request HandledCallback} {channel after : Channel HandledCallback Value}
    (sent : channel.trySendToBuffer memory cells request = .ok (some after))
    (direction : Direction) : queue direction after = queue direction channel := by
  unfold Channel.trySendToBuffer at sent
  simp only at sent
  split at sent
  · cases sent
  · split at sent <;> split at sent <;> cases sent <;> cases direction <;> rfl

theorem queue_tryReceiveFromBuffer {cells : List Value}
    {channel after : Channel HandledCallback Value} {value : Value}
    (received : channel.tryReceiveFromBuffer cells = .ok (some (after, value)))
    (direction : Direction) : queue direction after = queue direction channel := by
  unfold Channel.tryReceiveFromBuffer at received
  simp only at received
  split at received
  · cases received
  · split at received
    · cases received
    · cases received
      cases direction <;> rfl

theorem queue_useBuffer {direction : Direction} {request : Request HandledCallback}
    {memory after : Address → Value} {channel served : Channel HandledCallback Value}
    (used : useBuffer direction request memory channel = .ok (some (served, after)))
    (other : Direction) : queue other served = queue other channel := by
  unfold useBuffer at used
  split at used
  · cases used
  · split at used
    · cases used
    · cases used
    · next sent =>
      cases used
      exact queue_trySendToBuffer sent other
  · split at used
    · cases used
    · cases used
    · next received =>
      cases used
      exact queue_tryReceiveFromBuffer received other

theorem queue_exchange {direction : Direction} {request peer : Request HandledCallback}
    {memory after : Address → Value} {channel served : Channel HandledCallback Value}
    (exchanged : exchange direction request peer memory channel = .ok (served, after))
    (other : Direction) : queue other served = queue other channel := by
  unfold exchange at exchanged
  split at exchanged
  · cases exchanged
    rfl
  · simp only at exchanged
    split at exchanged
    · cases exchanged
      rfl
    · split at exchanged
      · cases exchanged
      · cases exchanged
        rfl
      · next received =>
        split at exchanged
        · cases exchanged
        · cases exchanged
          exact queue_tryReceiveFromBuffer received other
        · next sent =>
          cases exchanged
          rw [queue_trySendToBuffer sent, queue_tryReceiveFromBuffer received]

theorem queue_cancelRequest_sublist (threadId : ThreadId) (direction : Direction)
    (channel : Channel HandledCallback Value) :
    (queue direction (channel.cancelRequest threadId)).Sublist (queue direction channel) := by
  cases direction with
  | send => exact Channel.cancelRequest_dataSenders_sublist threadId channel
  | receive => exact Channel.cancelRequest_dataReceivers_sublist threadId channel

/-- The effect of a step on one queue. -/
inductive QueueChange (system : VmState Value) (worker : ThreadId) (channel : ChannelId)
    (direction : Direction) (after : VmState Value) : Prop
  | unchanged
      (same : queue direction (after.channels channel) =
        queue direction (system.channels channel))
  | appended (visit : Visit) (control : system.control worker = .scanning visit)
      (here : channel = visit.channel)
      (towards : direction = system.direction worker visit)
      (left : after.control worker = .registering (visit.queued ++ [visit.index]) visit.todo)
      (same : queue direction (after.channels channel) =
        queue direction (system.channels channel) ++ [system.request worker visit])
  | popped (visit : Visit) (peer : Request HandledCallback)
      (control : system.control worker = .inspecting visit peer)
      (here : channel = visit.channel)
      (towards : direction = (system.direction worker visit).opposite)
      (same : queue direction (after.channels channel) =
        (queue direction (system.channels channel)).tail)
  | cancelled (owner : PassOwner) (remaining : List ℕ) (handledIndex : Int)
      (control : system.control worker =
        .cancelling owner ⟨.holding channel, remaining, handledIndex⟩)
      (same : after.channels channel =
        (system.channels channel).cancelRequest (victim worker owner))

variable [IntCast Value]

theorem queueChange_edge {system after : VmState Value} {worker : ThreadId}
    (edge : Edge system worker after) (channel : ChannelId) (direction : Direction) :
    QueueChange system worker channel direction after := by
  cases edge with
  | queueRequest visit control =>
      by_cases here : channel = visit.channel
      · subst here
        rcases Direction.eq_or_opposite direction (system.direction worker visit) with
          rfl | rfl
        · exact .appended visit control rfl rfl (by simp [queueRequest, leave])
            (by simp [queueRequest])
        · exact .unchanged (by simp [queueRequest])
      · exact .unchanged (by simp [queueRequest, leave, here])
  | settleFromBuffer visit settled memory control noPeer served =>
      refine .unchanged ?_
      by_cases here : channel = visit.channel
      · subst here
        simp only [settleFromBuffer, Function.update_self]
        exact queue_useBuffer served direction
      · simp [settleFromBuffer, here]
  | skipPeer visit peer control =>
      by_cases here : channel = visit.channel
      · subst here
        rcases Direction.eq_or_opposite direction (system.direction worker visit) with
          rfl | rfl
        · exact .unchanged (by simp [skipPeer])
        · exact .popped visit peer control rfl rfl (by simp [skipPeer])
      · exact .unchanged (by simp [skipPeer, here])
  | matchPeer visit peer settled memory control raised exchanged =>
      by_cases here : channel = visit.channel
      · subst here
        have settledQueue := queue_exchange exchanged direction
        rcases Direction.eq_or_opposite direction (system.direction worker visit) with
          rfl | rfl
        · exact .unchanged (by simp [matchPeer, settledQueue])
        · exact .popped visit peer control rfl rfl (by simp [matchPeer, settledQueue])
      · exact .unchanged (by simp [matchPeer, here])
  | passCancel owner cancelled remaining handledIndex control =>
      by_cases here : channel = cancelled
      · subst here
        exact .cancelled owner remaining handledIndex control (by simp [cancelIn])
      · exact .unchanged (by simp [cancelIn, here])
  | passFinish owner handledIndex control =>
      refine .unchanged ?_
      cases owner <;> rfl
  | _ => exact .unchanged rfl

/-- A request that a step puts in a queue is the worker's own, and leaves the
worker between two alternatives. -/
theorem mem_queue_edge {system after : VmState Value} {worker : ThreadId}
    (edge : Edge system worker after) {channel : ChannelId} {direction : Direction}
    {request : Request HandledCallback}
    (member : request ∈ queue direction (after.channels channel)) :
    request ∈ queue direction (system.channels channel) ∨
      ∃ visit, system.control worker = .scanning visit ∧ channel = visit.channel ∧
        direction = system.direction worker visit ∧
        request = system.request worker visit ∧
        after.control worker =
          .registering (visit.queued ++ [visit.index]) visit.todo := by
  cases queueChange_edge edge channel direction with
  | unchanged same => exact Or.inl (same ▸ member)
  | appended visit control here towards left same =>
      rw [same, List.mem_append, List.mem_singleton] at member
      rcases member with earlier | own
      · exact Or.inl earlier
      · exact Or.inr ⟨visit, control, here, towards, own, left⟩
  | popped visit peer control here towards same =>
      rw [same] at member
      exact Or.inl (List.mem_of_mem_tail member)
  | cancelled owner remaining handledIndex control same =>
      rw [same] at member
      exact Or.inl ((queue_cancelRequest_sublist _ direction _).subset member)

theorem instruction_edge {system after : VmState Value} {worker : ThreadId}
    (edge : Edge system worker after) (threadId : ThreadId) :
    (after.instruction threadId = system.instruction threadId ∧
        after.serial threadId = system.serial threadId) ∨
      (threadId = worker ∧ system.control worker = .idle) := by
  cases edge with
  | start instruction order idle =>
      by_cases same : threadId = worker
      · exact Or.inr ⟨same, idle⟩
      · exact Or.inl (by simp [startInstruction, same])
  | passFinish owner handledIndex control => cases owner <;> exact Or.inl ⟨rfl, rfl⟩
  | _ => exact Or.inl ⟨rfl, rfl⟩

end Disvm.ChannelSystem
