import Disvm.ChannelRequests

/-!
# Channels and memory

What a step logs as transferred or written is in memory after it.  The values
that the receivers find, followed by the buffer of a channel, are the buffer
before the step followed by the values of the senders.
-/

namespace Disvm.ChannelSystem

open VmState

open Function (update)

variable {Value : Type*}

/-- The indices of a channel are in bounds and receivers wait only at an empty
buffer. -/
structure Supplied (channel : Channel HandledCallback Value) : Prop where
  bounded : channel.Bounded
  receiversEmpty : queue .receive channel ≠ [] → channel.dataBufferCount = 0

section Operations

variable {direction : Direction} {request peer : Request HandledCallback}
  {memory after : Address → Value} {channel served : Channel HandledCallback Value}

theorem buffered_of_count_eq_zero (empty : channel.dataBufferCount = 0) :
    channel.buffered = [] := by
  unfold Channel.buffered
  split
  · rfl
  · rw [empty, Ring.window_zero]

@[simp]
theorem buffered_popPeer (direction : Direction) (channel : Channel HandledCallback Value) :
    (popPeer direction channel).buffered = channel.buffered := by
  cases direction <;> rfl

@[simp]
theorem dataBufferCount_popPeer (direction : Direction)
    (channel : Channel HandledCallback Value) :
    (popPeer direction channel).dataBufferCount = channel.dataBufferCount := by
  cases direction <;> rfl

@[simp]
theorem buffered_enqueue (direction : Direction) (request : Request HandledCallback)
    (channel : Channel HandledCallback Value) :
    (enqueue direction request channel).buffered = channel.buffered := by
  cases direction <;> rfl

theorem bounded_popPeer (bounded : channel.Bounded) : (popPeer direction channel).Bounded := by
  cases direction <;> exact bounded.of_buffer_eq rfl rfl rfl

theorem bounded_enqueue (bounded : channel.Bounded) :
    (enqueue direction request channel).Bounded := by
  cases direction <;> exact bounded.of_buffer_eq rfl rfl rfl

/-- The buffer refuses a receiver when it is empty or absent. -/
theorem useBuffer_refused (bounded : channel.Bounded)
    (refused : useBuffer .receive request memory channel = .ok none) :
    channel.dataBufferCount = 0 := by
  cases buffer : channel.dataBuffer with
  | none =>
      have fits := bounded.countFits
      rw [Channel.getBufferSize_none buffer] at fits
      omega
  | some cells =>
      rcases Channel.tryReceiveFromBuffer_spec bounded buffer with
        ⟨-, empty⟩ | ⟨taken, value, received, -⟩
      · exact empty
      · simp only [useBuffer, buffer, received] at refused
        cases refused

theorem useBuffer_sent (bounded : channel.Bounded)
    (used : useBuffer .send request memory channel = .ok (some (served, after))) :
    Channel.SentToBuffer memory request channel served ∧ after = memory := by
  cases buffer : channel.dataBuffer with
  | none =>
      simp only [useBuffer, buffer] at used
      cases used
  | some cells =>
      rcases Channel.trySendToBuffer_spec memory request bounded buffer with
        ⟨refused, -⟩ | ⟨stored, sent, spec⟩
      · simp only [useBuffer, buffer, refused] at used
        cases used
      · simp only [useBuffer, buffer, sent] at used
        cases used
        exact ⟨spec, rfl⟩

theorem useBuffer_received (bounded : channel.Bounded)
    (used : useBuffer .receive request memory channel = .ok (some (served, after))) :
    ∃ value, Channel.ReceivedFromBuffer channel served value ∧
      after = update memory request.data value := by
  cases buffer : channel.dataBuffer with
  | none =>
      simp only [useBuffer, buffer] at used
      cases used
  | some cells =>
      rcases Channel.tryReceiveFromBuffer_spec bounded buffer with
        ⟨refused, -⟩ | ⟨taken, value, received, spec⟩
      · simp only [useBuffer, buffer, refused] at used
        cases used
      · simp only [useBuffer, buffer, received] at used
        cases used
        exact ⟨value, spec, rfl⟩

/-- A receiver and a sender that waits: the value is moved directly past an empty
buffer, and otherwise the oldest one is taken and the sender's value is added. -/
theorem exchange_received (bounded : channel.Bounded)
    (exchanged : exchange .receive request peer memory channel = .ok (served, after)) :
    (served = channel ∧ channel.dataBufferCount = 0 ∧
        after = update memory request.data (memory peer.data)) ∨
      ∃ middle value, Channel.ReceivedFromBuffer channel middle value ∧
        after = update memory request.data value ∧
        Channel.SentToBuffer after peer middle served := by
  unfold exchange at exchanged
  cases buffer : channel.dataBuffer with
  | none =>
      have fits := bounded.countFits
      rw [Channel.getBufferSize_none buffer] at fits
      simp only [buffer] at exchanged
      cases exchanged
      exact Or.inl ⟨rfl, by omega, rfl⟩
  | some cells =>
      rcases Channel.tryReceiveFromBuffer_spec bounded buffer with
        ⟨refused, empty⟩ | ⟨middle, value, received, spec⟩
      · simp only [buffer, refused] at exchanged
        cases exchanged
        exact Or.inl ⟨rfl, empty, rfl⟩
      · have isCells : middle.dataBuffer = some cells := spec.present.trans buffer
        rcases Channel.trySendToBuffer_spec (update memory request.data value) peer
          spec.bounded isCells with ⟨-, full⟩ | ⟨refilled, sent, sentSpec⟩
        · have size := spec.size
          have count := spec.count
          have fits := bounded.countFits
          omega
        · simp only [buffer, received, sent] at exchanged
          cases exchanged
          exact Or.inr ⟨middle, value, spec, rfl, sentSpec⟩

theorem exchange_sent
    (exchanged : exchange .send request peer memory channel = .ok (served, after)) :
    served = channel ∧ after = update memory peer.data (memory request.data) := by
  cases exchanged
  exact ⟨rfl, rfl⟩

theorem supplied_useBuffer (supplied : Supplied channel)
    (noPeer : peers direction channel = [])
    (used : useBuffer direction request memory channel = .ok (some (served, after))) :
    Supplied served := by
  have sameQueue := queue_useBuffer used .receive
  cases direction with
  | send =>
      obtain ⟨sent, -⟩ := useBuffer_sent supplied.bounded used
      have noReceivers : queue .receive channel = [] := noPeer
      exact ⟨sent.bounded, fun waiting => absurd (sameQueue.trans noReceivers) waiting⟩
  | receive =>
      obtain ⟨value, received, -⟩ := useBuffer_received supplied.bounded used
      refine ⟨received.bounded, fun waiting => ?_⟩
      have empty := supplied.receiversEmpty (sameQueue ▸ waiting)
      have count := received.count
      omega

theorem supplied_exchange (supplied : Supplied channel)
    (exchanged : exchange direction request peer memory channel = .ok (served, after)) :
    Supplied served := by
  have sameQueue := queue_exchange exchanged .receive
  cases direction with
  | send =>
      obtain ⟨rfl, -⟩ := exchange_sent exchanged
      exact supplied
  | receive =>
      rcases exchange_received supplied.bounded exchanged with
        ⟨rfl, -, -⟩ | ⟨middle, value, received, -, sent⟩
      · exact supplied
      · refine ⟨sent.bounded, fun waiting => ?_⟩
        have empty := supplied.receiversEmpty (sameQueue ▸ waiting)
        have count := received.count
        omega

theorem supplied_popPeer (supplied : Supplied channel) : Supplied (popPeer direction channel) := by
  refine ⟨bounded_popPeer supplied.bounded, fun waiting => ?_⟩
  rw [dataBufferCount_popPeer]
  refine supplied.receiversEmpty fun nothing => waiting ?_
  cases direction with
  | send => exact (congrArg List.tail nothing).trans rfl
  | receive => exact nothing

theorem supplied_enqueue (supplied : Supplied channel)
    (refused : useBuffer direction request memory channel = .ok none) :
    Supplied (enqueue direction request channel) := by
  refine ⟨bounded_enqueue supplied.bounded, fun waiting => ?_⟩
  cases direction with
  | send => exact supplied.receiversEmpty waiting
  | receive =>
      show channel.dataBufferCount = 0
      exact useBuffer_refused supplied.bounded refused

theorem supplied_cancelRequest (supplied : Supplied channel) (threadId : ThreadId) :
    Supplied (channel.cancelRequest threadId) := by
  refine ⟨supplied.bounded.of_buffer_eq (by simp) (by simp) (by simp), fun waiting => ?_⟩
  rw [Channel.cancelRequest_dataBufferCount]
  refine supplied.receiversEmpty fun nothing => waiting ?_
  have fewer := queue_cancelRequest_sublist threadId .receive channel
  rw [nothing] at fewer
  exact List.sublist_nil.mp fewer

theorem update_cases (memory : Address → Value) (data : Address) (value : Value)
    (address : Address) :
    update memory data value address = memory address ∨ data = address := by
  by_cases same : address = data
  · exact Or.inr same.symm
  · exact Or.inl (Function.update_of_ne same _ _)

/-- A value that is moved directly is at both addresses afterwards. -/
theorem update_given (memory : Address → Value) (source data : Address) :
    update memory data (memory source) source = memory source := by
  by_cases same : source = data
  · rw [same, Function.update_self]
  · rw [Function.update_of_ne same]

end Operations

/-- The values at the addresses of the transfers in one direction on a channel. -/
def valuesOf (memory : Address → Value) (direction : Direction) (channel : ChannelId)
    (log : List Transfer) : List Value :=
  (log.filter fun entry => entry.direction == direction && entry.channel == channel).map
    fun entry => memory entry.data

/-- What a step logs is what it does to memory and to the buffers. -/
structure Effect [IntCast Value] (system after : VmState Value) (made : List Transfer) :
    Prop where
  logged : after.transfers = system.transfers ++ made
  moved : ∀ channel,
    valuesOf after.memory .receive channel made ++ (after.channels channel).buffered =
      (system.channels channel).buffered ++ valuesOf after.memory .send channel made
  stored : ∀ threadId, after.written threadId = system.written threadId ∨
    after.written threadId = [] ∨ ∃ word : Int,
      after.written threadId = system.written threadId ++ [word] ∧
        after.memory (system.instruction threadId).dest = word
  elsewhere : ∀ address, after.memory address = system.memory address ∨
    (∃ entry ∈ made, entry.direction = .receive ∧ entry.data = address) ∨
      ∃ (threadId : ThreadId) (word : Int),
        after.written threadId = system.written threadId ++ [word] ∧
          (system.instruction threadId).dest = address

section Steps

variable [IntCast Value] {system after : VmState Value}

/-- A step without a transfer that writes no index. -/
theorem Effect.none (logged : after.transfers = system.transfers)
    (memory : after.memory = system.memory)
    (buffers : ∀ channel, (after.channels channel).buffered = (system.channels channel).buffered)
    (written : ∀ threadId, after.written threadId = system.written threadId ∨
      after.written threadId = []) : Effect system after [] where
  logged := by rw [logged, List.append_nil]
  moved channel := by simpa [valuesOf] using buffers channel
  stored threadId := (written threadId).imp_right Or.inl
  elsewhere address := Or.inl (by rw [memory])

/-- An index is written. -/
theorem Effect.wrote {threadId : ThreadId} {word : Int}
    (logged : after.transfers = system.transfers)
    (memory : after.memory = update system.memory (system.instruction threadId).dest (word : Value))
    (buffers : ∀ channel, after.channels channel = system.channels channel)
    (written : after.written =
      update system.written threadId (system.written threadId ++ [word])) :
    Effect system after [] where
  logged := by rw [logged, List.append_nil]
  moved channel := by simp [valuesOf, buffers]
  stored other := by
    by_cases same : other = threadId
    · subst same
      refine Or.inr (Or.inr ⟨word, ?_, ?_⟩)
      · rw [written, Function.update_self]
      · rw [memory, Function.update_self]
    · exact Or.inl (by rw [written, Function.update_of_ne same])
  elsewhere address := by
    by_cases same : address = (system.instruction threadId).dest
    · exact Or.inr (Or.inr ⟨threadId, word, by rw [written, Function.update_self], same.symm⟩)
    · exact Or.inl (by rw [memory, Function.update_of_ne same])

/-- Values that are transferred on one channel. -/
theorem Effect.transferred (channel : ChannelId) {made : List Transfer}
    (logged : after.transfers = system.transfers ++ made)
    (here : ∀ entry ∈ made, entry.channel = channel)
    (moved : valuesOf after.memory .receive channel made ++ (after.channels channel).buffered =
      (system.channels channel).buffered ++ valuesOf after.memory .send channel made)
    (others : ∀ other, other ≠ channel → after.channels other = system.channels other)
    (written : after.written = system.written)
    (elsewhere : ∀ address, after.memory address = system.memory address ∨
      ∃ entry ∈ made, entry.direction = .receive ∧ entry.data = address) :
    Effect system after made where
  logged := logged
  moved other := by
    by_cases same : other = channel
    · exact same ▸ moved
    · have nothing (direction : Direction) : valuesOf after.memory direction other made = [] := by
        unfold valuesOf
        rw [List.map_eq_nil_iff, List.filter_eq_nil_iff]
        intro entry member
        rw [here entry member]
        simp [Ne.symm same]
      rw [nothing, nothing, others other same, List.append_nil, List.nil_append]
  stored threadId := Or.inl (by rw [written])
  elsewhere address := (elsewhere address).imp_right Or.inl

theorem effect_settleFromBuffer {worker : ThreadId} {visit : Visit}
    {channel : Channel HandledCallback Value} {memory : Address → Value}
    (supplied : Supplied (system.channels visit.channel))
    (served : useBuffer (system.direction worker visit) (system.request worker visit)
      system.memory (system.channels visit.channel) = .ok (some (channel, memory))) :
    Effect system (system.settleFromBuffer worker visit channel memory)
      [system.transfer (system.direction worker visit) visit.channel
        (system.request worker visit)] := by
  refine .transferred visit.channel rfl (by simp [transfer]) ?_
    (fun other different => by simp [settleFromBuffer, different]) rfl ?_
  · cases direction : system.direction worker visit with
    | send =>
        rw [direction] at served
        obtain ⟨sent, rfl⟩ := useBuffer_sent supplied.bounded served
        simp [valuesOf, settleFromBuffer, transfer, sent.appended]
    | receive =>
        rw [direction] at served
        obtain ⟨value, received, rfl⟩ := useBuffer_received supplied.bounded served
        simp [valuesOf, settleFromBuffer, transfer, received.removed]
  · intro address
    cases direction : system.direction worker visit with
    | send =>
        rw [direction] at served
        obtain ⟨-, rfl⟩ := useBuffer_sent supplied.bounded served
        exact Or.inl rfl
    | receive =>
        rw [direction] at served
        obtain ⟨value, -, rfl⟩ := useBuffer_received supplied.bounded served
        exact (update_cases _ _ value address).imp_right fun same =>
          ⟨_, List.mem_singleton_self _, rfl, same⟩

theorem effect_matchPeer {worker : ThreadId} {visit : Visit} {peer : Request HandledCallback}
    {channel : Channel HandledCallback Value} {memory : Address → Value}
    (supplied : Supplied (system.channels visit.channel))
    (queued : peer ∈ peers (system.direction worker visit) (system.channels visit.channel))
    (exchanged : exchange (system.direction worker visit) (system.request worker visit) peer
      system.memory (popPeer (system.direction worker visit) (system.channels visit.channel)) =
        .ok (channel, memory)) :
    Effect system (system.matchPeer worker visit peer channel memory)
      [system.transfer (system.direction worker visit) visit.channel
          (system.request worker visit),
        system.transfer (Direction.opposite (system.direction worker visit)) visit.channel
          peer] := by
  refine .transferred visit.channel rfl (by simp [transfer]) ?_
    (fun other different => by simp [matchPeer, different]) rfl ?_
  · cases direction : system.direction worker visit with
    | send =>
        rw [direction] at exchanged queued
        obtain ⟨rfl, rfl⟩ := exchange_sent exchanged
        have empty : (system.channels visit.channel).buffered = [] :=
          buffered_of_count_eq_zero (supplied.receiversEmpty (List.ne_nil_of_mem queued))
        simp [valuesOf, matchPeer, transfer, Direction.opposite, empty, update_given]
    | receive =>
        rw [direction] at exchanged
        rcases exchange_received (bounded_popPeer supplied.bounded) exchanged with
          ⟨rfl, none, rfl⟩ | ⟨middle, value, received, rfl, sent⟩
        · have empty : (system.channels visit.channel).buffered = [] :=
            buffered_of_count_eq_zero (by simpa using none)
          simp [valuesOf, matchPeer, transfer, Direction.opposite, empty, update_given]
        · have removed : (system.channels visit.channel).buffered = value :: middle.buffered := by
            simpa using received.removed
          simp [valuesOf, matchPeer, transfer, Direction.opposite, removed, sent.appended]
  · intro address
    cases direction : system.direction worker visit with
    | send =>
        rw [direction] at exchanged
        obtain ⟨-, rfl⟩ := exchange_sent exchanged
        exact (update_cases _ _ _ address).imp_right fun same =>
          ⟨_, List.mem_cons_of_mem _ (List.mem_singleton_self _), rfl, same⟩
    | receive =>
        rw [direction] at exchanged
        rcases exchange_received (bounded_popPeer supplied.bounded) exchanged with
          ⟨-, -, rfl⟩ | ⟨middle, value, -, rfl, -⟩ <;>
        exact (update_cases _ _ _ address).imp_right fun same =>
          ⟨_, List.mem_cons_self, rfl, same⟩

omit [IntCast Value] in
/-- The buffer of one channel, when only its queues change. -/
theorem buffered_update {channel : ChannelId} {queued : Channel HandledCallback Value}
    (same : queued.buffered = (system.channels channel).buffered) (other : ChannelId) :
    (update system.channels channel queued other).buffered = (system.channels other).buffered := by
  by_cases here : other = channel
  · subst here
    rw [Function.update_self, same]
  · rw [Function.update_of_ne here]

theorem effect_edge {worker : ThreadId} (shaped : Shaped system)
    (supplied : ∀ channel, Supplied (system.channels channel))
    (edge : Edge system worker after) : ∃ made, Effect system after made := by
  cases edge with
  | start instruction order idle =>
      refine ⟨[], .none rfl rfl (fun _ => rfl) fun threadId => ?_⟩
      by_cases same : threadId = worker
      · exact Or.inr (by simp [startInstruction, same])
      · exact Or.inl (by simp [startInstruction, same])
  | queueRequest visit control =>
      exact ⟨[], .none rfl rfl (buffered_update (by simp)) fun _ => Or.inl rfl⟩
  | settleFromBuffer visit channel memory control noPeer served =>
      exact ⟨_, effect_settleFromBuffer (supplied visit.channel) served⟩
  | skipPeer visit peer control =>
      exact ⟨[], .none rfl rfl (buffered_update (by simp)) fun _ => Or.inl rfl⟩
  | matchPeer visit peer channel memory control raised exchanged =>
      obtain ⟨rest, front⟩ := shaped.front worker visit peer control
      exact ⟨_, effect_matchPeer (supplied visit.channel) (front ▸ List.mem_cons_self) exchanged⟩
  | passCancel owner channel remaining handledIndex control =>
      exact ⟨[], .none rfl rfl (buffered_update (by simp)) fun _ => Or.inl rfl⟩
  | passFinish owner handledIndex control =>
      cases owner <;> exact ⟨[], .wrote rfl rfl (fun _ => rfl) rfl⟩
  | finishAlone visit control => exact ⟨[], .wrote rfl rfl (fun _ => rfl) rfl⟩
  | _ => exact ⟨[], .none rfl rfl (fun _ => rfl) fun _ => Or.inl rfl⟩

/-- In every run the buffer indices stay in range, so no step is missing
because of an exception of the buffer. -/
theorem supplied_of_reached [Inhabited Value]
    {allowed : VmState Value → ThreadId → Action → Prop}
    (reached : Reached allowed system) : ∀ channel, Supplied (system.channels channel) := by
  refine Reached.invariant (fun system => ∀ channel, Supplied (system.channels channel))
    ?_ ?_ reached
  · intro initial isInitial channel
    obtain ⟨bufferLen, created⟩ := isInitial.created channel
    obtain ⟨bounded, -, count, -, -, -⟩ := Channel.create_spec created
    exact ⟨bounded, fun _ => count⟩
  · intro before worker action after _ supplied _ stepped channel
    cases edge_of_step stepped with
    | queueRequest visit control noPeer refused =>
        by_cases here : channel = visit.channel
        · subst here
          simpa [queueRequest] using supplied_enqueue (supplied visit.channel) refused
        · simpa [queueRequest, leave, here] using supplied channel
    | settleFromBuffer visit settled memory control noPeer served =>
        by_cases here : channel = visit.channel
        · subst here
          simpa [settleFromBuffer] using
            supplied_useBuffer (supplied visit.channel) noPeer served
        · simpa [settleFromBuffer, here] using supplied channel
    | skipPeer visit peer control =>
        by_cases here : channel = visit.channel
        · subst here
          simpa [skipPeer] using supplied_popPeer (supplied visit.channel)
        · simpa [skipPeer, here] using supplied channel
    | matchPeer visit peer settled memory control raised exchanged =>
        by_cases here : channel = visit.channel
        · subst here
          simpa [matchPeer] using
            supplied_exchange (supplied_popPeer (supplied visit.channel)) exchanged
        · simpa [matchPeer, here] using supplied channel
    | passCancel owner cancelled remaining handledIndex control =>
        by_cases here : channel = cancelled
        · subst here
          simpa [cancelIn] using supplied_cancelRequest (supplied channel) _
        · simpa [cancelIn, here] using supplied channel
    | passFinish owner handledIndex control => cases owner <;> exact supplied channel
    | _ => exact supplied channel

theorem effect_of_reached [Inhabited Value]
    {allowed : VmState Value → ThreadId → Action → Prop} (reached : Reached allowed system)
    {worker : ThreadId} {action : Action} (stepped : system.step worker action = some after) :
    ∃ made, Effect system after made :=
  effect_edge (shaped_of_reached reached) (supplied_of_reached reached) (edge_of_step stepped)

end Steps

end Disvm.ChannelSystem
