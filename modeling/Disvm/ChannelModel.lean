import Disvm.RingWindow
import Disvm.RuntimeTypes

/-!
# Channels

The channel of the virtual machine: two queues of requests and an optional
circular data buffer.  The operations below follow `vm_channel_t` statement by
statement, as they run under the channel's data lock.  A request is marked as
handled through a flag shared by all requests of its thread, so the flags and
the program memory are arguments of the operations next to the channel itself.
-/

namespace Disvm

/-- A request to send the value at `data` or to receive a value into `data`
(`vm_channel_request_t`). -/
structure Request (Callback : Type*) where
  threadId : ThreadId
  data : Address
  requestHandledCallback : Callback
  deriving DecidableEq, Repr

/-- The data members of `vm_channel_t`.  The buffer array is absent when the
channel was created with buffer length zero. -/
structure Channel (Callback Value : Type*) where
  dataBuffer : Option (List Value)
  dataBufferHead : ℕ
  dataBufferCount : ℕ
  dataSenders : List (Request Callback)
  dataReceivers : List (Request Callback)

namespace Channel

variable {Callback Value : Type*}

/-- The constructor `vm_channel_t(td, transfer, buffer_len)`. -/
def create [Inhabited Value] (bufferLen : Int) :
    Except VmException (Channel Callback Value) :=
  if bufferLen < 0 then
    .error .outOfRangeMemory
  else
    .ok
      { dataBuffer :=
          if 0 < bufferLen then some (List.replicate bufferLen.toNat default) else none
        dataBufferHead := 0
        dataBufferCount := 0
        dataSenders := []
        dataReceivers := [] }

/-- `get_buffer_size`. -/
def getBufferSize (channel : Channel Callback Value) : ℕ :=
  match channel.dataBuffer with
  | none => 0
  | some cells => cells.length

/-- Buffered values, oldest first. -/
def buffered (channel : Channel Callback Value) : List Value :=
  match channel.dataBuffer with
  | none => []
  | some cells => Ring.window cells channel.dataBufferHead channel.dataBufferCount

/-- `try_send_to_buffer`: the channel afterwards, or `none` when the buffer is
full.  Both summands of the index are below the array length, a 32-bit word, so
the unsigned sum does not wrap. -/
def trySendToBuffer (memory : Address → Value) (cells : List Value)
    (sendRequest : Request Callback) (channel : Channel Callback Value) :
    Except VmException (Option (Channel Callback Value)) :=
  if channel.dataBufferCount = cells.length then
    .ok none
  else
    let sum := channel.dataBufferHead + channel.dataBufferCount
    let nextBufferIndex := if cells.length ≤ sum then sum - cells.length else sum
    if nextBufferIndex < cells.length then
      .ok (some
        { channel with
          dataBuffer := some (cells.set nextBufferIndex (memory sendRequest.data))
          dataBufferCount := channel.dataBufferCount + 1 })
    else
      .error (.indexOutOfRangeMemory 0 (cells.length - 1) nextBufferIndex)

/-- `try_receive_from_buffer`: the channel afterwards and the value moved to
the receiver, or `none` when the buffer is empty. -/
def tryReceiveFromBuffer (cells : List Value) (channel : Channel Callback Value) :
    Except VmException (Option (Channel Callback Value × Value)) :=
  if channel.dataBufferCount = 0 then
    .ok none
  else
    match cells[channel.dataBufferHead]? with
    | none => .error (.indexOutOfRangeMemory 0 (cells.length - 1) channel.dataBufferHead)
    | some value =>
        let advanced := channel.dataBufferHead + 1
        .ok (some
          ({ channel with
              dataBufferHead := if advanced = cells.length then 0 else advanced
              dataBufferCount := channel.dataBufferCount - 1 }, value))

/-- `cancel_request`: remove the thread's first receive request, or its first
send request when it has no receive request. -/
def cancelRequest (threadId : ThreadId) (channel : Channel Callback Value) :
    Channel Callback Value :=
  if channel.dataReceivers.any (·.threadId == threadId) then
    { channel with
      dataReceivers := channel.dataReceivers.eraseP (·.threadId == threadId) }
  else
    { channel with
      dataSenders := channel.dataSenders.eraseP (·.threadId == threadId) }

/-- The head lies inside the buffer array and the count does not exceed its
length; a channel without an array keeps both at zero. -/
structure Bounded (channel : Channel Callback Value) : Prop where
  headInside : ∀ cells, channel.dataBuffer = some cells →
    channel.dataBufferHead < cells.length
  headAbsent : channel.dataBuffer = none → channel.dataBufferHead = 0
  countFits : channel.dataBufferCount ≤ channel.getBufferSize

theorem getBufferSize_some {channel : Channel Callback Value} {cells : List Value}
    (isCells : channel.dataBuffer = some cells) :
    channel.getBufferSize = cells.length := by
  simp [getBufferSize, isCells]

theorem getBufferSize_none {channel : Channel Callback Value}
    (absent : channel.dataBuffer = none) : channel.getBufferSize = 0 := by
  simp [getBufferSize, absent]

theorem buffered_some {channel : Channel Callback Value} {cells : List Value}
    (isCells : channel.dataBuffer = some cells) :
    channel.buffered =
      Ring.window cells channel.dataBufferHead channel.dataBufferCount := by
  simp [buffered, isCells]

/-- Two channels that differ in their queues only have the same buffer. -/
theorem Bounded.of_buffer_eq {first second : Channel Callback Value}
    (bounded : first.Bounded) (bufferEq : second.dataBuffer = first.dataBuffer)
    (headEq : second.dataBufferHead = first.dataBufferHead)
    (countEq : second.dataBufferCount = first.dataBufferCount) :
    second.Bounded where
  headInside := by rw [bufferEq, headEq]; exact bounded.headInside
  headAbsent := by rw [bufferEq, headEq]; exact bounded.headAbsent
  countFits := by
    have := bounded.countFits
    unfold getBufferSize at this ⊢
    rwa [bufferEq, countEq]

theorem create_spec [Inhabited Value] {bufferLen : Int}
    {channel : Channel Callback Value} (created : create bufferLen = .ok channel) :
    channel.Bounded ∧ channel.buffered = [] ∧ channel.dataBufferCount = 0 ∧
      channel.dataSenders = [] ∧ channel.dataReceivers = [] ∧
      channel.getBufferSize = bufferLen.toNat := by
  unfold create at created
  split at created
  · cases created
  · simp only [Except.ok.injEq] at created
    subst created
    by_cases positive : 0 < bufferLen
    · simp only [if_pos positive]
      refine ⟨⟨?_, by simp, by simp⟩, by simp [buffered], trivial, trivial, trivial,
        by simp [getBufferSize]⟩
      intro cells isCells
      simp only [Option.some.injEq] at isCells
      subst isCells
      simp only [List.length_replicate]
      omega
    · simp only [if_neg positive]
      exact ⟨⟨by simp, by simp, by simp⟩, by simp [buffered], trivial, trivial, trivial,
        by simp [getBufferSize]; omega⟩

/-- What a successful `try_send_to_buffer` does. -/
structure SentToBuffer (memory : Address → Value) (request : Request Callback)
    (before after : Channel Callback Value) : Prop where
  bounded : after.Bounded
  size : after.getBufferSize = before.getBufferSize
  count : after.dataBufferCount = before.dataBufferCount + 1
  room : before.dataBufferCount < before.getBufferSize
  senders : after.dataSenders = before.dataSenders
  receivers : after.dataReceivers = before.dataReceivers
  appended : after.buffered = before.buffered ++ [memory request.data]

theorem trySendToBuffer_spec (memory : Address → Value) (request : Request Callback)
    {cells : List Value} {channel : Channel Callback Value}
    (bounded : channel.Bounded) (isCells : channel.dataBuffer = some cells) :
    (trySendToBuffer memory cells request channel = .ok none ∧
        channel.dataBufferCount = channel.getBufferSize) ∨
      ∃ after, trySendToBuffer memory cells request channel = .ok (some after) ∧
        SentToBuffer memory request channel after := by
  have sizeEq := getBufferSize_some isCells
  have headInside := bounded.headInside cells isCells
  have countFits := bounded.countFits
  unfold trySendToBuffer
  by_cases full : channel.dataBufferCount = cells.length
  · exact Or.inl ⟨by rw [if_pos full], by rw [sizeEq, full]⟩
  · right
    have room : channel.dataBufferCount < cells.length := by omega
    rw [if_neg full]
    simp only
    rw [Ring.wrapped_eq_mod headInside room, if_pos (Nat.mod_lt _ (by omega))]
    refine ⟨_, rfl, ⟨⟨?_, by simp, ?_⟩, ?_, rfl, by omega, rfl, rfl, ?_⟩⟩
    · intro other isOther
      simp only [Option.some.injEq] at isOther
      subst isOther
      simpa using headInside
    · simp only [getBufferSize, List.length_set]
      omega
    · simp [getBufferSize, isCells]
    · rw [buffered_some isCells]
      exact Ring.window_push (memory request.data) room

/-- What a successful `try_receive_from_buffer` does. -/
structure ReceivedFromBuffer (before after : Channel Callback Value)
    (value : Value) : Prop where
  bounded : after.Bounded
  size : after.getBufferSize = before.getBufferSize
  count : after.dataBufferCount + 1 = before.dataBufferCount
  senders : after.dataSenders = before.dataSenders
  receivers : after.dataReceivers = before.dataReceivers
  removed : before.buffered = value :: after.buffered
  present : after.dataBuffer = before.dataBuffer

theorem tryReceiveFromBuffer_spec {cells : List Value}
    {channel : Channel Callback Value}
    (bounded : channel.Bounded) (isCells : channel.dataBuffer = some cells) :
    (tryReceiveFromBuffer cells channel = .ok none ∧ channel.dataBufferCount = 0) ∨
      ∃ after value, tryReceiveFromBuffer cells channel = .ok (some (after, value)) ∧
        ReceivedFromBuffer channel after value := by
  have sizeEq := getBufferSize_some isCells
  have headInside := bounded.headInside cells isCells
  have countFits := bounded.countFits
  unfold tryReceiveFromBuffer
  by_cases empty : channel.dataBufferCount = 0
  · exact Or.inl ⟨by rw [if_pos empty], empty⟩
  · right
    rw [if_neg empty, List.getElem?_eq_getElem headInside]
    simp only
    rw [Ring.advanced_eq_mod headInside]
    refine ⟨_, _, rfl, ⟨⟨?_, ?_, ?_⟩, rfl, by simp only; omega, rfl, rfl, ?_, rfl⟩⟩
    · intro other isOther
      simp only [isCells, Option.some.injEq] at isOther
      subst isOther
      exact Nat.mod_lt _ (by omega)
    · intro absent
      simp [isCells] at absent
    · simp only [getBufferSize, isCells]
      omega
    · obtain ⟨count, countEq⟩ := Nat.exists_eq_succ_of_ne_zero empty
      simp only [buffered, isCells, countEq, Nat.succ_eq_add_one, Nat.add_sub_cancel]
      exact Ring.window_pop headInside (by omega)

@[simp]
theorem cancelRequest_dataBuffer (threadId : ThreadId) (channel : Channel Callback Value) :
    (cancelRequest threadId channel).dataBuffer = channel.dataBuffer := by
  unfold cancelRequest; split <;> rfl

@[simp]
theorem cancelRequest_dataBufferHead (threadId : ThreadId)
    (channel : Channel Callback Value) :
    (cancelRequest threadId channel).dataBufferHead = channel.dataBufferHead := by
  unfold cancelRequest; split <;> rfl

@[simp]
theorem cancelRequest_dataBufferCount (threadId : ThreadId)
    (channel : Channel Callback Value) :
    (cancelRequest threadId channel).dataBufferCount = channel.dataBufferCount := by
  unfold cancelRequest; split <;> rfl

theorem cancelRequest_dataSenders_sublist (threadId : ThreadId)
    (channel : Channel Callback Value) :
    (cancelRequest threadId channel).dataSenders.Sublist channel.dataSenders := by
  unfold cancelRequest
  split
  · exact List.Sublist.refl _
  · exact List.eraseP_sublist

theorem cancelRequest_dataReceivers_sublist (threadId : ThreadId)
    (channel : Channel Callback Value) :
    (cancelRequest threadId channel).dataReceivers.Sublist channel.dataReceivers := by
  unfold cancelRequest
  split
  · exact List.eraseP_sublist
  · exact List.Sublist.refl _

@[simp]
theorem cancelRequest_buffered (threadId : ThreadId) (channel : Channel Callback Value) :
    (cancelRequest threadId channel).buffered = channel.buffered := by
  simp [buffered]

@[simp]
theorem cancelRequest_getBufferSize (threadId : ThreadId)
    (channel : Channel Callback Value) :
    (cancelRequest threadId channel).getBufferSize = channel.getBufferSize := by
  simp [getBufferSize]

end Channel

end Disvm
