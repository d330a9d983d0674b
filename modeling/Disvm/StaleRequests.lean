import Disvm.ChannelRequests

/-!
# Stale channel requests

A request is stale when it stays queued after its instruction completed.  The
flag of a thread is raised again by its next channel instruction, so a stale
request could then be matched in the place of a current one.
-/

namespace Disvm.ChannelSystem

open VmState

open Function (update)

variable {Value : Type*}

theorem ownCount_congr {threadId : ThreadId}
    {first second : Channel HandledCallback Value}
    (same : ∀ direction, queue direction first = queue direction second) :
    ownCount threadId first = ownCount threadId second := by
  rw [ownCount_eq threadId .send, ownCount_eq threadId .send, same, same]

theorem ownCount_enqueue (threadId : ThreadId) (direction : Direction)
    (request : Request HandledCallback) (channel : Channel HandledCallback Value) :
    ownCount threadId (enqueue direction request channel) =
      ownCount threadId channel + if request.threadId = threadId then 1 else 0 := by
  rw [ownCount_eq threadId direction, ownCount_eq threadId direction]
  simp only [queue_enqueue_self, queue_enqueue_opposite, List.countP_append,
    List.countP_singleton, beq_iff_eq]
  omega

theorem ownCount_popPeer (threadId : ThreadId) {direction : Direction}
    {channel : Channel HandledCallback Value} {peer : Request HandledCallback}
    {rest : List (Request HandledCallback)} (front : peers direction channel = peer :: rest) :
    ownCount threadId channel =
      ownCount threadId (popPeer direction channel) +
        if peer.threadId = threadId then 1 else 0 := by
  have opposite : queue direction.opposite channel = peer :: rest := front
  rw [ownCount_eq threadId direction, ownCount_eq threadId direction]
  simp only [queue_popPeer_self, queue_popPeer_opposite, opposite, List.tail_cons,
    List.countP_cons, beq_iff_eq]
  omega

/-- The effect of a step on the number of a thread's requests on a channel. -/
inductive CountChange (system : VmState Value) (worker threadId : ThreadId)
    (channel : ChannelId) (after : VmState Value) : Prop
  | unchanged
      (same : ownCount threadId (after.channels channel) =
        ownCount threadId (system.channels channel))
  | added (visit : Visit) (control : system.control worker = .scanning visit)
      (here : channel = visit.channel) (own : worker = threadId)
      (left : after.control worker = .registering (visit.queued ++ [visit.index]) visit.todo)
      (same : ownCount threadId (after.channels channel) =
        ownCount threadId (system.channels channel) + 1)
  | removed (visit : Visit) (peer : Request HandledCallback)
      (control : system.control worker = .inspecting visit peer)
      (here : channel = visit.channel) (own : peer.threadId = threadId)
      (same : ownCount threadId (system.channels channel) =
        ownCount threadId (after.channels channel) + 1)
  | cancelled (owner : PassOwner) (remaining : List ℕ) (handledIndex : Int)
      (control : system.control worker =
        .cancelling owner ⟨.holding channel, remaining, handledIndex⟩)
      (own : victim worker owner = threadId)
      (same : ownCount threadId (after.channels channel) =
        ownCount threadId (system.channels channel) - 1)

section Steps

variable [IntCast Value]

theorem countChange_edge {system after : VmState Value} {worker : ThreadId}
    (shaped : Shaped system) (edge : Edge system worker after) (threadId : ThreadId)
    (channel : ChannelId) : CountChange system worker threadId channel after := by
  cases edge with
  | queueRequest visit control =>
      by_cases here : channel = visit.channel
      · subst here
        have counted := ownCount_enqueue threadId (system.direction worker visit)
          (system.request worker visit) (system.channels visit.channel)
        by_cases own : worker = threadId
        · refine .added visit control rfl own (by simp [queueRequest, leave]) ?_
          simpa [queueRequest, VmState.request, own] using counted
        · refine .unchanged ?_
          simpa [queueRequest, VmState.request, own] using counted
      · exact .unchanged (by simp [queueRequest, leave, here])
  | settleFromBuffer visit settled memory control noPeer served =>
      refine .unchanged (ownCount_congr ?_)
      intro direction
      by_cases here : channel = visit.channel
      · subst here
        simp only [settleFromBuffer, Function.update_self]
        exact queue_useBuffer served direction
      · simp [settleFromBuffer, here]
  | skipPeer visit peer control =>
      by_cases here : channel = visit.channel
      · subst here
        obtain ⟨rest, front⟩ := shaped.front worker visit peer control
        have counted := ownCount_popPeer threadId front
        by_cases own : peer.threadId = threadId
        · refine .removed visit peer control rfl own ?_
          simpa [skipPeer, own] using counted
        · refine .unchanged ?_
          simpa [skipPeer, own] using counted.symm
      · exact .unchanged (by simp [skipPeer, here])
  | matchPeer visit peer settled memory control raised exchanged =>
      by_cases here : channel = visit.channel
      · subst here
        obtain ⟨rest, front⟩ := shaped.front worker visit peer control
        have counted := ownCount_popPeer threadId front
        have settledCount : ownCount threadId settled =
            ownCount threadId (popPeer (system.direction worker visit)
              (system.channels visit.channel)) :=
          ownCount_congr (queue_exchange exchanged)
        by_cases own : peer.threadId = threadId
        · refine .removed visit peer control rfl own ?_
          simpa [matchPeer, own, settledCount] using counted
        · refine .unchanged ?_
          simpa [matchPeer, own, settledCount] using counted.symm
      · exact .unchanged (by simp [matchPeer, here])
  | passCancel owner cancelled remaining handledIndex control =>
      by_cases here : channel = cancelled
      · subst here
        by_cases own : victim worker owner = threadId
        · refine .cancelled owner remaining handledIndex control own ?_
          simp only [cancelIn, Function.update_self, own]
          exact ownCount_cancelRequest_self threadId _
        · refine .unchanged ?_
          simp only [cancelIn, Function.update_self]
          exact ownCount_cancelRequest_other own _
      · exact .unchanged (by simp [cancelIn, here])
  | passFinish owner handledIndex control =>
      refine .unchanged ?_
      cases owner <;> rfl
  | _ => exact .unchanged rfl

end Steps

/-- The alternatives a thread has registered when it is at a control point. -/
def Control.visited (channelCount : ℕ) : Control → List ℕ
  | .registering queued _ => queued
  | .entered visit => visit.queued
  | .scanning visit => visit.queued
  | .inspecting visit _ => visit.queued
  | _ => List.range channelCount

/-- The requests a cancellation loop still has to remove.  It skips the entries
of the handled channel. -/
def leftover (instruction : Instruction) (handled : Option ChannelId) (indices : List ℕ)
    (channel : ChannelId) : ℕ :=
  if handled = some channel then 0 else tableCount instruction indices channel

/-- What remains of the thread's own requests while its worker settles or
withdraws the instruction. -/
def Control.ownLeftover (instruction : Instruction) (control : Control)
    (channel : ChannelId) : ℕ :=
  match control with
  | .cancelling (.callback visit _) _ =>
      leftover instruction (some visit.channel) visit.queued channel
  | .waking visit _ => leftover instruction (some visit.channel) visit.queued channel
  | .handled visit => leftover instruction (some visit.channel) visit.queued channel
  | .cancelling (.handled visit) pass =>
      leftover instruction (some visit.channel) pass.remaining channel
  | .cancelling .nonBlocking pass => leftover instruction none pass.remaining channel
  | _ => 0

/-- What remains of the peer's requests while a worker runs its callback. -/
def Control.peerLeftover (instruction : Instruction) (control : Control)
    (channel : ChannelId) : ℕ :=
  match control with
  | .cancelling (.callback visit _) pass =>
      leftover instruction (some visit.channel) pass.remaining channel
  | _ => 0

/-- An upper bound for the queued requests of a thread in each phase. -/
def bound (system : VmState Value) (threadId : ThreadId) (channel : ChannelId) : ℕ :=
  let instruction := system.instruction threadId
  match system.phase threadId with
  | .quiet => 0
  | .offering =>
      tableCount instruction
        ((system.control threadId).visited instruction.channelCount) channel
  | .completing => (system.control threadId).ownLeftover instruction channel
  | .completedBy worker => (system.control worker).peerLeftover instruction channel
  | .withdrawn => (system.control threadId).ownLeftover instruction channel

/-- The requests of a thread are requests of its current instruction, and the
bounds hold. -/
structure Current (threadId : ThreadId) (system : VmState Value) : Prop where
  issued : ∀ channel direction, ∀ request ∈ queue direction (system.channels channel),
    request.threadId = threadId →
      request.requestHandledCallback =
          ⟨system.instruction threadId, system.serial threadId⟩ ∧
        ∃ index, (system.instruction threadId).channelAt index = some channel ∧
          direction = directionOf (system.instruction threadId) index ∧
          request.data = (system.instruction threadId).dataAt index
  matched : ∀ worker visit peer pass,
    system.control worker = .cancelling (.callback visit peer) pass →
    peer.threadId = threadId →
      peer.requestHandledCallback.instruction = system.instruction threadId
  bounded : system.control threadId ≠ .broken →
    ∀ channel, ownCount threadId (system.channels channel) ≤ bound system threadId channel
  logged : ∀ entry ∈ system.transfers, entry.threadId = threadId →
    entry.during = some entry.issuedBy

/-- Where a request of the thread is settled, the thread has no second
request. -/
def SoleRequest (threadId : ThreadId) (system : VmState Value) (worker : ThreadId)
    (_ : Action) : Prop :=
  (∀ visit served, worker = threadId → system.control worker = .scanning visit →
    peers (system.direction worker visit) (system.channels visit.channel) = [] →
    useBuffer (system.direction worker visit) (system.request worker visit) system.memory
        (system.channels visit.channel) = .ok (some served) →
      ownCount threadId (system.channels visit.channel) = 0) ∧
  ∀ visit peer, system.control worker = .inspecting visit peer →
    system.pendingRequest peer.threadId = true →
      (worker = threadId → ownCount threadId (system.channels visit.channel) = 0) ∧
      (peer.threadId = threadId → ownCount threadId (system.channels visit.channel) = 1)

theorem tableCount_le_of_subperm {instruction : Instruction} {first second : List ℕ}
    (within : List.Subperm first second) (channel : ChannelId) :
    tableCount instruction first channel ≤ tableCount instruction second channel :=
  within.countP_le _

theorem leftover_le_of_subperm {instruction : Instruction} {handled : Option ChannelId}
    {first second : List ℕ} (within : List.Subperm first second) (channel : ChannelId) :
    leftover instruction handled first channel ≤
      leftover instruction handled second channel := by
  unfold leftover
  split
  · exact le_rfl
  · exact tableCount_le_of_subperm within channel

theorem leftover_nil (instruction : Instruction) (handled : Option ChannelId)
    (channel : ChannelId) : leftover instruction handled [] channel = 0 := by
  simp [leftover, tableCount]

/-- An entry of the handled channel does not count. -/
theorem leftover_handled {instruction : Instruction} {handled : Option ChannelId}
    {index : ℕ} {entry : ChannelId} (isChannel : instruction.channelAt index = some entry)
    (isHandled : handled = some entry) (rest : List ℕ) (channel : ChannelId) :
    leftover instruction handled (index :: rest) channel =
      leftover instruction handled rest channel := by
  unfold leftover
  by_cases here : handled = some channel
  · rw [if_pos here, if_pos here]
  · rw [if_neg here, if_neg here]
    have different : some entry ≠ some channel := by
      rw [← isHandled]
      exact here
    apply List.countP_cons_of_neg
    rw [isChannel, beq_iff_eq]
    exact different

/-- An entry of another channel counts once for its channel. -/
theorem leftover_cons {instruction : Instruction} {handled : Option ChannelId}
    {index : ℕ} {entry : ChannelId} (isChannel : instruction.channelAt index = some entry)
    (notHandled : handled ≠ some entry) (rest : List ℕ) (channel : ChannelId) :
    leftover instruction handled (index :: rest) channel =
      leftover instruction handled rest channel + if channel = entry then 1 else 0 := by
  unfold leftover
  by_cases here : handled = some channel
  · have different : channel ≠ entry := by
      rintro rfl
      exact notHandled here
    simp [here, different]
  · rw [if_neg here, if_neg here]
    simp only [tableCount, List.countP_cons, isChannel, beq_iff_eq, Option.some.injEq]
    by_cases same : channel = entry
    · subst same
      simp
    · simp [same, Ne.symm same]

section Steps

variable [IntCast Value]

theorem phase_others {system after : VmState Value} {worker : ThreadId}
    (edge : Edge system worker after) {threadId : ThreadId} (different : threadId ≠ worker) :
    after.phase threadId = system.phase threadId ∨
      (∃ visit peer channel memory, system.control worker = .inspecting visit peer ∧
        peer.threadId = threadId ∧ system.pendingRequest peer.threadId = true ∧
        exchange (system.direction worker visit) (system.request worker visit) peer
            system.memory
            (popPeer (system.direction worker visit) (system.channels visit.channel)) =
          .ok (channel, memory) ∧
        after = system.matchPeer worker visit peer channel memory) ∨
      ∃ visit peer, system.control worker = .waking visit peer ∧ peer.threadId = threadId := by
  cases edge with
  | matchPeer visit peer channel memory control raised exchanged =>
      by_cases isPeer : threadId = peer.threadId
      · exact Or.inr (Or.inl ⟨visit, peer, channel, memory, control, isPeer.symm, raised,
          exchanged, rfl⟩)
      · exact Or.inl (by simp [matchPeer, isPeer, different])
  | wake visit peer control | wakeMissed visit peer control =>
      by_cases isPeer : threadId = peer.threadId
      · exact Or.inr (Or.inr ⟨visit, peer, control, isPeer.symm⟩)
      · exact Or.inl (by simp [wake, wakeMissed, isPeer])
  | passFinish owner handledIndex control =>
      left
      cases owner <;>
        simp [finishPass, setControl, writeIndex, finish, unlockRequest, different]
  | _ =>
      left
      simp [startInstruction, lockRequest, suspend, setControl, enter, leave, lockPeer,
        queueRequest, settleFromBuffer, skipPeer, lockChannel, cancelIn, writeIndex, finish,
        withdraw, unlockRequest, different]

/-- Only the thread's own step adds to its requests. -/
theorem ownCount_le {system after : VmState Value} {worker : ThreadId}
    (shaped : Shaped system) (edge : Edge system worker after) {threadId : ThreadId}
    (quiet : worker = threadId → ∀ queued todo,
      after.control worker = .registering queued todo →
        ∀ visit, system.control worker ≠ .scanning visit)
    (channel : ChannelId) :
    ownCount threadId (after.channels channel) ≤
      ownCount threadId (system.channels channel) := by
  cases countChange_edge shaped edge threadId channel with
  | unchanged same => exact same.le
  | added visit control here own left same =>
      exact absurd control (quiet own _ _ left visit)
  | removed visit peer control here own same => omega
  | cancelled owner remaining handledIndex control own same => omega

/-- A serving worker moves only by its own steps. -/
theorem serving_others {system after : VmState Value} {worker other threadId : ThreadId}
    (edge : Edge system worker after) (different : other ≠ worker)
    (serving : (system.control other).serving = some threadId) :
    after.control other = system.control other := by
  rcases control_others edge other different with same | ⟨blocked, _⟩
  · exact same
  · rw [blocked] at serving
    cases serving

/-- Before its instruction is settled, the bound of a thread grows with the
alternatives it has visited. -/
theorem bound_le_of_visited {system after : VmState Value} {worker : ThreadId}
    (cycle : Lifecycle system) (edge : Edge system worker after)
    (unsettled : system.phase worker = .offering ∨
      ∃ other, system.phase worker = .completedBy other)
    (notServing : (system.control worker).serving = none)
    (phase : after.phase worker = system.phase worker)
    (instruction : after.instruction worker = system.instruction worker)
    (visited : List.Subperm
      ((system.control worker).visited (system.instruction worker).channelCount)
      ((after.control worker).visited (system.instruction worker).channelCount))
    (channel : ChannelId) : bound system worker channel ≤ bound after worker channel := by
  simp only [bound, phase, instruction]
  rcases unsettled with offering | ⟨other, completed⟩
  · rw [offering]
    exact tableCount_le_of_subperm visited channel
  · have serving := (cycle.served worker other).mp completed
    have different : other ≠ worker := by
      rintro rfl
      rw [notServing] at serving
      cases serving
    rw [completed]
    simp only
    rw [serving_others edge different serving]

/-- What a plain send or receive leaves behind when its only alternative was
settled: nothing. -/
theorem leftover_plain {instruction : Instruction} (plain : instruction.isAlt = false)
    {index : ℕ} {channel : ChannelId} (isChannel : instruction.channelAt index = some channel)
    {indices : List ℕ}
    (within : List.Subperm indices (List.range instruction.channelCount))
    (other : ChannelId) : leftover instruction (some channel) indices other = 0 := by
  apply Nat.eq_zero_of_le_zero
  refine (leftover_le_of_subperm within other).trans ?_
  have single : List.range instruction.channelCount = [0] ∧ index = 0 := by
    cases instruction with
    | send asked src dest =>
        refine ⟨rfl, ?_⟩
        cases index with
        | zero => rfl
        | succ index => cases isChannel
    | recv asked dest =>
        refine ⟨rfl, ?_⟩
        cases index with
        | zero => rfl
        | succ index => cases isChannel
    | alt blocking layout dest => cases plain
  obtain ⟨range, rfl⟩ := single
  rw [range, leftover_handled isChannel rfl, leftover_nil]

/-- A cancellation loop that serves another thread is a callback. -/
theorem callback_of_serving {owner : PassOwner} {pass : CancelPass} {threadId : ThreadId}
    (serving : (Control.cancelling owner pass).serving = some threadId) :
    ∃ visit peer, owner = .callback visit peer ∧ peer.threadId = threadId := by
  cases owner with
  | callback visit peer => exact ⟨visit, peer, rfl, Option.some.inj serving⟩
  | handled visit => cases serving
  | nonBlocking => cases serving

/-- A step of a worker that serves the thread. -/
theorem bounded_served {system after : VmState Value} {worker threadId : ThreadId}
    (cycle : Lifecycle system) (shaped : Shaped system) (current : Current threadId system)
    (edge : Edge system worker after) (different : threadId ≠ worker)
    (completed : system.phase threadId = .completedBy worker)
    (running : after.control threadId ≠ .broken) (channel : ChannelId) :
    ownCount threadId (after.channels channel) ≤ bound after threadId channel := by
  have serving := (cycle.served threadId worker).mp completed
  have runningBefore : system.control threadId ≠ .broken := by
    rcases control_others edge threadId different with same | ⟨blocked, _⟩
    · rwa [← same]
    · simp [blocked]
  have before := current.bounded runningBefore channel
  have counted := ownCount_le shaped edge (fun own => absurd own.symm different) channel
  simp only [bound, completed] at before
  cases edge with
  | passHandled owner index rest handledIndex entry control isChannel isHandled =>
      rw [control] at before serving
      obtain ⟨visit, peer, rfl, own⟩ := callback_of_serving serving
      have isEntry : (system.instruction threadId).channelAt index = some entry := by
        rw [← current.matched worker visit peer _ control own]
        exact isChannel
      have isHere : some visit.channel = some entry := isHandled
      simp only [Control.peerLeftover, leftover_handled isEntry isHere] at before
      simpa only [bound, setControl, completed, Function.update_self,
        Control.peerLeftover] using counted.trans before
  | passAsk owner index rest handledIndex entry control =>
      rw [control] at before serving
      obtain ⟨visit, peer, rfl, own⟩ := callback_of_serving serving
      simpa only [bound, setControl, completed, Function.update_self,
        Control.peerLeftover] using counted.trans before
  | passLock owner entry remaining handledIndex control free =>
      rw [control] at before serving
      obtain ⟨visit, peer, rfl, own⟩ := callback_of_serving serving
      simpa only [bound, lockChannel, completed, Function.update_self,
        Control.peerLeftover] using counted.trans before
  | passCancel owner entry remaining handledIndex control =>
      rw [control] at before serving
      obtain ⟨visit, peer, rfl, own⟩ := callback_of_serving serving
      obtain ⟨notHandled, index, rest, rfl, isChannel⟩ :=
        shaped.pass worker _ _ _ _ entry control (Or.inr rfl)
      have isEntry : (system.instruction threadId).channelAt index = some entry := by
        rw [← current.matched worker visit peer _ control own]
        exact isChannel
      have elsewhere : some visit.channel ≠ some entry := notHandled
      simp only [Control.peerLeftover, leftover_cons isEntry elsewhere] at before
      simp only [bound, cancelIn, completed, Function.update_self, List.tail_cons,
        Control.peerLeftover]
      by_cases here : channel = entry
      · subst here
        have isVictim : victim worker (.callback visit peer) = threadId := own
        rw [Function.update_self, isVictim, ownCount_cancelRequest_self]
        rw [if_pos rfl] at before
        omega
      · rw [Function.update_of_ne here]
        simpa [here] using before
  | passFinish owner handledIndex control =>
      rw [control] at before serving
      obtain ⟨visit, peer, rfl, own⟩ := callback_of_serving serving
      simp only [Control.peerLeftover, leftover_nil] at before
      exact (counted.trans before).trans (Nat.zero_le _)
  | wake visit peer control | wakeMissed visit peer control =>
      rw [control] at before
      exact (counted.trans before).trans (Nat.zero_le _)
  | start instruction order control
  | lockRequest queued control | suspend queued control | throwNil queued index todo control
  | enter queued index todo entry control | scan visit control | leave visit control
  | lockPeer visit peer rest control | queueRequest visit control
  | settleFromBuffer visit settled memory control | skipPeer visit peer control
  | matchPeer visit peer settled memory control | finishAlone visit control
  | clear visit control | finishPlain visit control | withdraw control
  | giveUp control =>
      rw [control] at serving
      cases serving

omit [IntCast Value] in
/-- Another worker matched a request of the thread. -/
theorem bounded_matched {system : VmState Value} {worker threadId : ThreadId}
    (held : LocksHeld system) (cycle : Lifecycle system) (shaped : Shaped system)
    (current : Current threadId system)
    {visit : Visit} {peer : Request HandledCallback}
    {settled : Channel HandledCallback Value} {memory : Address → Value}
    (control : system.control worker = .inspecting visit peer)
    (raised : system.pendingRequest peer.threadId = true)
    (own : peer.threadId = threadId)
    (sole : ownCount threadId (system.channels visit.channel) = 1)
    (running : system.control threadId ≠ .broken)
    (exchanged : ownCount threadId settled + 1 =
      ownCount threadId (system.channels visit.channel)) (channel : ChannelId) :
    ownCount threadId
        ((system.matchPeer worker visit peer settled memory).channels channel) ≤
      bound (system.matchPeer worker visit peer settled memory) threadId channel := by
  subst own
  have different := held.peerElse worker visit peer control
  have offering := cycle.offering_of_pending raised
  obtain ⟨rest, front⟩ := shaped.front worker visit peer control
  have member : peer ∈ queue (system.direction worker visit).opposite
      (system.channels visit.channel) := by
    change peer ∈ peers _ _
    rw [front]
    exact List.mem_cons_self
  obtain ⟨callback, index, isChannel, _, _⟩ :=
    current.issued visit.channel _ peer member rfl
  have table : peer.requestHandledCallback.instruction =
      system.instruction peer.threadId := by rw [callback]
  have before := current.bounded running channel
  simp only [bound, offering] at before
  have visited : List.Subperm
      ((system.control peer.threadId).visited
        (system.instruction peer.threadId).channelCount)
      (List.range (system.instruction peer.threadId).channelCount) := by
    cases peerControl : system.control peer.threadId with
    | registering queued todo =>
        exact (List.sublist_append_left queued todo).subperm.trans
          (shaped.loop _ _ _ peerControl).subperm
    | entered other | scanning other | inspecting other _ =>
        exact (List.sublist_append_left other.queued _).subperm.trans
          (shaped.visit _ other (by rw [peerControl]; rfl)).1.subperm
    | _ => exact List.Subperm.refl _
  by_cases here : channel = visit.channel
  · subst here
    simp only [matchPeer, Function.update_self]
    omega
  · have counted : ownCount peer.threadId
        ((system.matchPeer worker visit peer settled memory).channels channel) =
          ownCount peer.threadId (system.channels channel) := by
      simp [matchPeer, here]
    rw [counted]
    have elsewhere : some visit.channel ≠ some channel := by
      simpa using Ne.symm here
    have inRange := before.trans (tableCount_le_of_subperm visited channel)
    simp only [bound, matchPeer, Function.update_self]
    rw [table]
    cases isAlt : (system.instruction peer.threadId).isAlt with
    | true =>
        simpa [Control.peerLeftover, CancelPass.start, leftover, elsewhere] using inRange
    | false =>
        have nothing := leftover_plain isAlt isChannel visited channel
        simp only [leftover, if_neg elsewhere] at nothing
        rw [nothing] at before
        exact before.trans (Nat.zero_le _)

theorem bounded_others {system after : VmState Value} {worker threadId : ThreadId}
    {action : Action} (held : LocksHeld system) (cycle : Lifecycle system)
    (shaped : Shaped system) (current : Current threadId system)
    (sole : SoleRequest threadId system worker action)
    (edge : Edge system worker after) (different : threadId ≠ worker)
    (running : after.control threadId ≠ .broken) (channel : ChannelId) :
    ownCount threadId (after.channels channel) ≤ bound after threadId channel := by
  by_cases completed : system.phase threadId = .completedBy worker
  · exact bounded_served cycle shaped current edge different completed running channel
  · have unserved {visit : Visit} {peer : Request HandledCallback}
        (waking : system.control worker = .waking visit peer) : peer.threadId ≠ threadId := by
      intro own
      apply completed
      rw [cycle.served, waking, ← own]
      rfl
    rcases phase_others edge different with
      same | ⟨visit, peer, settled, memory, control, own, raised, exchanged, rfl⟩ |
        ⟨visit, peer, control, own⟩
    · have instruction : after.instruction threadId = system.instruction threadId := by
        rcases instruction_edge edge threadId with ⟨same, _⟩ | ⟨own, _⟩
        · exact same
        · exact absurd own different
      have unmoved : system.control threadId ≠ .broken ∧
          (system.phase threadId ≠ .quiet →
            (system.control threadId).visited (system.instruction threadId).channelCount =
              (after.control threadId).visited
                (system.instruction threadId).channelCount ∧
            (system.control threadId).ownLeftover (system.instruction threadId) channel =
              (after.control threadId).ownLeftover (system.instruction threadId)
                channel) := by
        rcases control_others edge threadId different with unchanged | ⟨blocked, idle⟩
        · rw [unchanged] at running ⊢
          exact ⟨running, fun _ => ⟨rfl, rfl⟩⟩
        · rw [blocked, idle]
          exact ⟨by simp, fun _ => ⟨rfl, rfl⟩⟩
      have before := current.bounded unmoved.1 channel
      have counted := ownCount_le shaped edge (fun own => absurd own.symm different) channel
      apply counted.trans
      apply before.trans
      apply Nat.le_of_eq
      simp only [bound, same, instruction]
      cases phase : system.phase threadId with
      | quiet => rfl
      | offering =>
          simp only
          rw [(unmoved.2 (by simp [phase])).1]
      | completing =>
          exact (unmoved.2 (by simp [phase])).2
      | withdrawn =>
          exact (unmoved.2 (by simp [phase])).2
      | completedBy other =>
          have elsewhere : other ≠ worker := by
            rintro rfl
            exact completed phase
          simp only
          rw [serving_others edge elsewhere ((cycle.served threadId other).mp phase)]
    · obtain ⟨rest, front⟩ := shaped.front worker visit peer control
      have runningBefore : system.control threadId ≠ .broken := by
        simpa [matchPeer, different] using running
      have popped : ownCount threadId settled + 1 =
          ownCount threadId (system.channels visit.channel) := by
        rw [ownCount_congr (queue_exchange exchanged), ownCount_popPeer threadId front,
          if_pos own]
      exact bounded_matched held cycle shaped current control raised own
        ((sole.2 visit peer control raised).2 own) runningBefore popped channel
    · exact absurd own (unserved control)

omit [IntCast Value] in
/-- The alternatives visited so far are among those of the table. -/
theorem queued_subperm {system : VmState Value} (shaped : Shaped system) {worker : ThreadId}
    {visit : Visit} (visiting : (system.control worker).visit = some visit) :
    List.Subperm visit.queued (List.range (system.instruction worker).channelCount) :=
  (List.sublist_append_left visit.queued _).subperm.trans
    (shaped.visit worker visit visiting).1.subperm

omit [IntCast Value] in
/-- The instruction of the worker itself was handled at once. -/
theorem bounded_settled {system after : VmState Value} {worker : ThreadId} {visit : Visit}
    (offering : system.phase worker = .offering)
    (visited : (system.control worker).visited (system.instruction worker).channelCount =
      visit.queued)
    (current : Current worker system) (running : system.control worker ≠ .broken)
    (sole : ownCount worker (system.channels visit.channel) = 0)
    (counted : ∀ channel, ownCount worker (after.channels channel) ≤
      ownCount worker (system.channels channel))
    (phase : after.phase worker = .completing)
    (instruction : after.instruction worker = system.instruction worker)
    (control : ∀ channel, (after.control worker).ownLeftover (system.instruction worker)
      channel = leftover (system.instruction worker) (some visit.channel) visit.queued channel)
    (channel : ChannelId) :
    ownCount worker (after.channels channel) ≤ bound after worker channel := by
  have before := current.bounded running channel
  simp only [bound, offering, visited] at before
  simp only [bound, phase, instruction, control]
  by_cases here : channel = visit.channel
  · subst here
    calc
      _ ≤ _ := counted _
      _ = 0 := sole
      _ ≤ _ := Nat.zero_le _
  · have elsewhere : some visit.channel ≠ some channel := by
      simpa using Ne.symm here
    rw [leftover, if_neg elsewhere]
    exact (counted channel).trans before

/-- A worker's own requests in a cancellation loop. -/
theorem bounded_passCancel {system : VmState Value} {worker : ThreadId}
    (shaped : Shaped system) (current : Current worker system)
    (cycle : Lifecycle system) {owner : PassOwner} {entry : ChannelId}
    {remaining : List ℕ} {handledIndex : Int}
    (control : system.control worker =
      .cancelling owner ⟨.holding entry, remaining, handledIndex⟩) (channel : ChannelId) :
    ownCount worker ((system.cancelIn worker owner
        ⟨.holding entry, remaining, handledIndex⟩ entry).channels channel) ≤
      bound (system.cancelIn worker owner ⟨.holding entry, remaining, handledIndex⟩ entry)
        worker channel := by
  have before := current.bounded (by simp [control]) channel
  have counted := ownCount_le shaped (.passCancel owner entry remaining handledIndex control)
    (fun own : worker = worker => by simp [control]) channel
  obtain ⟨notHandled, index, rest, rfl, isChannel⟩ :=
    shaped.pass worker _ _ _ _ entry control (Or.inr rfl)
  have cancelled (isVictim : victim worker owner = worker) (handled : Option ChannelId)
      (elsewhere : handled ≠ some entry)
      (isEntry : (system.instruction worker).channelAt index = some entry)
      (bounded : ownCount worker (system.channels channel) ≤
        leftover (system.instruction worker) handled (index :: rest) channel) :
      ownCount worker ((system.cancelIn worker owner
          ⟨.holding entry, index :: rest, handledIndex⟩ entry).channels channel) ≤
        leftover (system.instruction worker) handled rest channel := by
    rw [leftover_cons isEntry elsewhere] at bounded
    simp only [cancelIn]
    by_cases here : channel = entry
    · subst here
      rw [Function.update_self, isVictim, ownCount_cancelRequest_self]
      rw [if_pos rfl] at bounded
      omega
    · rw [Function.update_of_ne here]
      simpa [here] using bounded
  cases owner with
  | callback visit peer =>
      have completing := cycle.completing_of_settling (by rw [control]; rfl)
      simp only [bound, completing, control, Control.ownLeftover] at before
      simpa only [bound, cancelIn, completing, Function.update_self, Control.ownLeftover]
        using counted.trans before
  | handled visit =>
      have completing := cycle.completing_of_settling (by rw [control]; rfl)
      simp only [bound, completing, control, Control.ownLeftover] at before
      have after := cancelled rfl (some visit.channel) notHandled isChannel before
      simpa only [bound, cancelIn, completing, Function.update_self, Control.ownLeftover,
        List.tail_cons] using after
  | nonBlocking =>
      have withdrawn := cycle.withdrawn_of_withdrawing (by rw [control]; rfl)
      simp only [bound, withdrawn, control, Control.ownLeftover] at before
      have after := cancelled rfl none notHandled isChannel before
      simpa only [bound, cancelIn, withdrawn, Function.update_self, Control.ownLeftover,
        List.tail_cons] using after

theorem bounded_own {system after : VmState Value} {worker : ThreadId} {action : Action}
    (held : LocksHeld system) (cycle : Lifecycle system) (shaped : Shaped system)
    (current : Current worker system) (sole : SoleRequest worker system worker action)
    (edge : Edge system worker after) (running : after.control worker ≠ .broken)
    (channel : ChannelId) :
    ownCount worker (after.channels channel) ≤ bound after worker channel := by
  have step := edge
  have passive {now : Control} (control : system.control worker = now)
      (role : now.role = .passive) : system.phase worker = .offering ∨
        ∃ other, system.phase worker = .completedBy other := by
    rcases cycle.passive_cases (by rw [control]; exact role) with
      ⟨offering, _⟩ | ⟨other, completed, _⟩
    · exact Or.inl offering
    · exact Or.inr ⟨other, completed⟩
  have searching {now : Control} (control : system.control worker = now)
      (role : now.role = .searching) : system.phase worker = .offering :=
    cycle.offering_of_searching (by rw [control]; exact role)
  have settling {now : Control} (control : system.control worker = now)
      (role : now.role = .settling) : system.phase worker = .completing :=
    cycle.completing_of_settling (by rw [control]; exact role)
  have counted (alone : worker = worker → ∀ queued todo,
      after.control worker = .registering queued todo →
        ∀ visit, system.control worker ≠ .scanning visit) (channel : ChannelId) :=
    ownCount_le shaped edge alone channel
  have before {now : Control} (control : system.control worker = now)
      (notBroken : now ≠ .broken) := current.bounded (control ▸ notBroken) channel
  cases edge with
  | start instruction order idle =>
      have nothing := before idle (by simp)
      simp only [bound, cycle.quiet_of_idle idle] at nothing
      exact nothing.trans (Nat.zero_le _)
  | throwNil queued index todo control => simp [setControl] at running
  | lockRequest queued control =>
      refine (before control (by simp)).trans (bound_le_of_visited cycle step
        (passive control rfl) (by rw [control]; rfl) rfl rfl ?_ channel)
      rw [control]
      simpa [VmState.lockRequest, Control.visited] using
        (shaped.loop worker queued [] control).subperm
  | suspend queued control =>
      refine (before control (by simp)).trans (bound_le_of_visited cycle step
        (passive control rfl) (by rw [control]; rfl) rfl rfl ?_ channel)
      rw [control]
      simpa [VmState.suspend, Control.visited] using
        (shaped.loop worker queued [] control).subperm
  | giveUp control =>
      refine (before control (by simp)).trans (bound_le_of_visited cycle step
        (passive control rfl) (by rw [control]; rfl) rfl rfl ?_ channel)
      rw [control]
      simpa [VmState.suspend, unlockRequest, Control.visited] using List.Subperm.refl _
  | enter queued index todo entry control =>
      refine (before control (by simp)).trans (bound_le_of_visited cycle step
        (passive control rfl) (by rw [control]; rfl) rfl rfl ?_ channel)
      rw [control]
      simpa [VmState.enter, Control.visited] using List.Subperm.refl _
  | leave visit control =>
      refine (counted (fun _ _ _ _ => by simp [control]) channel).trans ?_
      refine (before control (by simp)).trans (bound_le_of_visited cycle step
        (passive control rfl) (by rw [control]; rfl) rfl rfl ?_ channel)
      rw [control]
      simpa [VmState.leave, Control.visited] using
        (List.sublist_append_left visit.queued [visit.index]).subperm
  | scan visit control =>
      refine (before control (by simp)).trans (bound_le_of_visited cycle step
        (passive control rfl) (by rw [control]; rfl) rfl rfl ?_ channel)
      rw [control]
      simpa [setControl, Control.visited] using List.Subperm.refl _
  | lockPeer visit peer rest control =>
      refine (before control (by simp)).trans (bound_le_of_visited cycle step
        (Or.inl (searching control rfl)) (by rw [control]; rfl) rfl rfl ?_ channel)
      rw [control]
      simpa [VmState.lockPeer, Control.visited] using List.Subperm.refl _
  | skipPeer visit peer control =>
      refine (counted (fun _ _ _ _ => by simp [control]) channel).trans ?_
      refine (before control (by simp)).trans (bound_le_of_visited cycle step
        (Or.inl (searching control rfl)) (by rw [control]; rfl) rfl rfl ?_ channel)
      rw [control]
      simpa [VmState.skipPeer, Control.visited] using List.Subperm.refl _
  | queueRequest visit control =>
      have offering := searching control rfl
      have isChannel := (shaped.visit worker visit (by rw [control]; rfl)).2
      have registered := before control (by simp)
      simp only [bound, offering, control, Control.visited] at registered
      simp only [bound, VmState.queueRequest, leave, offering, Function.update_self,
        Control.visited, tableCount, List.countP_append, List.countP_singleton, isChannel,
        beq_iff_eq, Option.some.injEq]
      by_cases here : channel = visit.channel
      · subst here
        rw [Function.update_self, ownCount_enqueue]
        simp only [tableCount] at registered
        simpa [VmState.request] using registered
      · rw [Function.update_of_ne here, if_neg (Ne.symm here)]
        exact registered
  | settleFromBuffer visit settled memory control noPeer served =>
      have alone := sole.1 visit (settled, memory) rfl control noPeer served
      refine bounded_settled (searching control rfl) (by rw [control]; rfl) current
        (by simp [control]) alone ?_ ?_ ?_ ?_ channel
      · exact counted (fun _ _ _ registering => by
          simp [VmState.settleFromBuffer] at registering)
      · simp [VmState.settleFromBuffer]
      · rfl
      · intro other
        simp [VmState.settleFromBuffer, Control.ownLeftover]
  | matchPeer visit peer settled memory control raised =>
      have different := held.peerElse worker visit peer control
      have alone := (sole.2 visit peer control raised).1 rfl
      refine bounded_settled (searching control rfl) (by rw [control]; rfl) current
        (by simp [control]) alone ?_ ?_ ?_ ?_ channel
      · exact counted (fun _ _ _ _ => by simp [control])
      · simp [VmState.matchPeer, Ne.symm different]
      · rfl
      · intro other
        rcases matchPeer_control system worker visit peer settled memory with
          matched | matched <;>
        · rw [matched]
          rfl
  | passHandled owner index rest handledIndex entry control isChannel isHandled =>
      have registered := before control (by simp)
      cases owner with
      | callback visit peer =>
          simp only [bound, settling control rfl, control, Control.ownLeftover] at registered
          simpa only [bound, setControl, settling control rfl, Function.update_self,
            Control.ownLeftover] using registered
      | handled visit =>
          have isHere : some visit.channel = some entry := isHandled
          have isEntry : (system.instruction worker).channelAt index = some entry := isChannel
          simp only [bound, settling control rfl, control, Control.ownLeftover,
            leftover_handled isEntry isHere] at registered
          simpa only [bound, setControl, settling control rfl, Function.update_self,
            Control.ownLeftover] using registered
      | nonBlocking => cases isHandled
  | passAsk owner index rest handledIndex entry control =>
      have registered := before control (by simp)
      cases owner with
      | callback visit peer | handled visit =>
          simp only [bound, settling control rfl, control, Control.ownLeftover] at registered
          simpa only [bound, setControl, settling control rfl, Function.update_self,
            Control.ownLeftover] using registered
      | nonBlocking =>
          have withdrawn := cycle.withdrawn_of_withdrawing (by rw [control]; rfl)
          simp only [bound, withdrawn, control, Control.ownLeftover] at registered
          simpa only [bound, setControl, withdrawn, Function.update_self,
            Control.ownLeftover] using registered
  | passLock owner entry remaining handledIndex control =>
      have registered := before control (by simp)
      cases owner with
      | callback visit peer | handled visit =>
          simp only [bound, settling control rfl, control, Control.ownLeftover] at registered
          simpa only [bound, lockChannel, settling control rfl, Function.update_self,
            Control.ownLeftover] using registered
      | nonBlocking =>
          have withdrawn := cycle.withdrawn_of_withdrawing (by rw [control]; rfl)
          simp only [bound, withdrawn, control, Control.ownLeftover] at registered
          simpa only [bound, lockChannel, withdrawn, Function.update_self,
            Control.ownLeftover] using registered
  | passCancel owner entry remaining handledIndex control =>
      exact bounded_passCancel shaped current cycle control channel
  | passFinish owner handledIndex control =>
      have registered := before control (by simp)
      cases owner with
      | callback visit peer =>
          simp only [bound, settling control rfl, control, Control.ownLeftover] at registered
          simpa only [bound, finishPass, setControl, writeIndex, settling control rfl,
            Function.update_self, Control.ownLeftover] using registered
      | handled visit =>
          simp only [bound, settling control rfl, control, Control.ownLeftover,
            leftover_nil] at registered
          exact registered.trans (Nat.zero_le _)
      | nonBlocking =>
          have withdrawn := cycle.withdrawn_of_withdrawing (by rw [control]; rfl)
          simp only [bound, withdrawn, control, Control.ownLeftover, leftover_nil]
            at registered
          exact registered.trans (Nat.zero_le _)
  | wake visit peer control blocked =>
      have registered := before control (by simp)
      have different : worker ≠ peer.threadId := by
        rintro same
        rw [← same, control] at blocked
        cases blocked
      simp only [bound, settling control rfl, control, Control.ownLeftover] at registered
      simpa only [bound, VmState.wake, Function.update_of_ne different,
        settling control rfl, Function.update_self, Control.ownLeftover] using registered
  | wakeMissed visit peer control stopped =>
      have registered := before control (by simp)
      have different : worker ≠ peer.threadId := by
        rintro same
        rw [← same, control] at stopped
        rcases stopped with idle | broken
        · cases idle
        · cases broken
      simp only [bound, settling control rfl, control, Control.ownLeftover] at registered
      simpa only [bound, VmState.wakeMissed, Function.update_of_ne different,
        settling control rfl, Function.update_self, Control.ownLeftover] using registered
  | clear visit control =>
      have registered := before control (by simp)
      simp only [bound, settling control rfl, control, Control.ownLeftover] at registered
      simp only [bound, setControl, settling control rfl, Function.update_self,
        Control.ownLeftover, CancelPass.start]
      exact registered.trans
        (leftover_le_of_subperm (queued_subperm shaped (by rw [control]; rfl)) channel)
  | finishAlone visit control isAlt alone =>
      have registered := before control (by simp)
      simp only [bound, settling control rfl, control, Control.ownLeftover, alone,
        leftover_nil] at registered
      exact registered.trans (Nat.zero_le _)
  | finishPlain visit control notAlt =>
      have registered := before control (by simp)
      have isChannel := (shaped.visit worker visit (by rw [control]; rfl)).2
      simp only [bound, settling control rfl, control, Control.ownLeftover,
        leftover_plain notAlt isChannel (queued_subperm shaped (by rw [control]; rfl))]
        at registered
      exact registered.trans (Nat.zero_le _)
  | withdraw control raised =>
      have registered := before control (by simp)
      simp only [bound, cycle.offering_of_pending raised, control, Control.visited]
        at registered
      simpa [bound, VmState.withdraw, Control.ownLeftover, CancelPass.start, leftover]
        using registered

theorem issued_edge {system after : VmState Value} {worker threadId : ThreadId}
    (cycle : Lifecycle system) (shaped : Shaped system) (current : Current threadId system)
    (edge : Edge system worker after) {channel : ChannelId} {direction : Direction}
    {request : Request HandledCallback}
    (member : request ∈ queue direction (after.channels channel))
    (own : request.threadId = threadId) :
    request.requestHandledCallback =
        ⟨after.instruction threadId, after.serial threadId⟩ ∧
      ∃ index, (after.instruction threadId).channelAt index = some channel ∧
        direction = directionOf (after.instruction threadId) index ∧
        request.data = (after.instruction threadId).dataAt index := by
  rcases mem_queue_edge edge member with
    earlier | ⟨visit, control, rfl, rfl, rfl, _⟩
  · rcases instruction_edge edge threadId with ⟨sameInstruction, sameSerial⟩ | ⟨rfl, idle⟩
    · rw [sameInstruction, sameSerial]
      exact current.issued channel direction request earlier own
    · -- an idle thread has no requests
      have nothing := current.bounded (by simp [idle]) channel
      simp only [bound, cycle.quiet_of_idle idle] at nothing
      have := ownCount_pos earlier own
      omega
  · have isWorker : worker = threadId := own
    subst isWorker
    rcases instruction_edge edge worker with ⟨sameInstruction, sameSerial⟩ | ⟨_, idle⟩
    · rw [sameInstruction, sameSerial]
      exact ⟨rfl, visit.index, (shaped.visit worker visit (by rw [control]; rfl)).2, rfl, rfl⟩
    · rw [idle] at control
      cases control

theorem callback_edge {system after : VmState Value} {worker : ThreadId}
    (edge : Edge system worker after) {visit : Visit} {peer : Request HandledCallback}
    {pass : CancelPass}
    (cancelling : after.control worker = .cancelling (.callback visit peer) pass) :
    (∃ earlier, system.control worker = .cancelling (.callback visit peer) earlier) ∨
      system.control worker = .inspecting visit peer := by
  cases edge with
  | start instruction order idle =>
      rcases startInstruction_control system worker instruction order with
        control | control <;>
      · rw [control] at cancelling
        cases cancelling
  | matchPeer other otherPeer settled memory control =>
      right
      simp only [VmState.matchPeer, Function.update_self] at cancelling
      split at cancelling
      · rw [Control.cancelling.injEq, PassOwner.callback.injEq] at cancelling
        obtain ⟨⟨rfl, rfl⟩, _⟩ := cancelling
        exact control
      · cases cancelling
  | passFinish owner handledIndex control =>
      cases owner <;>
        simp [finishPass, setControl, writeIndex, finish, unlockRequest] at cancelling
  | passHandled owner index rest handledIndex channel control
  | passAsk owner index rest handledIndex channel control
  | passLock owner channel remaining handledIndex control
  | passCancel owner channel remaining handledIndex control =>
      left
      simp only [setControl, lockChannel, cancelIn, Function.update_self,
        Control.cancelling.injEq] at cancelling
      obtain ⟨rfl, _⟩ := cancelling
      exact ⟨_, control⟩
  | _ =>
      simp [VmState.lockRequest, VmState.suspend, setControl, VmState.enter, VmState.leave,
        VmState.lockPeer, VmState.queueRequest, VmState.settleFromBuffer, VmState.skipPeer,
        VmState.wake, VmState.wakeMissed, writeIndex, finish, VmState.withdraw,
        unlockRequest] at cancelling

theorem matched_edge {system after : VmState Value} {worker threadId : ThreadId}
    (cycle : Lifecycle system) (shaped : Shaped system) (current : Current threadId system)
    (held : LocksHeld system)
    (edge : Edge system worker after) {server : ThreadId} {visit : Visit}
    {peer : Request HandledCallback} {pass : CancelPass}
    (cancelling : after.control server = .cancelling (.callback visit peer) pass)
    (own : peer.threadId = threadId) :
    peer.requestHandledCallback.instruction = after.instruction threadId := by
  by_cases same : server = worker
  · subst same
    rcases callback_edge edge cancelling with ⟨earlier, control⟩ | control
    · have completed : system.phase threadId = .completedBy server :=
        (cycle.served threadId server).mpr (by rw [control, ← own]; rfl)
      rcases instruction_edge edge threadId with ⟨kept, _⟩ | ⟨_, idle⟩
      · rw [kept]
        exact current.matched server visit peer earlier control own
      · rw [control] at idle
        cases idle
    · have different := held.peerElse server visit peer control
      obtain ⟨rest, front⟩ := shaped.front server visit peer control
      have member : peer ∈ queue (system.direction server visit).opposite
          (system.channels visit.channel) := by
        change peer ∈ peers _ _
        rw [front]
        exact List.mem_cons_self
      rcases instruction_edge edge threadId with ⟨kept, _⟩ | ⟨isServer, _⟩
      · rw [kept, (current.issued visit.channel _ peer member own).1]
      · exact absurd (own.trans isServer) different
  · have unchanged : after.control server = system.control server := by
      rcases control_others edge server same with kept | ⟨_, idle⟩
      · exact kept
      · rw [idle] at cancelling
        cases cancelling
    rw [unchanged] at cancelling
    have completed : system.phase threadId = .completedBy server :=
      (cycle.served threadId server).mpr (by rw [cancelling, ← own]; rfl)
    rcases instruction_edge edge threadId with ⟨kept, _⟩ | ⟨rfl, idle⟩
    · rw [kept]
      exact current.matched server visit peer pass cancelling own
    · rw [cycle.quiet_of_idle idle] at completed
      cases completed

theorem logged_edge {system after : VmState Value} {worker threadId : ThreadId}
    (cycle : Lifecycle system) (shaped : Shaped system) (current : Current threadId system)
    (edge : Edge system worker after) {entry : Transfer} (member : entry ∈ after.transfers)
    (own : entry.threadId = threadId) : entry.during = some entry.issuedBy := by
  cases edge with
  | settleFromBuffer visit settled memory control =>
      simp only [VmState.settleFromBuffer, List.mem_append, List.mem_singleton] at member
      rcases member with earlier | rfl
      · exact current.logged entry earlier own
      · exact transfer_during system _ _ (by simp [VmState.request, control])
  | matchPeer visit peer settled memory control raised =>
      simp only [VmState.matchPeer, List.mem_append, List.mem_cons, List.not_mem_nil,
        or_false] at member
      rcases member with earlier | rfl | rfl
      · exact current.logged entry earlier own
      · exact transfer_during system _ _ (by simp [VmState.request, control])
      · have running : system.control peer.threadId ≠ .idle := by
          intro idle
          have quiet := cycle.quiet_of_idle idle
          rw [cycle.offering_of_pending raised] at quiet
          cases quiet
        obtain ⟨rest, front⟩ := shaped.front worker visit peer control
        have queued : peer ∈ queue (system.direction worker visit).opposite
            (system.channels visit.channel) := by
          change peer ∈ peers _ _
          rw [front]
          exact List.mem_cons_self
        have isPeer : peer.threadId = threadId := own
        have callback := (current.issued visit.channel _ peer queued isPeer).1
        rw [transfer_during system _ _ running, VmState.transfer, callback, isPeer]
  | passFinish owner handledIndex control =>
      cases owner <;> exact current.logged entry member own
  | _ => exact current.logged entry member own

theorem current_edge {system after : VmState Value} {worker threadId : ThreadId}
    {action : Action} (held : LocksHeld system) (cycle : Lifecycle system)
    (shaped : Shaped system) (current : Current threadId system)
    (sole : SoleRequest threadId system worker action)
    (edge : Edge system worker after) : Current threadId after where
  issued _ _ _ member own := issued_edge cycle shaped current edge member own
  matched _ _ _ _ cancelling own := matched_edge cycle shaped current held edge cancelling own
  bounded running channel := by
    by_cases same : threadId = worker
    · subst same
      exact bounded_own held cycle shaped current sole edge running channel
    · exact bounded_others held cycle shaped current sole edge same running channel
  logged _ member own := logged_edge cycle shaped current edge member own

theorem current_of_reached [Inhabited Value] {threadId : ThreadId} {system : VmState Value}
    (reached : Reached (SoleRequest threadId) system) : Current threadId system := by
  refine Reached.invariant (Current threadId) ?_ ?_ reached
  · intro initial isInitial
    have noRequest (channel : ChannelId) (direction : Direction) :
        queue direction (initial.channels channel) = [] := by
      obtain ⟨bufferLen, created⟩ := isInitial.created channel
      obtain ⟨_, _, _, senders, receivers, _⟩ := Channel.create_spec created
      cases direction with
      | send => exact senders
      | receive => exact receivers
    constructor
    · intro channel direction request member
      rw [noRequest] at member
      cases member
    · intro worker visit peer pass control
      rw [isInitial.idle] at control
      cases control
    · intro _ channel
      have zero : ownCount threadId (initial.channels channel) = 0 := by
        rw [ownCount_eq_zero]
        intro direction request member
        rw [noRequest] at member
        cases member
      rw [zero]
      exact Nat.zero_le _
    · intro entry member
      rw [isInitial.transfers] at member
      cases member
  · intro before worker action after earlier current sole stepped
    exact current_edge (locksHeld_of_reached earlier) (lifecycle_of_reached earlier)
      (shaped_of_reached earlier) current sole (edge_of_step stepped)

end Steps

end Disvm.ChannelSystem
