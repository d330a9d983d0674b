import Disvm.StaleRequests

/-!
# Instructions on distinct channels

A thread whose instructions name pairwise distinct channels, among any other
threads, never has two requests on one channel.  Where that holds of the
channels on which requests are settled, no request outlives its instruction.
-/

namespace Disvm.ChannelSystem

open VmState

open Function (update)

variable {Value : Type*}

/-- The channels of the table are not nil and pairwise distinct. -/
def Instruction.Distinct (instruction : Instruction) : Prop :=
  ∀ index < instruction.channelCount, (instruction.channelAt index).isSome = true ∧
    ∀ other < instruction.channelCount,
      instruction.channelAt index = instruction.channelAt other → index = other

instance (instruction : Instruction) : Decidable instruction.Distinct :=
  inferInstanceAs (Decidable (∀ index < _, _ ∧ ∀ other < _, _))

/-- The thread only starts instructions on distinct channels. -/
def DistinctAlternatives (threadId : ThreadId) (_ : VmState Value) (worker : ThreadId) :
    Action → Prop
  | .start instruction _ => worker = threadId → instruction.Distinct
  | .proceed => True
  | .tryLockFails => True

theorem index_lt_of_channelAt {instruction : Instruction} {index : ℕ} {channel : ChannelId}
    (isChannel : instruction.channelAt index = some channel) :
    index < instruction.channelCount := by
  have inside : index < instruction.layout.channels.length := by
    by_contra outside
    simp [Instruction.channelAt, List.getElem?_eq_none (Nat.le_of_not_lt outside)]
      at isChannel
  rw [instruction.layout.sized] at inside
  exact inside

theorem Instruction.Distinct.index_eq {instruction : Instruction}
    (distinct : instruction.Distinct) {first second : ℕ} {channel : ChannelId}
    (isFirst : instruction.channelAt first = some channel)
    (isSecond : instruction.channelAt second = some channel) : first = second :=
  (distinct first (index_lt_of_channelAt isFirst)).2 second (index_lt_of_channelAt isSecond)
    (isFirst.trans isSecond.symm)

theorem tableCount_le_one {instruction : Instruction} (distinct : instruction.Distinct)
    {indices : List ℕ} (nodup : indices.Nodup) (channel : ChannelId) :
    tableCount instruction indices channel ≤ 1 := by
  unfold tableCount
  rw [List.countP_eq_length_filter]
  have kept := nodup.filter (instruction.channelAt · == some channel)
  have member (index : ℕ)
      (inside : index ∈ indices.filter (instruction.channelAt · == some channel)) :
      instruction.channelAt index = some channel := by
    simpa using (List.mem_filter.mp inside).2
  match filtered : indices.filter (instruction.channelAt · == some channel) with
  | [] => exact Nat.zero_le 1
  | [_] => exact le_rfl
  | first :: second :: rest =>
      rw [filtered] at kept member
      have same : first = second :=
        distinct.index_eq (member first (by simp)) (member second (by simp))
      simp [same] at kept

theorem tableCount_eq_zero {instruction : Instruction} (distinct : instruction.Distinct)
    {indices : List ℕ} {index : ℕ} {channel : ChannelId}
    (isChannel : instruction.channelAt index = some channel) (fresh : index ∉ indices) :
    tableCount instruction indices channel = 0 := by
  unfold tableCount
  rw [List.countP_eq_zero]
  intro other member matched
  rw [beq_iff_eq] at matched
  exact fresh (distinct.index_eq matched isChannel ▸ member)

/-- What keeps a thread's runs within `SoleRequest`. -/
structure Undisturbed (threadId : ThreadId) (system : VmState Value) : Prop where
  running : system.control threadId ≠ .broken
  distinct : system.serial threadId ≠ 0 → (system.instruction threadId).Distinct
  started : system.control threadId ≠ .idle → system.serial threadId ≠ 0

theorem fresh_index {system : VmState Value} (shaped : Shaped system) {worker : ThreadId}
    {visit : Visit} (visiting : (system.control worker).visit = some visit) :
    visit.index ∉ visit.queued := by
  have nodup := (shaped.visit worker visit visiting).1.nodup_iff.mpr List.nodup_range
  intro member
  have disjoint := List.disjoint_of_nodup_append nodup
  exact disjoint member List.mem_cons_self

theorem sole_of_undisturbed {system : VmState Value} {threadId : ThreadId}
    (cycle : Lifecycle system) (shaped : Shaped system) (current : Current threadId system)
    (undisturbed : Undisturbed threadId system) (worker : ThreadId) (action : Action) :
    SoleRequest threadId system worker action := by
  have alone {visit : Visit} (visiting : (system.control threadId).visit = some visit)
      (visited : (system.control threadId).visited
        (system.instruction threadId).channelCount = visit.queued)
      (searching : (system.control threadId).role = .searching) :
      ownCount threadId (system.channels visit.channel) = 0 := by
    have distinct := undisturbed.distinct (undisturbed.started (by
      intro idle
      rw [idle] at visiting
      cases visiting))
    have before := current.bounded undisturbed.running visit.channel
    simp only [bound, cycle.offering_of_searching searching, visited] at before
    rw [tableCount_eq_zero distinct (shaped.visit threadId visit visiting).2
      (fresh_index shaped visiting)] at before
    exact Nat.eq_zero_of_le_zero before
  constructor
  · rintro visit served rfl control _ _
    exact alone (by rw [control]; rfl) (by rw [control]; rfl) (by rw [control]; rfl)
  · intro visit peer control raised
    constructor
    · rintro rfl
      exact alone (by rw [control]; rfl) (by rw [control]; rfl) (by rw [control]; rfl)
    · rintro rfl
      have offering := cycle.offering_of_pending raised
      have distinct := undisturbed.distinct (undisturbed.started (by
        intro idle
        rw [cycle.quiet_of_idle idle] at offering
        cases offering))
      have before := current.bounded undisturbed.running visit.channel
      simp only [bound, offering] at before
      have nodup : ((system.control peer.threadId).visited
          (system.instruction peer.threadId).channelCount).Nodup := by
        cases peerControl : system.control peer.threadId with
        | registering queued todo =>
            exact (List.nodup_append.mp ((shaped.loop _ _ _ peerControl).nodup_iff.mpr
              List.nodup_range)).1
        | entered other | scanning other | inspecting other _ =>
            exact (List.nodup_append.mp ((shaped.visit _ other
              (by rw [peerControl]; rfl)).1.nodup_iff.mpr List.nodup_range)).1
        | _ => exact List.nodup_range
      have atMost := before.trans (tableCount_le_one distinct nodup visit.channel)
      obtain ⟨rest, front⟩ := shaped.front worker visit peer control
      have member : peer ∈ queue (system.direction worker visit).opposite
          (system.channels visit.channel) := by
        change peer ∈ peers _ _
        rw [front]
        exact List.mem_cons_self
      have positive := ownCount_pos member rfl
      omega

section Steps

variable [IntCast Value]

/-- Only a start changes the instruction of a thread. -/
theorem instruction_step {system after : VmState Value} {worker : ThreadId} {action : Action}
    (notStart : ∀ instruction order, action ≠ .start instruction order)
    (stepped : system.step worker action = some after) :
    system.control worker ≠ .idle ∧ after.instruction = system.instruction ∧
      after.serial = system.serial := by
  have notIdle : system.control worker ≠ .idle := by
    intro idle
    cases action with
    | start instruction order => exact notStart instruction order rfl
    | proceed => simp [VmState.step, idle] at stepped
    | tryLockFails => simp [VmState.step, idle] at stepped
  refine ⟨notIdle, ?_⟩
  have kept (threadId : ThreadId) : after.instruction threadId = system.instruction threadId ∧
      after.serial threadId = system.serial threadId := by
    rcases instruction_edge (edge_of_step stepped) threadId with same | ⟨rfl, idle⟩
    · exact same
    · exact absurd idle notIdle
  exact ⟨funext fun threadId => (kept threadId).1, funext fun threadId => (kept threadId).2⟩

theorem broken_edge {system after : VmState Value} {worker : ThreadId}
    (edge : Edge system worker after) (broken : after.control worker = .broken) :
    (∃ instruction order,
        after = system.startInstruction worker instruction order ∧
          instruction.isAlt = false ∧ instruction.channelAt 0 = none) ∨
      ∃ queued index todo, system.control worker = .registering queued (index :: todo) ∧
        (system.instruction worker).channelAt index = none := by
  cases edge with
  | start instruction order idle =>
      left
      refine ⟨instruction, order, rfl, ?_⟩
      simp only [startInstruction, Function.update_self] at broken
      split at broken
      · next refused => simpa using refused
      · cases broken
  | throwNil queued index todo control isNil => exact Or.inr ⟨queued, index, todo, control, isNil⟩
  | matchPeer visit peer settled memory control =>
      rcases matchPeer_control system worker visit peer settled memory with
        matched | matched <;>
      · rw [matched] at broken
        cases broken
  | passFinish owner handledIndex control =>
      cases owner <;>
        simp [finishPass, setControl, writeIndex, finish, unlockRequest] at broken
  | _ =>
      simp [VmState.lockRequest, VmState.suspend, setControl, VmState.enter, VmState.leave,
        VmState.lockPeer, VmState.queueRequest, VmState.settleFromBuffer, VmState.skipPeer,
        lockChannel, cancelIn, VmState.wake, VmState.wakeMissed, writeIndex, finish,
        VmState.withdraw, unlockRequest] at broken

theorem undisturbed_step {system after : VmState Value} {worker threadId : ThreadId}
    {action : Action} (shaped : Shaped system) (undisturbed : Undisturbed threadId system)
    (allowed : DistinctAlternatives threadId system worker action)
    (stepped : system.step worker action = some after) : Undisturbed threadId after := by
  have edge := edge_of_step stepped
  by_cases own : threadId = worker
  · subst own
    by_cases starts : ∃ instruction order, action = .start instruction order
    · obtain ⟨instruction, order, rfl⟩ := starts
      have distinct : instruction.Distinct := allowed rfl
      simp only [VmState.step] at stepped
      split at stepped
      · cases stepped
        have accepted : (!instruction.isAlt && (instruction.channelAt 0).isNone) = false := by
          cases instruction with
          | send channel src dest =>
              simpa [Instruction.isAlt] using (distinct 0 Nat.zero_lt_one).1
          | recv channel dest =>
              simpa [Instruction.isAlt] using (distinct 0 Nat.zero_lt_one).1
          | alt blocking layout dest => rfl
        constructor
        · simp [startInstruction, accepted]
        · intro _
          simpa [startInstruction] using distinct
        · intro _
          simp [startInstruction]
      · cases stepped
    · have notStart (instruction : Instruction) (order : List ℕ) :
          action ≠ .start instruction order := fun is => starts ⟨instruction, order, is⟩
      obtain ⟨notIdle, sameInstruction, sameSerial⟩ := instruction_step notStart stepped
      have serial := undisturbed.started notIdle
      have distinct := undisturbed.distinct serial
      constructor
      · intro broken
        rcases broken_edge edge broken with
          ⟨instruction, order, rfl, _, _⟩ | ⟨queued, index, todo, control, isNil⟩
        · have := congrFun sameSerial threadId
          simp [startInstruction] at this
        · have inside : index ∈ List.range (system.instruction threadId).channelCount :=
            (shaped.loop threadId _ _ control).subset (by simp)
          have isSome := (distinct index (List.mem_range.mp inside)).1
          rw [isNil] at isSome
          cases isSome
      · rw [sameInstruction]
        exact fun _ => distinct
      · rw [sameSerial]
        exact fun _ => serial
  · have kept : after.instruction threadId = system.instruction threadId ∧
        after.serial threadId = system.serial threadId := by
      rcases instruction_edge edge threadId with same | ⟨same, _⟩
      · exact same
      · exact absurd same own
    rcases control_others edge threadId own with same | ⟨blocked, idle⟩
    · constructor
      · rw [same]
        exact undisturbed.running
      · rw [kept.1, kept.2]
        exact undisturbed.distinct
      · rw [same, kept.2]
        exact undisturbed.started
    · constructor
      · simp [idle]
      · rw [kept.1, kept.2]
        exact undisturbed.distinct
      · intro notIdle
        exact absurd idle notIdle

/-- Runs on distinct channels never settle a request next to a second one. -/
theorem undisturbed_of_reached [Inhabited Value] {threadId : ThreadId}
    {system : VmState Value} (reached : Reached (DistinctAlternatives threadId) system) :
    Reached (SoleRequest threadId) system ∧ Undisturbed threadId system := by
  refine Reached.invariant
    (fun system => Reached (SoleRequest threadId) system ∧ Undisturbed threadId system)
    ?_ ?_ reached
  · intro initial isInitial
    refine ⟨Transition.Reachable.start isInitial, ⟨?_, ?_, ?_⟩⟩
    · simp [isInitial.idle]
    · intro started
      exact absurd (isInitial.serial threadId) started
    · intro notIdle
      exact absurd (isInitial.idle threadId) notIdle
  · rintro before worker action after _ ⟨earlier, undisturbed⟩ allowed stepped
    have shaped := shaped_of_reached earlier
    have sole := sole_of_undisturbed (lifecycle_of_reached earlier) shaped
      (current_of_reached earlier) undisturbed worker action
    exact ⟨earlier.next ⟨(worker, action), sole, stepped⟩,
      undisturbed_step shaped undisturbed allowed stepped⟩

/-- A completed instruction has left no request behind, every queued request
belongs to the current instruction, and no transfer was made for an earlier
one. -/
def NoStaleRequest (threadId : ThreadId) (system : VmState Value) : Prop :=
  (system.control threadId = .idle → ∀ channel direction,
    ∀ request ∈ queue direction (system.channels channel), request.threadId ≠ threadId) ∧
  (∀ channel direction, ∀ request ∈ queue direction (system.channels channel),
    request.threadId = threadId →
      request.requestHandledCallback.serial = system.serial threadId) ∧
  ∀ entry ∈ system.transfers, entry.threadId = threadId →
    entry.during = some entry.issuedBy

/-- No request is stale when every request of the thread is settled on a channel
that holds no other request of the thread, which is so when the channels of each
of its instructions are distinct. -/
theorem no_stale_request [Inhabited Value] (threadId : ThreadId) :
    (∀ system : VmState Value, Reached (SoleRequest threadId) system →
        NoStaleRequest threadId system) ∧
      ∀ system : VmState Value, Reached (DistinctAlternatives threadId) system →
        Reached (SoleRequest threadId) system := by
  refine ⟨fun system reached => ?_, fun system reached => (undisturbed_of_reached reached).1⟩
  have current := current_of_reached reached
  have cycle := lifecycle_of_reached reached
  refine ⟨?_, ?_, current.logged⟩
  · intro idle channel
    have nothing := current.bounded (by simp [idle]) channel
    simp only [bound, cycle.quiet_of_idle idle] at nothing
    exact ownCount_eq_zero.mp (Nat.eq_zero_of_le_zero nothing)
  · intro channel direction request member own
    rw [(current.issued channel direction request member own).1]

end Steps

/-- The instruction that an action starts. -/
def Action.started : Action → Option Instruction
  | .start instruction _ => some instruction
  | .proceed => none
  | .tryLockFails => none

theorem reached_of_distinct {threadId : ThreadId} {actions : List (ThreadId × Action)}
    {last : VmState Int} (replayed : replay actions = some last)
    (distinct : ∀ action ∈ actions, action.1 = threadId →
      ∀ instruction ∈ action.2.started, instruction.Distinct) :
    Reached (DistinctAlternatives threadId) last := by
  refine reached_of_replay replayed fun system action member => ?_
  have isDistinct := distinct action member
  cases starts : action.2 with
  | start instruction order =>
      rw [starts] at isDistinct
      exact fun own => isDistinct own instruction rfl
  | proceed => trivial
  | tryLockFails => trivial

/-- Thread 2 waits to send on channel 1.  Thread 1 offers to receive from channel 0
and then finds thread 2 on channel 1, which makes it cancel its offer.  It goes
on with a receive from channel 0, on which thread 3 sends. -/
def receivingTwice : List (ThreadId × Action) :=
  [(2, .start (.send (some 1) 20 21) [0]) :: List.replicate 4 (2, .proceed),
    (1, .start (.alt true (.ofAlternatives [] [⟨some 0, 10⟩, ⟨some 1, 11⟩]) 12) [0, 1]) ::
      List.replicate 14 (1, .proceed),
    (1, .start (.recv (some 0) 13) [0]) :: List.replicate 4 (1, .proceed),
    (3, .start (.send (some 0) 30 31) [0]) :: List.replicate 6 (3, .proceed)].flatten

theorem no_stale_request_receivingTwice :
    ∃ last, replay receivingTwice = some last ∧ last.control 1 = .idle ∧ last.serial 1 = 2 ∧
      last.transfers.map (fun entry => (entry.threadId, entry.channel, entry.during)) =
        [(1, 1, some 1), (2, 1, some 1), (3, 0, some 1), (1, 0, some 2)] ∧
      NoStaleRequest 1 last := by
  obtain ⟨last, ran, idle, serial, transfers⟩ :
      ∃ last, replay receivingTwice = some last ∧ last.control 1 = .idle ∧
        last.serial 1 = 2 ∧
        last.transfers.map (fun entry => (entry.threadId, entry.channel, entry.during)) =
          [(1, 1, some 1), (2, 1, some 1), (3, 0, some 1), (1, 0, some 2)] :=
    ⟨_, rfl, rfl, rfl, rfl⟩
  have reached : Reached (DistinctAlternatives 1) last :=
    reached_of_distinct ran (by decide)
  exact ⟨last, ran, idle, serial, transfers,
    (no_stale_request 1).1 last ((no_stale_request 1).2 last reached)⟩

/-- Instructions on non-nil channels, none of which occurs in both directions
of a table. -/
def OneSided (_ : VmState Value) (_ : ThreadId) : Action → Prop
  | .start instruction _ =>
      ∀ index < instruction.channelCount, (instruction.channelAt index).isSome = true ∧
        ∀ other < instruction.channelCount,
          instruction.channelAt index = instruction.channelAt other →
            directionOf instruction index = directionOf instruction other
  | .proceed => True
  | .tryLockFails => True

/-- Thread 1 executes an alt that receives from channel 0 in two alternatives,
and thread 2 sends on that channel. -/
def twice : List (ThreadId × Action) :=
  [(1, .start (.alt true (.ofAlternatives [] [⟨some 0, 10⟩, ⟨some 0, 11⟩]) 12) [0, 1]),
    (1, .proceed), (1, .proceed), (1, .proceed), (1, .proceed), (1, .proceed),
    (1, .proceed), (1, .proceed), (2, .start (.send (some 0) 20 21) [0]), (2, .proceed),
    (2, .proceed), (2, .proceed), (2, .proceed), (2, .proceed), (2, .proceed),
    (2, .proceed), (2, .proceed)]

theorem twice_leaves_request :
    ¬ ∀ (system : VmState Int) (threadId : ThreadId), Reached OneSided system →
      NoStaleRequest threadId system := by
  intro never
  obtain ⟨last, request, ran, idle, queued, own⟩ :
      ∃ last request, replay twice = some last ∧ last.control 1 = .idle ∧
        queue .receive (last.channels 0) = [request] ∧ request.threadId = 1 :=
    ⟨_, _, rfl, rfl, rfl, rfl⟩
  have reached : Reached OneSided last := by
    refine reached_of_replay ran ?_
    intro system action member
    simp only [twice, List.mem_cons, List.not_mem_nil, or_false] at member
    rcases member with rfl | rfl | rfl | rfl | rfl | rfl | rfl | rfl | rfl | rfl | rfl | rfl |
      rfl | rfl | rfl | rfl | rfl <;> simp only [OneSided] <;> decide
  exact (never last 1 reached).1 idle 0 .receive request (by simp [queued]) own

end Disvm.ChannelSystem
