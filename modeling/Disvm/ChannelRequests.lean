import Disvm.ChannelQueues
import Disvm.ChannelTransfers

/-!
# Requests left in the queues

How many requests of one thread each channel holds, and how long they stay
there.  When a request of a thread is settled on a channel on which the thread
has no second request, the cancellation loops remove every other request before
the instruction completes.  A second request on the same channel is skipped by
these loops and outlives its instruction.
-/

namespace Disvm.ChannelSystem

open VmState

open Function (update)

variable {Value : Type*}

/-- The number of requests of a thread in the queues of a channel. -/
def ownCount (threadId : ThreadId) (channel : Channel HandledCallback Value) : ℕ :=
  channel.dataSenders.countP (·.threadId == threadId) +
    channel.dataReceivers.countP (·.threadId == threadId)

/-- How often a channel occurs among some alternatives of an instruction. -/
def tableCount (instruction : Instruction) (indices : List ℕ) (channel : ChannelId) : ℕ :=
  indices.countP (instruction.channelAt · == some channel)

theorem ownCount_eq_zero {threadId : ThreadId} {channel : Channel HandledCallback Value} :
    ownCount threadId channel = 0 ↔
      ∀ direction, ∀ request ∈ queue direction channel, request.threadId ≠ threadId := by
  simp only [ownCount, Nat.add_eq_zero_iff, List.countP_eq_zero, beq_iff_eq]
  constructor
  · rintro ⟨senders, receivers⟩ direction request member
    cases direction with
    | send => exact senders request member
    | receive => exact receivers request member
  · intro none
    exact ⟨none .send, none .receive⟩

theorem ownCount_pos {threadId : ThreadId} {channel : Channel HandledCallback Value}
    {direction : Direction} {request : Request HandledCallback}
    (member : request ∈ queue direction channel) (own : request.threadId = threadId) :
    0 < ownCount threadId channel := by
  rw [Nat.pos_iff_ne_zero]
  intro zero
  exact ownCount_eq_zero.mp zero direction request member own

/-- The count in terms of one direction and the other. -/
theorem ownCount_eq (threadId : ThreadId) (direction : Direction)
    (channel : Channel HandledCallback Value) :
    ownCount threadId channel =
      (queue direction channel).countP (·.threadId == threadId) +
        (queue direction.opposite channel).countP (·.threadId == threadId) := by
  cases direction with
  | send => rfl
  | receive => exact Nat.add_comm _ _

theorem countP_eraseP_self {α : Type*} (p : α → Bool) (list : List α) :
    (list.eraseP p).countP p = list.countP p - 1 := by
  induction list with
  | nil => rfl
  | cons head tail ih =>
      by_cases matched : p head = true
      · simp [matched]
      · simp [matched, ih]

theorem countP_eraseP_other {α : Type*} {p q : α → Bool}
    (disjoint : ∀ x, q x = true → p x = false) (list : List α) :
    (list.eraseP q).countP p = list.countP p := by
  induction list with
  | nil => rfl
  | cons head tail ih =>
      by_cases matched : q head = true
      · simp [matched, disjoint head matched]
      · simp [matched, List.countP_cons, ih]

theorem ownCount_cancelRequest_self (threadId : ThreadId)
    (channel : Channel HandledCallback Value) :
    ownCount threadId (channel.cancelRequest threadId) = ownCount threadId channel - 1 := by
  unfold Channel.cancelRequest ownCount
  by_cases receiving : channel.dataReceivers.any (·.threadId == threadId) = true
  · have positive : 0 < channel.dataReceivers.countP (·.threadId == threadId) := by
      rw [List.countP_pos_iff]
      exact List.any_eq_true.mp receiving
    simp only [if_pos receiving, countP_eraseP_self]
    omega
  · have zero : channel.dataReceivers.countP (·.threadId == threadId) = 0 := by
      rw [List.countP_eq_zero]
      intro request member matched
      exact receiving (List.any_eq_true.mpr ⟨request, member, matched⟩)
    simp only [if_neg receiving, countP_eraseP_self, zero]
    omega

theorem ownCount_cancelRequest_other {threadId other : ThreadId} (different : other ≠ threadId)
    (channel : Channel HandledCallback Value) :
    ownCount threadId (channel.cancelRequest other) = ownCount threadId channel := by
  have disjoint (request : Request HandledCallback)
      (matched : (request.threadId == other) = true) :
      (request.threadId == threadId) = false := by
    rw [beq_iff_eq] at matched
    rw [matched, beq_eq_false_iff_ne]
    exact different
  unfold Channel.cancelRequest ownCount
  split
  · rw [countP_eraseP_other disjoint]
  · rw [countP_eraseP_other disjoint]

/-- The alternative a worker is concerned with. -/
def Control.visit : Control → Option Visit
  | .entered visit => some visit
  | .scanning visit => some visit
  | .inspecting visit _ => some visit
  | .cancelling (.callback visit _) _ => some visit
  | .cancelling (.handled visit) _ => some visit
  | .waking visit _ => some visit
  | .handled visit => some visit
  | _ => none

/-- The loop over the shuffled indices, and the cancellation loops. -/
structure Shaped (system : VmState Value) : Prop where
  loop : ∀ worker queued todo, system.control worker = .registering queued todo →
    (queued ++ todo).Perm (List.range (system.instruction worker).channelCount)
  visit : ∀ worker visit, (system.control worker).visit = some visit →
    (visit.queued ++ visit.index :: visit.todo).Perm
        (List.range (system.instruction worker).channelCount) ∧
      (system.instruction worker).channelAt visit.index = some visit.channel
  pass : ∀ worker owner stage remaining handledIndex channel,
    system.control worker = .cancelling owner ⟨stage, remaining, handledIndex⟩ →
    stage = .waiting channel ∨ stage = .holding channel →
      handledChannel owner ≠ some channel ∧
        ∃ index rest, remaining = index :: rest ∧
          (system.tableOf worker owner).channelAt index = some channel
  -- the first peer stays first while the data lock is held
  front : ∀ worker visit peer, system.control worker = .inspecting visit peer →
    ∃ rest, peers (system.direction worker visit) (system.channels visit.channel) =
      peer :: rest

section Steps

variable [IntCast Value]

/-- The queues of a channel do not change while another worker holds its lock. -/
theorem queue_locked {system after : VmState Value} {worker : ThreadId}
    (held : LocksHeld system) (edge : Edge system worker after) {holder : ThreadId}
    (different : holder ≠ worker) {channel : ChannelId}
    (locked : (system.control holder).holdsData channel) (direction : Direction) :
    queue direction (after.channels channel) = queue direction (system.channels channel) := by
  have owned := (held.data channel holder).mpr locked
  have excluded (holds : (system.control worker).holdsData channel) : False := by
    rw [(held.data channel worker).mpr holds, Option.some.injEq] at owned
    exact different owned.symm
  cases queueChange_edge edge channel direction with
  | unchanged same => exact same
  | appended visit control here =>
      exact (excluded (by rw [control]; exact here.symm)).elim
  | popped visit peer control here =>
      exact (excluded (by rw [control]; exact here.symm)).elim
  | cancelled owner remaining handledIndex control =>
      exact (excluded (by rw [control]; exact rfl)).elim

theorem visit_edge {system after : VmState Value} {worker : ThreadId}
    (edge : Edge system worker after) {visit : Visit}
    (visiting : (after.control worker).visit = some visit) :
    (system.control worker).visit = some visit ∨
      (system.control worker = .registering visit.queued (visit.index :: visit.todo) ∧
        (system.instruction worker).channelAt visit.index = some visit.channel) := by
  cases edge with
  | start instruction order idle =>
      rcases startInstruction_control system worker instruction order with
        control | control <;>
      · rw [control] at visiting
        cases visiting
  | enter queued index todo channel control isChannel =>
      simp only [enter, Function.update_self, Control.visit, Option.some.injEq] at visiting
      subst visiting
      exact Or.inr ⟨control, isChannel⟩
  | matchPeer entered peer settled memory control =>
      left
      rw [control]
      rcases matchPeer_control system worker entered peer settled memory with
        matched | matched <;>
      · rw [matched] at visiting
        exact visiting
  | passFinish owner handledIndex control =>
      left
      rw [control]
      cases owner with
      | callback other peer =>
          simpa [finishPass, setControl, Control.visit] using visiting
      | handled other => simp [finishPass, finish, Control.visit] at visiting
      | nonBlocking => simp [finishPass, finish, unlockRequest, Control.visit] at visiting
  | passHandled owner index rest handledIndex channel control
  | passAsk owner index rest handledIndex channel control
  | passLock owner channel remaining handledIndex control
  | passCancel owner channel remaining handledIndex control =>
      left
      rw [control]
      cases owner with
      | callback other peer =>
          simpa [setControl, lockChannel, cancelIn, Control.visit] using visiting
      | handled other =>
          simpa [setControl, lockChannel, cancelIn, Control.visit] using visiting
      | nonBlocking => simp [setControl, lockChannel, cancelIn, Control.visit] at visiting
  | scan other control | lockPeer other peer rest control | skipPeer other peer control
  | settleFromBuffer other channel memory control | wake other peer control
  | wakeMissed other peer control | clear other control =>
      left
      rw [control]
      simpa [setControl, lockPeer, skipPeer, settleFromBuffer, wake, wakeMissed,
        Control.visit] using visiting
  | _ =>
      simp [lockRequest, suspend, setControl, leave, queueRequest, writeIndex, finish,
        withdraw, unlockRequest, Control.visit] at visiting

theorem loop_edge {system after : VmState Value} {worker : ThreadId}
    (edge : Edge system worker after) {queued todo : List ℕ}
    (registering : after.control worker = .registering queued todo) :
    (queued = [] ∧ todo.Perm (List.range (after.instruction worker).channelCount)) ∨
      ∃ visit, (system.control worker).visit = some visit ∧
        queued = visit.queued ++ [visit.index] ∧ todo = visit.todo := by
  cases edge with
  | start instruction order idle shuffled =>
      left
      rcases startInstruction_control system worker instruction order with
        control | control
      · rw [control] at registering
        cases registering
      · rw [control, Control.registering.injEq] at registering
        obtain ⟨rfl, rfl⟩ := registering
        exact ⟨rfl, by simpa [startInstruction] using shuffled⟩
  | leave visit control | queueRequest visit control =>
      right
      simp only [queueRequest, leave, Function.update_self, Control.registering.injEq]
        at registering
      exact ⟨visit, by rw [control]; rfl, registering.1.symm, registering.2.symm⟩
  | matchPeer entered peer settled memory control =>
      rcases matchPeer_control system worker entered peer settled memory with
        matched | matched <;>
      · rw [matched] at registering
        cases registering
  | passFinish owner handledIndex control =>
      cases owner <;>
        simp [finishPass, setControl, writeIndex, finish, unlockRequest] at registering
  | _ =>
      simp [lockRequest, suspend, setControl, enter, settleFromBuffer, lockPeer, skipPeer,
        lockChannel, cancelIn, wake, wakeMissed, writeIndex, finish, withdraw,
        unlockRequest] at registering

/-- A cancellation loop asks for the channel of its first remaining index. -/
theorem pass_edge {system after : VmState Value} {worker : ThreadId}
    (edge : Edge system worker after) {owner : PassOwner} {stage : Stage}
    {remaining : List ℕ} {handledIndex : Int} {channel : ChannelId}
    (cancelling : after.control worker = .cancelling owner ⟨stage, remaining, handledIndex⟩)
    (asked : stage = .waiting channel ∨ stage = .holding channel) :
    (∃ index rest, remaining = index :: rest ∧
        system.control worker = .cancelling owner ⟨.asking, remaining, handledIndex⟩ ∧
        (system.tableOf worker owner).channelAt index = some channel ∧
        handledChannel owner ≠ some channel) ∨
      system.control worker =
        .cancelling owner ⟨.waiting channel, remaining, handledIndex⟩ := by
  cases edge with
  | start instruction order idle =>
      rcases startInstruction_control system worker instruction order with
        control | control <;>
      · rw [control] at cancelling
        cases cancelling
  | passAsk other index rest otherIndex wanted control isChannel notHandled =>
      simp only [setControl, Function.update_self, Control.cancelling.injEq,
        CancelPass.mk.injEq] at cancelling
      obtain ⟨rfl, rfl, rfl, rfl⟩ := cancelling
      simp only [Stage.waiting.injEq, reduceCtorEq, or_false] at asked
      subst asked
      exact Or.inl ⟨index, rest, rfl, control, isChannel, notHandled⟩
  | passLock other wanted otherRemaining otherIndex control free =>
      simp only [lockChannel, Function.update_self, Control.cancelling.injEq,
        CancelPass.mk.injEq] at cancelling
      obtain ⟨rfl, rfl, rfl, rfl⟩ := cancelling
      simp only [Stage.holding.injEq, reduceCtorEq, false_or] at asked
      subst asked
      exact Or.inr control
  | matchPeer entered peer settled memory control =>
      simp only [matchPeer, Function.update_self] at cancelling
      split at cancelling
      · simp only [Control.cancelling.injEq, CancelPass.start, CancelPass.mk.injEq]
          at cancelling
        obtain ⟨-, rfl, -, -⟩ := cancelling
        simp at asked
      · cases cancelling
  | passFinish other otherIndex control =>
      cases other <;>
        simp [finishPass, setControl, writeIndex, finish, unlockRequest] at cancelling
  | passHandled other index rest otherIndex otherChannel control =>
      simp only [setControl, Function.update_self, Control.cancelling.injEq,
        CancelPass.mk.injEq] at cancelling
      obtain ⟨-, rfl, -, -⟩ := cancelling
      simp at asked
  | passCancel other otherChannel otherRemaining otherIndex control =>
      simp only [cancelIn, Function.update_self, Control.cancelling.injEq,
        CancelPass.mk.injEq] at cancelling
      obtain ⟨-, rfl, -, -⟩ := cancelling
      simp at asked
  | clear visit control =>
      simp only [setControl, Function.update_self, Control.cancelling.injEq,
        CancelPass.start, CancelPass.mk.injEq] at cancelling
      obtain ⟨-, rfl, -, -⟩ := cancelling
      simp at asked
  | withdraw control =>
      simp only [withdraw, Function.update_self, Control.cancelling.injEq,
        CancelPass.start, CancelPass.mk.injEq] at cancelling
      obtain ⟨-, rfl, -, -⟩ := cancelling
      simp at asked
  | _ =>
      simp [lockRequest, suspend, setControl, enter, leave, lockPeer, queueRequest,
        settleFromBuffer, skipPeer, wake, wakeMissed, writeIndex, finish,
        unlockRequest] at cancelling

theorem front_edge {system after : VmState Value} {worker : ThreadId}
    (edge : Edge system worker after) {visit : Visit} {peer : Request HandledCallback}
    (inspecting : after.control worker = .inspecting visit peer) :
    ∃ rest, peers (after.direction worker visit) (after.channels visit.channel) =
      peer :: rest := by
  cases edge with
  | start instruction order idle =>
      rcases startInstruction_control system worker instruction order with
        control | control <;>
      · rw [control] at inspecting
        cases inspecting
  | lockPeer entered other rest control front =>
      simp only [lockPeer, Function.update_self, Control.inspecting.injEq] at inspecting
      obtain ⟨rfl, rfl⟩ := inspecting
      exact ⟨rest, front⟩
  | matchPeer entered other settled memory control =>
      rcases matchPeer_control system worker entered other settled memory with
        matched | matched <;>
      · rw [matched] at inspecting
        cases inspecting
  | passFinish owner handledIndex control =>
      cases owner <;>
        simp [finishPass, setControl, writeIndex, finish, unlockRequest] at inspecting
  | _ =>
      simp [lockRequest, suspend, setControl, enter, leave, queueRequest,
        settleFromBuffer, skipPeer, lockChannel, cancelIn, wake, wakeMissed, writeIndex,
        finish, withdraw, unlockRequest] at inspecting

theorem shaped_edge {system after : VmState Value} {worker : ThreadId}
    (held : LocksHeld system) (shaped : Shaped system)
    (edge : Edge system worker after) : Shaped after := by
  have sameInstruction {threadId : ThreadId} (notIdle : system.control threadId ≠ .idle) :
      after.instruction threadId = system.instruction threadId := by
    rcases instruction_edge edge threadId with ⟨same, _⟩ | ⟨rfl, idle⟩
    · exact same
    · exact absurd idle notIdle
  have others {threadId : ThreadId} (different : threadId ≠ worker)
      (notIdle : after.control threadId ≠ .idle) :
      after.control threadId = system.control threadId ∧
        after.instruction threadId = system.instruction threadId := by
    rcases control_others edge threadId different with same | ⟨_, idle⟩
    · exact ⟨same, sameInstruction (same ▸ notIdle)⟩
    · exact absurd idle notIdle
  constructor
  · intro threadId queued todo registering
    by_cases same : threadId = worker
    · subst same
      rcases loop_edge edge registering with ⟨rfl, shuffled⟩ | ⟨visit, visiting, rfl, rfl⟩
      · exact shuffled
      · rw [sameInstruction (by intro idle; rw [idle] at visiting; cases visiting)]
        simpa using (shaped.visit threadId visit visiting).1
    · obtain ⟨unchanged, kept⟩ := others same (by simp [registering])
      rw [kept]
      exact shaped.loop threadId queued todo (unchanged ▸ registering)
  · intro threadId visit visiting
    by_cases same : threadId = worker
    · subst same
      rcases visit_edge edge visiting with before | ⟨control, isChannel⟩
      · rw [sameInstruction (by intro idle; rw [idle] at before; cases before)]
        exact shaped.visit threadId visit before
      · rw [sameInstruction (by simp [control])]
        exact ⟨shaped.loop threadId _ _ control, isChannel⟩
    · obtain ⟨unchanged, kept⟩ := others same (by
        intro idle
        rw [idle] at visiting
        cases visiting)
      rw [kept]
      exact shaped.visit threadId visit (unchanged ▸ visiting)
  · intro threadId owner stage remaining handledIndex channel cancelling asked
    by_cases same : threadId = worker
    · subst same
      have table (notIdle : system.control threadId ≠ .idle) :
          after.tableOf threadId owner = system.tableOf threadId owner := by
        cases owner with
        | callback visit peer => rfl
        | handled visit => exact sameInstruction notIdle
        | nonBlocking => exact sameInstruction notIdle
      rcases pass_edge edge cancelling asked with
        ⟨index, rest, isRemaining, control, isChannel, notHandled⟩ | control
      · rw [table (by simp [control])]
        exact ⟨notHandled, index, rest, isRemaining, isChannel⟩
      · rw [table (by simp [control])]
        exact shaped.pass threadId owner _ remaining handledIndex channel control
          (Or.inl rfl)
    · obtain ⟨unchanged, kept⟩ := others same (by simp [cancelling])
      have table : after.tableOf threadId owner = system.tableOf threadId owner := by
        cases owner with
        | callback visit peer => rfl
        | handled visit => exact kept
        | nonBlocking => exact kept
      rw [table]
      exact shaped.pass threadId owner stage remaining handledIndex channel
        (unchanged ▸ cancelling) asked
  · intro threadId visit peer inspecting
    by_cases same : threadId = worker
    · subst same
      exact front_edge edge inspecting
    · obtain ⟨unchanged, kept⟩ := others same (by simp [inspecting])
      have before := unchanged ▸ inspecting
      have locked : (system.control threadId).holdsData visit.channel := by
        rw [before]
        exact rfl
      simp only [peers, VmState.direction, kept]
      rw [queue_locked held edge same locked]
      exact shaped.front threadId visit peer before

theorem shaped_of_reached [Inhabited Value]
    {allowed : VmState Value → ThreadId → Action → Prop} {system : VmState Value}
    (reached : Reached allowed system) : Shaped system := by
  refine Reached.invariant Shaped ?_ ?_ reached
  · intro initial isInitial
    constructor
    · intro worker queued todo control
      rw [isInitial.idle] at control
      cases control
    · intro worker visit visiting
      rw [isInitial.idle] at visiting
      cases visiting
    · intro worker owner stage remaining handledIndex channel control
      rw [isInitial.idle] at control
      cases control
    · intro worker visit peer control
      rw [isInitial.idle] at control
      cases control
  · intro before worker action after earlier shaped _ stepped
    exact shaped_edge (locksHeld_of_reached earlier) shaped (edge_of_step stepped)

end Steps

end Disvm.ChannelSystem
