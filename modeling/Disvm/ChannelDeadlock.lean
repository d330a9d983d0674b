import Disvm.ChannelLocks
import Disvm.ChannelQueues

/-!
# Deadlock on the locks of channel operations

A worker can hold the request lock of its own thread while the thread is
queued on a channel that another worker is searching, and then ask for the data
lock of a channel.  Such requests can close a cycle.  They cannot when the
workers ask for channels in the order of some fixed ranking.
-/

namespace Disvm.ChannelSystem

open VmState

open Function (update)

inductive Lock where
  | data (channel : ChannelId)
  | request (threadId : ThreadId)
  deriving DecidableEq, Repr

variable {Value : Type*}

namespace VmState

def Holds (system : VmState Value) (worker : ThreadId) : Lock → Prop
  | .data channel => system.dataLock channel = some worker
  | .request threadId => system.requestLock threadId = some worker

/-- The locks a worker asks for in its next step. -/
inductive Waits (system : VmState Value) (worker : ThreadId) : Lock → Prop
  | pairData (queued : List ℕ) (index : ℕ) (todo : List ℕ) (channel : ChannelId)
      (control : system.control worker = .registering queued (index :: todo))
      (isChannel : (system.instruction worker).channelAt index = some channel) :
      Waits system worker (.data channel)
  | pairRequest (queued : List ℕ) (index : ℕ) (todo : List ℕ) (channel : ChannelId)
      (control : system.control worker = .registering queued (index :: todo))
      (isChannel : (system.instruction worker).channelAt index = some channel) :
      Waits system worker (.request worker)
  | peer (visit : Visit) (peer : Request HandledCallback)
      (rest : List (Request HandledCallback))
      (control : system.control worker = .scanning visit)
      (front : peers (system.direction worker visit) (system.channels visit.channel) =
        peer :: rest) :
      Waits system worker (.request peer.threadId)
  | cancel (owner : PassOwner) (channel : ChannelId) (remaining : List ℕ)
      (handledIndex : Int)
      (control : system.control worker =
        .cancelling owner ⟨.waiting channel, remaining, handledIndex⟩) :
      Waits system worker (.data channel)

/-- Some workers each wait for a lock that the next of them holds. -/
def Deadlocked (system : VmState Value) : Prop :=
  LockWaits.CircularWait system.Waits system.Holds

def QueuedOn (system : VmState Value) (threadId : ThreadId) (channel : ChannelId) : Prop :=
  ∃ direction, ∃ request ∈ queue direction (system.channels channel),
    request.threadId = threadId

/-- The worker asks for the data lock of a channel together with its own
request lock only if its thread is not queued as a peer there, and every other
channel its thread is queued on has a smaller rank.  While it holds its own
request lock, every channel its thread is queued on has a smaller rank than the
channel it asks for. -/
def AsksInOrder (rank : ChannelId → ℕ) (system : VmState Value) (worker : ThreadId)
    (_ : Action) : Prop :=
  (∀ queued index todo channel,
    system.control worker = .registering queued (index :: todo) →
    (system.instruction worker).channelAt index = some channel →
      (∀ other, system.QueuedOn worker other → rank other < rank channel ∨ other = channel) ∧
      ∀ request ∈ peers (directionOf (system.instruction worker) index)
          (system.channels channel), request.threadId ≠ worker) ∧
  ∀ owner index rest handledIndex channel,
    system.control worker = .cancelling owner ⟨.asking, index :: rest, handledIndex⟩ →
    owner.underRequestLock →
    (system.tableOf worker owner).channelAt index = some channel →
    handledChannel owner ≠ some channel →
      ∀ other, system.QueuedOn worker other → rank other < rank channel

end VmState

/-- The alternative a worker processes while it holds the data lock. -/
def Control.visiting : Control → Option Visit
  | .entered visit => some visit
  | .scanning visit => some visit
  | .inspecting visit _ => some visit
  | _ => none

/-- Ranks below the channel a worker holds or waits for. -/
structure Ranked (rank : ChannelId → ℕ) (system : VmState Value) : Prop where
  visiting : ∀ threadId visit, (system.control threadId).visiting = some visit →
    ∀ other, system.QueuedOn threadId other →
      rank other < rank visit.channel ∨ other = visit.channel
  notPeer : ∀ threadId visit, (system.control threadId).visiting = some visit →
    ∀ request ∈ peers (system.direction threadId visit) (system.channels visit.channel),
      request.threadId ≠ threadId
  waiting : ∀ threadId owner channel remaining handledIndex,
    system.control threadId =
      .cancelling owner ⟨.waiting channel, remaining, handledIndex⟩ →
    owner.underRequestLock →
      ∀ other, system.QueuedOn threadId other → rank other < rank channel

section Steps

variable [IntCast Value]

theorem visiting_edge {system after : VmState Value} {worker : ThreadId}
    (edge : Edge system worker after) {visit : Visit}
    (visiting : (after.control worker).visiting = some visit) :
    (system.control worker).visiting = some visit ∨
      (system.control worker = .registering visit.queued (visit.index :: visit.todo) ∧
        (system.instruction worker).channelAt visit.index = some visit.channel) := by
  cases edge with
  | start instruction order idle =>
      rcases startInstruction_control system worker instruction order with
        control | control <;>
      · rw [control] at visiting
        cases visiting
  | enter queued index todo channel control isChannel =>
      simp only [enter, Function.update_self, Control.visiting, Option.some.injEq] at visiting
      subst visiting
      exact Or.inr ⟨control, isChannel⟩
  | scan other control | lockPeer other peer rest control | skipPeer other peer control =>
      left
      simpa [setControl, lockPeer, skipPeer, Control.visiting, control] using visiting
  | matchPeer entered other settled memory control =>
      rcases matchPeer_control system worker entered other settled memory with
        matched | matched <;>
      · rw [matched] at visiting
        cases visiting
  | passFinish owner handledIndex control =>
      cases owner <;>
        simp [finishPass, setControl, writeIndex, finish, unlockRequest,
          Control.visiting] at visiting
  | _ =>
      simp [lockRequest, suspend, setControl, leave, queueRequest, settleFromBuffer,
        lockChannel, cancelIn, wake, wakeMissed, writeIndex, finish, withdraw,
        unlockRequest, Control.visiting] at visiting

theorem waiting_edge {system after : VmState Value} {worker : ThreadId}
    (edge : Edge system worker after) {owner : PassOwner} {channel : ChannelId}
    {remaining : List ℕ} {handledIndex : Int}
    (waiting : after.control worker =
      .cancelling owner ⟨.waiting channel, remaining, handledIndex⟩) :
    ∃ index rest, system.control worker =
        .cancelling owner ⟨.asking, index :: rest, handledIndex⟩ ∧
      (system.tableOf worker owner).channelAt index = some channel ∧
      handledChannel owner ≠ some channel := by
  cases edge with
  | start instruction order idle =>
      rcases startInstruction_control system worker instruction order with
        control | control <;>
      · rw [control] at waiting
        cases waiting
  | passAsk other index rest otherIndex asked control isChannel notHandled =>
      simp only [setControl, Function.update_self, Control.cancelling.injEq,
        CancelPass.mk.injEq, Stage.waiting.injEq] at waiting
      obtain ⟨rfl, rfl, rfl, rfl⟩ := waiting
      exact ⟨index, rest, control, isChannel, notHandled⟩
  | matchPeer entered other settled memory control =>
      rcases matchPeer_control system worker entered other settled memory with
        matched | matched <;>
      · rw [matched] at waiting
        cases waiting
  | passFinish other otherIndex control =>
      cases other <;>
        simp [finishPass, setControl, writeIndex, finish, unlockRequest] at waiting
  | _ =>
      simp [lockRequest, suspend, setControl, enter, leave, lockPeer, queueRequest,
        settleFromBuffer, skipPeer, lockChannel, cancelIn, wake, wakeMissed, writeIndex,
        finish, withdraw, unlockRequest, CancelPass.start] at waiting

/-- A step queues nobody but its own worker, whose operation then returns. -/
theorem queuedOn_edge {system after : VmState Value} {worker : ThreadId}
    (edge : Edge system worker after) {threadId : ThreadId} {channel : ChannelId}
    (inside : threadId = worker → ∀ queued todo,
      after.control worker ≠ .registering queued todo)
    (queued : after.QueuedOn threadId channel) : system.QueuedOn threadId channel := by
  obtain ⟨direction, request, member, own⟩ := queued
  rcases mem_queue_edge edge member with
    earlier | ⟨visit, control, _, _, isRequest, left⟩
  · exact ⟨direction, request, earlier, own⟩
  · subst isRequest
    exact absurd left (inside own.symm _ _)

theorem not_registering_of_visiting {control : Control} {visit : Visit}
    (visiting : control.visiting = some visit) (queued todo : List ℕ) :
    control ≠ .registering queued todo := by
  rintro rfl
  cases visiting

theorem ranked_edge {rank : ChannelId → ℕ} {system after : VmState Value}
    {worker : ThreadId} {action : Action} (ranked : Ranked rank system)
    (inOrder : system.AsksInOrder rank worker action)
    (edge : Edge system worker after) : Ranked rank after where
  visiting threadId visit visiting other queued := by
    by_cases same : threadId = worker
    · subst same
      have queuedBefore := queuedOn_edge edge
        (fun _ => not_registering_of_visiting visiting) queued
      rcases visiting_edge edge visiting with before | ⟨control, isChannel⟩
      · exact ranked.visiting threadId visit before other queuedBefore
      · exact (inOrder.1 _ _ _ _ control isChannel).1 other queuedBefore
    · have queuedBefore := queuedOn_edge edge (fun own => absurd own same) queued
      rcases control_others edge threadId same with unchanged | ⟨_, idle⟩
      · exact ranked.visiting threadId visit (unchanged ▸ visiting) other queuedBefore
      · rw [idle] at visiting
        cases visiting
  notPeer threadId visit visiting request member own := by
    have before : request ∈ queue (after.direction threadId visit).opposite
        (system.channels visit.channel) := by
      rcases mem_queue_edge edge member with earlier | ⟨_, _, _, _, isRequest, left⟩
      · exact earlier
      · subst isRequest
        have same : worker = threadId := own
        subst same
        exact absurd left (not_registering_of_visiting visiting _ _)
    by_cases same : threadId = worker
    · subst same
      rcases visiting_edge edge visiting with earlier | ⟨control, isChannel⟩
      · have kept : after.direction threadId visit = system.direction threadId visit := by
          rcases instruction_edge edge threadId with ⟨unchanged, _⟩ | ⟨_, idle⟩
          · simp [VmState.direction, unchanged]
          · rw [idle] at earlier
            cases earlier
        exact ranked.notPeer threadId visit earlier request (kept ▸ before) own
      · have kept : after.direction threadId visit =
            directionOf (system.instruction threadId) visit.index := by
          rcases instruction_edge edge threadId with ⟨unchanged, _⟩ | ⟨_, idle⟩
          · simp [VmState.direction, unchanged]
          · rw [idle] at control
            cases control
        exact (inOrder.1 _ _ _ _ control isChannel).2 request (kept ▸ before) own
    · have kept : after.direction threadId visit = system.direction threadId visit := by
        rcases instruction_edge edge threadId with ⟨unchanged, _⟩ | ⟨own, _⟩
        · simp [VmState.direction, unchanged]
        · exact absurd own same
      rcases control_others edge threadId same with unchanged | ⟨_, idle⟩
      · exact ranked.notPeer threadId visit (unchanged ▸ visiting) request
          (kept ▸ before) own
      · rw [idle] at visiting
        cases visiting
  waiting threadId owner channel remaining handledIndex waiting under other queued := by
    by_cases same : threadId = worker
    · subst same
      have queuedBefore := queuedOn_edge edge
        (fun _ _ _ registering => by rw [registering] at waiting; cases waiting) queued
      obtain ⟨index, rest, control, isChannel, notHandled⟩ := waiting_edge edge waiting
      exact inOrder.2 owner index rest handledIndex channel control under isChannel
        notHandled other queuedBefore
    · have queuedBefore := queuedOn_edge edge (fun own => absurd own same) queued
      rcases control_others edge threadId same with unchanged | ⟨_, idle⟩
      · exact ranked.waiting threadId owner channel remaining handledIndex
          (unchanged ▸ waiting) under other queuedBefore
      · rw [idle] at waiting
        cases waiting

theorem ranked_of_reached [Inhabited Value] {rank : ChannelId → ℕ}
    {system : VmState Value} (reached : Reached (AsksInOrder rank) system) :
    Ranked rank system := by
  refine Reached.invariant (Ranked rank) ?_ ?_ reached
  · intro initial isInitial
    constructor
    · intro threadId visit visiting
      rw [isInitial.idle] at visiting
      cases visiting
    · intro threadId visit visiting
      rw [isInitial.idle] at visiting
      cases visiting
    · intro threadId owner channel remaining handledIndex waiting
      rw [isInitial.idle] at waiting
      cases waiting
  · intro before worker action after _ ranked inOrder stepped
    exact ranked_edge ranked inOrder (edge_of_step stepped)

end Steps

/-- The rank of the lock a worker is after: the peers of a channel come right
after the channel. -/
def demand (rank : ChannelId → ℕ) : Control → ℕ
  | .scanning visit => 2 * rank visit.channel + 1
  | .cancelling _ ⟨.waiting channel, _, _⟩ => 2 * rank channel
  | _ => 0

/-- A worker that holds a lock and waits for another one is in one of two
places. -/
theorem waits_holding {system : VmState Value} (held : LocksHeld system)
    {worker : ThreadId} {owned wanted : Lock} (holds : system.Holds worker owned)
    (waits : system.Waits worker wanted) :
    (∃ visit peer rest, system.control worker = .scanning visit ∧
        peers (system.direction worker visit) (system.channels visit.channel) =
          peer :: rest ∧
        wanted = .request peer.threadId) ∨
      ∃ owner channel remaining handledIndex,
        system.control worker =
          .cancelling owner ⟨.waiting channel, remaining, handledIndex⟩ ∧
        owner.underRequestLock ∧ owned = .request worker ∧ wanted = .data channel := by
  cases waits with
  | pairData queued index todo channel control | pairRequest queued index todo channel control =>
      cases owned with
      | data channel =>
          have := (held.data channel worker).mp holds
          rw [control] at this
          exact this.elim
      | request threadId =>
          have := (held.request threadId worker).mp holds
          rw [control] at this
          exact this.elim
  | peer visit peer rest control front =>
      exact Or.inl ⟨visit, peer, rest, control, front, rfl⟩
  | cancel owner channel remaining handledIndex control =>
      right
      cases owned with
      | data other =>
          have := (held.data other worker).mp holds
          rw [control] at this
          cases this
      | request threadId =>
          have heldRequest := (held.request threadId worker).mp holds
          rw [control] at heldRequest
          obtain ⟨under, rfl⟩ := heldRequest
          exact ⟨owner, channel, remaining, handledIndex, control, under, rfl, rfl⟩

theorem demand_rises {rank : ChannelId → ℕ} {system : VmState Value}
    (held : LocksHeld system) (ranked : Ranked rank system)
    {first second third fourth : ThreadId}
    (into : LockWaits.WaitsFor system.Waits system.Holds first second)
    (edge : LockWaits.WaitsFor system.Waits system.Holds second third)
    (onward : LockWaits.WaitsFor system.Waits system.Holds third fourth) :
    demand rank (system.control second) < demand rank (system.control third) := by
  obtain ⟨owned, _, holds⟩ := into
  obtain ⟨wanted, waits, thirdHolds⟩ := edge
  obtain ⟨next, thirdWaits, _⟩ := onward
  rcases waits_holding held holds waits with
    ⟨visit, peer, rest, control, front, rfl⟩ |
      ⟨owner, channel, remaining, handledIndex, control, under, _, rfl⟩
  · -- the peer's lock is held by the worker of the peer, which is queued here
    have isPeer : third = peer.threadId := by
      have heldRequest := (held.request peer.threadId third).mp thirdHolds
      rcases waits_holding held thirdHolds thirdWaits with
        ⟨_, _, _, scanning, _, _⟩ | ⟨_, _, _, _, cancelling, _, _, _⟩
      · rw [scanning] at heldRequest
        exact heldRequest
      · rw [cancelling] at heldRequest
        exact heldRequest.2
    subst isPeer
    have queued : system.QueuedOn peer.threadId visit.channel := by
      refine ⟨(system.direction second visit).opposite, peer, ?_, rfl⟩
      change peer ∈ peers _ _
      rw [front]
      exact List.mem_cons_self
    rcases waits_holding held thirdHolds thirdWaits with
      ⟨other, _, _, scanning, _, _⟩ | ⟨_, other, _, _, cancelling, under, _, _⟩
    · rw [control, scanning]
      simp only [demand]
      rcases ranked.visiting _ other (by rw [scanning]; rfl) _ queued with smaller | same
      · omega
      · -- the data lock has one holder, which is not its own peer
        have ownLock := (held.data visit.channel second).mpr (by rw [control]; exact rfl)
        have peerLock := (held.data visit.channel peer.threadId).mpr (by
          rw [scanning]; exact same.symm)
        have self : second = peer.threadId := by
          rw [ownLock, Option.some.injEq] at peerLock
          exact peerLock
        have notPeer := ranked.notPeer second visit (by rw [control]; rfl) peer
          (by rw [front]; exact List.mem_cons_self)
        exact absurd self.symm notPeer
    · rw [control, cancelling]
      simp only [demand]
      have := ranked.waiting _ _ _ _ _ cancelling under _ queued
      omega
  · -- the data lock is held by a worker that scans the channel
    have heldData := (held.data channel third).mp thirdHolds
    rcases waits_holding held thirdHolds thirdWaits with
      ⟨other, _, _, scanning, _, _⟩ | ⟨_, other, _, _, cancelling, _, _, _⟩
    · rw [scanning] at heldData
      have same : other.channel = channel := heldData
      rw [control, scanning, ← same]
      simp only [demand]
      omega
    · rw [cancelling] at heldData
      cases heldData

variable [IntCast Value] [Inhabited Value]

/-- Workers that ask for channels in the order of a ranking never wait for each
other in a cycle, whatever the threads, channels and instructions. -/
theorem not_deadlocked_of_ranked (rank : ChannelId → ℕ) {system : VmState Value}
    (reached : Reached (AsksInOrder rank) system) : ¬ system.Deadlocked := by
  have held := locksHeld_of_reached reached
  have ranked := ranked_of_reached reached
  exact LockWaits.not_circularWait_of_rank
    (fun _ _ _ _ into edge onward => demand_rises held ranked into edge onward)

section Replays

variable {rank : ChannelId → ℕ} {bound : ℕ}

omit [IntCast Value] [Inhabited Value] in
instance (system : VmState Value) (threadId : ThreadId) (channel : ChannelId) :
    Decidable (system.QueuedOn threadId channel) :=
  decidable_of_iff
    (∃ request ∈ queue .send (system.channels channel) ++
      queue .receive (system.channels channel), request.threadId = threadId) (by
    simp only [VmState.QueuedOn, List.mem_append]
    constructor
    · rintro ⟨request, member | member, own⟩
      · exact ⟨.send, request, member, own⟩
      · exact ⟨.receive, request, member, own⟩
    · rintro ⟨direction, request, member, own⟩
      cases direction with
      | send => exact ⟨request, Or.inl member, own⟩
      | receive => exact ⟨request, Or.inr member, own⟩)

/-- Threads use channels below a bound only. -/
structure Within (bound : ℕ) (system : VmState Value) : Prop where
  queued : ∀ threadId channel, system.QueuedOn threadId channel → channel < bound
  visiting : ∀ threadId visit, (system.control threadId).visiting = some visit →
    visit.channel < bound

/-- `AsksInOrder` as a test of the channels below a bound. -/
def asksInOrder (rank : ChannelId → ℕ) (bound : ℕ) (system : VmState Value)
    (worker : ThreadId) : Bool :=
  match system.control worker with
  | .registering _ (index :: _) =>
      ((system.instruction worker).channelAt index).all fun channel =>
        decide (channel < bound) &&
          decide (∀ other < bound, system.QueuedOn worker other →
            rank other < rank channel ∨ other = channel) &&
          decide (∀ request ∈ peers (directionOf (system.instruction worker) index)
            (system.channels channel), request.threadId ≠ worker)
  | .cancelling owner ⟨.asking, index :: _, _⟩ =>
      ((system.tableOf worker owner).channelAt index).all fun channel =>
        decide (∀ other < bound, system.QueuedOn worker other → rank other < rank channel)
  | _ => true

omit [IntCast Value] [Inhabited Value] in
theorem asksInOrder_registering {system : VmState Value} {worker : ThreadId}
    (asks : asksInOrder rank bound system worker = true) {queued todo : List ℕ} {index : ℕ}
    {channel : ChannelId} (control : system.control worker = .registering queued (index :: todo))
    (isChannel : (system.instruction worker).channelAt index = some channel) :
    channel < bound ∧
      (∀ other < bound, system.QueuedOn worker other →
        rank other < rank channel ∨ other = channel) ∧
      ∀ request ∈ peers (directionOf (system.instruction worker) index)
        (system.channels channel), request.threadId ≠ worker := by
  simp only [asksInOrder, control, isChannel, Option.all_some, Bool.and_eq_true,
    decide_eq_true_eq] at asks
  exact ⟨asks.1.1, asks.1.2, asks.2⟩

omit [IntCast Value] [Inhabited Value] in
theorem asksInOrder_spec {system : VmState Value} (within : Within bound system)
    {worker : ThreadId} (asks : asksInOrder rank bound system worker = true) (action : Action) :
    system.AsksInOrder rank worker action := by
  constructor
  · intro queued index todo channel control isChannel
    obtain ⟨-, smaller, notPeer⟩ := asksInOrder_registering asks control isChannel
    exact ⟨fun other isQueued => smaller other (within.queued worker other isQueued) isQueued,
      notPeer⟩
  · intro owner index rest handledIndex channel control under isChannel notHandled other isQueued
    simp only [asksInOrder, control, isChannel, Option.all_some, decide_eq_true_eq] at asks
    exact asks other (within.queued worker other isQueued) isQueued

omit [Inhabited Value] in
theorem within_edge {system after : VmState Value} {worker : ThreadId}
    (within : Within bound system) (asks : asksInOrder rank bound system worker = true)
    (edge : Edge system worker after) : Within bound after where
  queued threadId channel := by
    rintro ⟨direction, request, member, own⟩
    rcases mem_queue_edge edge member with earlier | ⟨visit, control, rfl, -, -, -⟩
    · exact within.queued threadId channel ⟨direction, request, earlier, own⟩
    · exact within.visiting worker visit (by rw [control]; rfl)
  visiting threadId visit visiting := by
    by_cases same : threadId = worker
    · subst same
      rcases visiting_edge edge visiting with before | ⟨control, isChannel⟩
      · exact within.visiting threadId visit before
      · exact (asksInOrder_registering asks control isChannel).1
    · rcases control_others edge threadId same with unchanged | ⟨-, idle⟩
      · exact within.visiting threadId visit (unchanged ▸ visiting)
      · rw [idle] at visiting
        cases visiting

/-- A step that is taken when it asks in order. -/
def askingStep (rank : ChannelId → ℕ) (bound : ℕ) (system : VmState Value)
    (action : ThreadId × Action) : Option (VmState Value) :=
  if asksInOrder rank bound system action.1 then system.step action.1 action.2 else none

theorem reached_of_asking {actions : List (ThreadId × Action)} {last : VmState Int}
    (replayed : Transition.execute (askingStep rank bound) unbuffered actions = some last) :
    Reached (AsksInOrder rank) last := by
  have asked : Transition.Reachable (· = unbuffered)
      (Transition.StepsBy (fun _ _ => True) (askingStep rank bound)) last :=
    Transition.reachable_of_execute (Transition.Reachable.start rfl) (fun _ _ _ => trivial)
      replayed
  refine (Transition.Reachable.invariant (fun system : VmState Int =>
    Within bound system ∧ Reached (AsksInOrder rank) system) ?_ ?_ asked).2
  · rintro first rfl
    refine ⟨⟨?_, ?_⟩, Transition.Reachable.start unbuffered_initial⟩
    · rintro threadId channel ⟨direction, request, member, -⟩
      cases direction <;> cases member
    · intro threadId visit visiting
      cases visiting
  · rintro before after - ⟨within, reached⟩ ⟨action, -, edge⟩
    unfold askingStep at edge
    split at edge
    · next asks =>
        exact ⟨within_edge within asks (edge_of_step edge),
          reached.next ⟨action, asksInOrder_spec within asks action.2, edge⟩⟩
    · cases edge

end Replays

/-- Thread 1 offers to receive from channels 0 and 1.  Thread 2 offers to send on
both, finds thread 1 on the first and asks for the second to cancel the other
request of thread 1, while thread 3 is about to receive from it. -/
def contending : List (ThreadId × Action) :=
  [(1, .start (.alt true (.ofAlternatives [] [⟨some 0, 10⟩, ⟨some 1, 11⟩]) 12) [0, 1]),
    (1, .proceed), (1, .proceed), (1, .proceed), (1, .proceed), (1, .proceed),
    (1, .proceed), (1, .proceed),
    (2, .start (.alt true (.ofAlternatives [⟨some 0, 20⟩, ⟨some 1, 21⟩] []) 22) [0, 1]),
    (3, .start (.recv (some 1) 30) [0]), (2, .proceed), (2, .proceed), (2, .proceed),
    (2, .proceed), (3, .proceed), (2, .proceed), (2, .proceed)]

theorem not_deadlocked_contending :
    ∃ last, Transition.execute (askingStep id 2) unbuffered contending = some last ∧
      last.Holds 2 (.request 2) ∧ last.Waits 2 (.data 1) ∧ last.Holds 3 (.data 1) ∧
      last.QueuedOn 1 1 ∧ ¬ last.Deadlocked := by
  obtain ⟨last, visit, peer, ran, control, own, data, queued⟩ :
      ∃ last visit peer,
        Transition.execute (askingStep id 2) unbuffered contending = some last ∧
        last.control 2 = .cancelling (.callback visit peer) ⟨.waiting 1, [1], 0⟩ ∧
        last.requestLock 2 = some 2 ∧ last.dataLock 1 = some 3 ∧
        (queue .receive (last.channels 1)).map Request.threadId = [1] :=
    ⟨_, _, _, rfl, rfl, rfl, rfl, rfl⟩
  have isQueued : last.QueuedOn 1 1 := by
    obtain ⟨request, member, isOwn⟩ := List.mem_map.mp (queued ▸ List.mem_singleton_self 1)
    exact ⟨.receive, request, member, isOwn⟩
  exact ⟨last, ran, own, .cancel _ _ _ _ control, data, isQueued,
    not_deadlocked_of_ranked id (reached_of_asking ran)⟩

/-- A non-blocking alt of thread 1 finds no sender on channel 0, keeps its
request lock and asks for the channel again to cancel its request.  Meanwhile
thread 2 sends on the channel. -/
def crossing : List (ThreadId × Action) :=
  [(1, .start (.alt false (.ofAlternatives [] [⟨some 0, 10⟩]) 11) [0]),
    (1, .proceed), (1, .proceed), (1, .proceed), (1, .proceed), (1, .proceed),
    (1, .proceed), (2, .start (.send (some 0) 20 21) [0]), (2, .proceed), (2, .proceed)]

theorem crossing_deadlocked :
    ¬ ∀ system : VmState Int, Reached anyStep system → ¬ system.Deadlocked := by
  intro never
  obtain ⟨last, peer, ran, cancelling, scanning, ⟨front, isFirst⟩, data, request⟩ :
      ∃ last peer, replay crossing = some last ∧
        last.control 1 = .cancelling .nonBlocking ⟨.waiting 0, [0], -1⟩ ∧
        last.control 2 = .scanning ⟨0, 0, [], []⟩ ∧
        (peers (last.direction 2 ⟨0, 0, [], []⟩) (last.channels 0) = [peer] ∧
          peer.threadId = 1) ∧
        last.dataLock 0 = some 2 ∧ last.requestLock 1 = some 1 :=
    ⟨_, _, rfl, rfl, rfl, ⟨rfl, rfl⟩, rfl, rfl⟩
  have firstWaits : LockWaits.WaitsFor last.Waits last.Holds 1 2 :=
    ⟨.data 0, .cancel _ _ _ _ cancelling, data⟩
  have secondWaits : LockWaits.WaitsFor last.Waits last.Holds 2 1 := by
    refine ⟨.request 1, ?_, request⟩
    rw [← isFirst]
    exact .peer _ peer [] scanning front
  apply never last (reached_of_replay ran fun _ _ _ => trivial)
  exact ⟨1, (Relation.TransGen.single firstWaits).tail secondWaits⟩

end Disvm.ChannelSystem
