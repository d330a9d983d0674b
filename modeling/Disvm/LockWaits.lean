import Mathlib.Logic.Relation
import Mathlib.Order.Basic

/-!
# Circular waiting

Workers hold locks and wait for locks.  A deadlock on locks is a cycle of
workers each waiting for a lock that the next one holds.  There is none if the
workers that are both waiting and waited for can be ranked so that the rank
rises along every such edge.
-/

namespace Disvm.LockWaits

variable {Worker Lock : Type*}

/-- The first worker waits for a lock the second one holds. -/
def WaitsFor (waits holds : Worker → Lock → Prop) (first second : Worker) : Prop :=
  ∃ lock, waits first lock ∧ holds second lock

def CircularWait (waits holds : Worker → Lock → Prop) : Prop :=
  ∃ worker, Relation.TransGen (WaitsFor waits holds) worker worker

variable {waits holds : Worker → Lock → Prop}

/-- Along a path between workers that are themselves waited for, the rank
rises. -/
theorem rank_lt_of_path {Rank : Type*} [Preorder Rank] {rank : Worker → Rank}
    (rises : ∀ first second third fourth, WaitsFor waits holds first second →
      WaitsFor waits holds second third → WaitsFor waits holds third fourth →
      rank second < rank third)
    {start before last after : Worker} (into : WaitsFor waits holds before start)
    (path : Relation.TransGen (WaitsFor waits holds) start last)
    (onward : WaitsFor waits holds last after) : rank start < rank last := by
  induction path generalizing after with
  | single edge => exact rises _ _ _ _ into edge onward
  | @tail middle last earlier edge ih =>
      have toMiddle : rank start < rank middle := ih edge
      obtain ⟨previous, intoMiddle⟩ : ∃ previous, WaitsFor waits holds previous middle := by
        cases earlier with
        | single first => exact ⟨_, first⟩
        | tail _ final => exact ⟨_, final⟩
      exact toMiddle.trans (rises _ _ _ _ intoMiddle edge onward)

/-- A rank that rises along the waiting edges excludes circular waiting. -/
theorem not_circularWait_of_rank {Rank : Type*} [Preorder Rank] {rank : Worker → Rank}
    (rises : ∀ first second third fourth, WaitsFor waits holds first second →
      WaitsFor waits holds second third → WaitsFor waits holds third fourth →
      rank second < rank third) :
    ¬ CircularWait waits holds := by
  rintro ⟨worker, cycle⟩
  obtain ⟨previous, into⟩ : ∃ previous, WaitsFor waits holds previous worker := by
    cases cycle with
    | single edge => exact ⟨_, edge⟩
    | tail _ edge => exact ⟨_, edge⟩
  obtain ⟨next, onward⟩ : ∃ next, WaitsFor waits holds worker next := by
    rcases Relation.TransGen.head'_iff.mp cycle with ⟨next, edge, _⟩
    exact ⟨next, edge⟩
  exact lt_irrefl _ (rank_lt_of_path rises into cycle onward)

end Disvm.LockWaits
