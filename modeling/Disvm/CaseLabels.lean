import Disvm.HalvingSort
import Mathlib.Data.BitVec

/-!
# Labels of case statements

The labels of a `case` are sorted and checked.  Labels of ints that are next to each other and
belong to one arm are merged.
-/

namespace Disvm.CaseLabels

variable {width : ℕ}

/-- A constant or a range in front of an arm, or the wildcard.  A constant of type int is in the
range of an int, so that it is compared as an int as well as as a big. -/
inductive Qual (width : ℕ) where
  | const (val : BitVec width)
  | range (left right : BitVec width)
  | wild
  deriving DecidableEq

/-- The qualifiers of one arm. -/
abbrev Arm (width : ℕ) := List (Qual width)

/-- A `Label`: an inclusive range, and the arm it belongs to. -/
structure Label (width : ℕ) where
  start : BitVec width
  stop : BitVec width
  node : ℕ
  deriving DecidableEq

def Label.Has (lab : Label width) (value : BitVec width) : Prop :=
  lab.start.toInt ≤ value.toInt ∧ value.toInt ≤ lab.stop.toInt

instance (lab : Label width) (value : BitVec width) : Decidable (lab.Has value) :=
  inferInstanceAs (Decidable (_ ∧ _))

def Qual.label (node : ℕ) : Qual width → Option (Label width)
  | .const val => some ⟨val, val, node⟩
  | .range left right => some ⟨left, right, node⟩
  | .wild => none

/-- The loop of `checklabels` over the arms: their labels, in the order of the source. -/
def labelsFrom : (node : ℕ) → List (Arm width) → List (Label width)
  | _, [] => []
  | node, quals :: inits => quals.filterMap (Qual.label node) ++ labelsFrom (node + 1) inits

/-- The last arm with a wildcard. -/
def wildFrom : (node : ℕ) → List (Arm width) → Option ℕ
  | _, [] => none
  | node, quals :: inits =>
      (wildFrom (node + 1) inits).or (if .wild ∈ quals then some node else none)

def casecmp (a b : BitVec width) : ℤ :=
  if a.slt b then -1 else if b.slt a then 1 else 0

def casesort (labs : List (Label width)) : List (Label width) :=
  HalvingSort.sort (fun a b => decide (casecmp a.start b.start ≤ 0)) labs.length labs

inductive LabelError (width : ℕ) where
  /-- `unmatchable <title> <label>`. -/
  | unmatchable (lab : Label width)
  /-- `<title> '<label>' overlaps with '<label before it>'`. -/
  | overlaps (lab before : Label width)

/-- The inner loop of `checklabels`, behind a label of an arm that reaches up to `p`: the errors,
how far the label reaches after the merges, and the labels that are left. -/
def mergeLabels (isInt : Bool) (node : ℕ) (p : BitVec width) (before : Label width) :
    List (Label width) → List (LabelError width) × BitVec width × List (Label width)
  | [] => ([], p, [])
  | e :: labs =>
      let overlaps := if casecmp e.start p ≤ 0 then [.overlaps e before] else []
      if isInt = true ∧ e.start.toInt = p.toInt + 1 ∧ e.node = node then
        let (errors, p, labs) := mergeLabels isInt node e.stop e labs
        (overlaps ++ errors, p, labs)
      else (overlaps, p, e :: labs)

/-- The outer loop, with the number of labels as fuel. -/
def checkFrom (isInt : Bool) :
    (fuel : ℕ) → List (Label width) → List (LabelError width) × List (Label width)
  | 0, labs => ([], labs)
  | _, [] => ([], [])
  | fuel + 1, lab :: labs =>
      let unmatchable := if casecmp lab.start lab.stop > 0 then [.unmatchable lab] else []
      let (overlaps, p, labs) := mergeLabels isInt lab.node lab.stop lab labs
      let (errors, labs) := checkFrom isInt fuel labs
      (unmatchable ++ overlaps ++ errors, { lab with stop := p } :: labs)

/-- A `Case` before its code. -/
structure Case (width : ℕ) where
  labs : List (Label width)
  wild : Option ℕ

/-- `checklabels` on constants of an int or a big, with the errors it reports. -/
def checklabels (isInt : Bool) (inits : List (Arm width)) : List (LabelError width) × Case width :=
  let labs := casesort (labelsFrom 0 inits)
  let (errors, labs) := checkFrom isInt labs.length labs
  (errors, ⟨labs, wildFrom 0 inits⟩)

/-- A value belongs to an arm. -/
def Selects (labs : List (Label width)) (value : BitVec width) (node : ℕ) : Prop :=
  ∃ lab ∈ labs, lab.node = node ∧ lab.Has value

/-- Two sets of labels say the same. -/
def SameSelection (labs others : List (Label width)) : Prop :=
  ∀ value node, Selects labs value node ↔ Selects others value node

/-- No value is in both ranges. -/
def Label.Apart (lab other : Label width) : Prop :=
  ∀ value, lab.Has value → ¬ other.Has value

section Order

theorem casecmp_nonpos {a b : BitVec width} : casecmp a b ≤ 0 ↔ a.toInt ≤ b.toInt := by
  unfold casecmp
  simp only [BitVec.slt_iff_toInt_lt]
  split_ifs <;> omega

theorem casecmp_pos {a b : BitVec width} : casecmp a b > 0 ↔ b.toInt < a.toInt := by
  rw [gt_iff_lt, ← not_le, casecmp_nonpos, not_le]

theorem casesort_perm (labs : List (Label width)) : (casesort labs).Perm labs :=
  HalvingSort.sort_perm _ _ _

/-- Labels in the order of their starts. -/
def Ascending (labs : List (Label width)) : Prop :=
  labs.Pairwise fun a b => a.start.toInt ≤ b.start.toInt

theorem casesort_ascending (labs : List (Label width)) : Ascending (casesort labs) := by
  have sorted := @HalvingSort.sort_pairwise (Label width)
    (fun a b => decide (casecmp a.start b.start ≤ 0))
    (by simp only [decide_eq_true_iff, casecmp_nonpos]; intro a b c; omega)
    (by simp only [Bool.or_eq_true, decide_eq_true_iff, casecmp_nonpos]; intro a b; omega)
    labs.length labs le_rfl
  exact sorted.imp fun le => casecmp_nonpos.mp (of_decide_eq_true le)

end Order

/-- Labels of an arm that continue a range up to another end. -/
def Continues (node : ℕ) : (p q : BitVec width) → List (Label width) → Prop
  | p, q, [] => q = p
  | p, q, e :: labs => e.start.toInt = p.toInt + 1 ∧ e.node = node ∧ Continues node e.stop q labs

/-- Sorted labels without errors, and the labels they are merged to. -/
inductive Merged : List (Label width) → List (Label width) → Prop where
  | nil : Merged [] []
  | cons {lab : Label width} {labs rest others : List (Label width)} {q : BitVec width}
      (matchable : lab.start.toInt ≤ lab.stop.toInt)
      (continues : Continues lab.node lab.stop q labs)
      (apart : ∀ e ∈ rest.head?, q.toInt < e.start.toInt) (later : Merged rest others) :
      Merged (lab :: (labs ++ rest)) ({ lab with stop := q } :: others)

section Merges

variable {isInt : Bool} {node : ℕ} {p q : BitVec width} {labs rest others : List (Label width)}

theorem mergeLabels_spec (before : Label width)
    (accepted : (mergeLabels isInt node p before labs).1 = []) :
    ∃ continued q rest, labs = continued ++ rest ∧
      mergeLabels isInt node p before labs = ([], q, rest) ∧ Continues node p q continued ∧
      ∀ e ∈ rest.head?, q.toInt < e.start.toInt := by
  induction labs generalizing p before with
  | nil => exact ⟨[], p, [], rfl, rfl, rfl, by simp⟩
  | cons e labs ih =>
      rw [mergeLabels] at accepted ⊢
      by_cases overlaps : casecmp e.start p ≤ 0
      · exfalso
        rw [if_pos overlaps] at accepted
        split_ifs at accepted
        all_goals simp at accepted
      · have apart : p.toInt < e.start.toInt := by
          rw [casecmp_nonpos] at overlaps
          omega
        rw [if_neg overlaps] at accepted ⊢
        split_ifs at accepted ⊢ with continues
        · obtain ⟨continued, q, rest, isLabs, isMerged, areNext, behind⟩ := ih e accepted
          refine ⟨e :: continued, q, rest, ?_, ?_, ⟨continues.2.1, continues.2.2, areNext⟩, behind⟩
          · rw [isLabs, List.cons_append]
          · rw [isMerged]
            rfl
        · exact ⟨[], p, e :: labs, rfl, rfl, rfl, by simpa using apart⟩

theorem checkFrom_spec (fuel : ℕ) (enough : labs.length ≤ fuel)
    (accepted : (checkFrom isInt fuel labs).1 = []) :
    Merged labs (checkFrom isInt fuel labs).2 := by
  induction fuel generalizing labs with
  | zero =>
      rw [List.length_eq_zero_iff.mp (Nat.le_zero.mp enough)]
      exact Merged.nil
  | succ fuel ih =>
      match labs with
      | [] => exact Merged.nil
      | lab :: labs =>
          rw [checkFrom] at accepted ⊢
          simp only [List.append_eq_nil_iff] at accepted
          obtain ⟨⟨matchable, noOverlaps⟩, others⟩ := accepted
          obtain ⟨continued, q, rest, isLabs, isMerged, continues, apart⟩ :=
            mergeLabels_spec lab noOverlaps
          have shorter : rest.length ≤ fuel := by
            rw [isLabs, List.length_cons, List.length_append] at enough
            omega
          rw [isMerged] at others ⊢
          rw [isLabs]
          apply Merged.cons _ continues apart (ih shorter others)
          by_contra lower
          rw [if_pos (casecmp_pos.mpr (by omega))] at matchable
          cases matchable

/-- All labels that are left are behind the range. -/
theorem behind_of_head (ascending : Ascending rest)
    (apart : ∀ e ∈ rest.head?, q.toInt < e.start.toInt) : ∀ e ∈ rest, q.toInt < e.start.toInt := by
  match rest with
  | [] => simp
  | first :: rest =>
      have isFirst := apart first rfl
      refine List.forall_mem_cons.mpr ⟨isFirst, fun e member => ?_⟩
      exact isFirst.trans_le ((List.pairwise_cons.mp ascending).1 e member)

theorem Merged.head_start (merged : Merged labs others) {other : Label width}
    (member : other ∈ others) : ∃ lab ∈ labs, lab.start = other.start := by
  induction merged with
  | nil => cases member
  | @cons lab labs rest others q matchable continues apart later ih =>
      rcases List.mem_cons.mp member with rfl | isLater
      · exact ⟨lab, List.mem_cons_self, rfl⟩
      · obtain ⟨found, isFound, same⟩ := ih isLater
        exact ⟨found, List.mem_cons_of_mem _ (List.mem_append_right _ isFound), same⟩

end Merges

/-- A range that is empty is next to the range before it. -/
def Label.Proper (lab : Label width) : Prop :=
  lab.start.toInt ≤ lab.stop.toInt + 1

section Selection

variable {node : ℕ} {p q : BitVec width} {labs rest others : List (Label width)}

theorem selects_nil {value : BitVec width} : ¬ Selects [] value node := by
  rintro ⟨lab, member, -⟩
  cases member

theorem selects_cons {lab : Label width} {value : BitVec width} :
    Selects (lab :: labs) value node ↔
      (lab.node = node ∧ lab.Has value) ∨ Selects labs value node := by
  unfold Selects
  simp

theorem selects_append {value : BitVec width} :
    Selects (labs ++ rest) value node ↔ Selects labs value node ∨ Selects rest value node := by
  unfold Selects
  simp only [List.mem_append, or_and_right, exists_or]

/-- Together, labels that continue a range have the values up to its new end. -/
theorem Continues.selects_iff (continues : Continues node p q labs)
    (proper : ∀ lab ∈ labs, lab.Proper) :
    p.toInt ≤ q.toInt ∧ ∀ value other, Selects labs value other ↔
      other = node ∧ p.toInt < value.toInt ∧ value.toInt ≤ q.toInt := by
  induction labs generalizing p with
  | nil =>
      rw [show q = p from continues]
      refine ⟨le_rfl, fun value other => ?_⟩
      have none := @selects_nil width other value
      constructor
      · exact fun selects => absurd selects none
      · omega
  | cons e labs ih =>
      obtain ⟨isNext, isNode, areNext⟩ := continues
      obtain ⟨isProper, areProper⟩ := List.forall_mem_cons.mp proper
      obtain ⟨le, iff⟩ := ih areNext areProper
      unfold Label.Proper at isProper
      refine ⟨by omega, fun value other => ?_⟩
      rw [selects_cons, iff, isNode]
      unfold Label.Has
      constructor
      · rintro (⟨rfl, has⟩ | ⟨rfl, has⟩)
        · exact ⟨rfl, by omega⟩
        · exact ⟨rfl, by omega⟩
      · rintro ⟨rfl, has⟩
        by_cases inFirst : value.toInt ≤ e.stop.toInt
        · exact Or.inl ⟨rfl, by omega⟩
        · exact Or.inr ⟨rfl, by omega⟩

/-- The labels that are merged to one have the values of that one. -/
theorem Continues.merged_iff {lab : Label width} (matchable : lab.start.toInt ≤ lab.stop.toInt)
    (continues : Continues lab.node lab.stop q labs) (proper : ∀ lab ∈ labs, lab.Proper)
    (value : BitVec width) (node : ℕ) :
    Selects (lab :: labs) value node ↔
      lab.node = node ∧ ({ lab with stop := q } : Label width).Has value := by
  obtain ⟨le, iff⟩ := continues.selects_iff proper
  rw [selects_cons, iff]
  unfold Label.Has
  constructor
  · rintro (⟨rfl, has⟩ | ⟨rfl, has⟩)
    · exact ⟨rfl, by dsimp only; omega⟩
    · exact ⟨rfl, by dsimp only; omega⟩
  · rintro ⟨rfl, has⟩
    dsimp only at has
    by_cases inFirst : value.toInt ≤ lab.stop.toInt
    · exact Or.inl ⟨rfl, by omega⟩
    · exact Or.inr ⟨rfl, by omega⟩

theorem Merged.sameSelection (merged : Merged labs others) (proper : ∀ lab ∈ labs, lab.Proper) :
    SameSelection labs others := by
  induction merged with
  | nil => exact fun value node => Iff.rfl
  | @cons lab labs rest others q matchable continues apart later ih =>
      intro value node
      obtain ⟨-, areProper⟩ := List.forall_mem_cons.mp proper
      obtain ⟨labsProper, restProper⟩ := List.forall_mem_append.mp areProper
      rw [← List.cons_append, selects_append, continues.merged_iff matchable labsProper,
        ih restProper, selects_cons]

/-- The first label that is not next to the range before it. -/
theorem exists_first {Entry : Type} {holds : Entry → Prop} [DecidablePred holds]
    {entries : List Entry} (fails : ¬ ∀ entry ∈ entries, holds entry) :
    ∃ before entry behind, entries = before ++ entry :: behind ∧ (∀ e ∈ before, holds e) ∧
      ¬ holds entry := by
  induction entries with
  | nil => exact absurd (by simp) fails
  | cons first entries ih =>
      by_cases isFirst : holds first
      · have later : ¬ ∀ entry ∈ entries, holds entry :=
          fun all => fails (List.forall_mem_cons.mpr ⟨isFirst, all⟩)
        obtain ⟨before, entry, behind, rfl, holdBefore, notHere⟩ := ih later
        exact ⟨first :: before, entry, behind, rfl, List.forall_mem_cons.mpr ⟨isFirst, holdBefore⟩,
          notHere⟩
      · exact ⟨[], first, entries, rfl, by simp, isFirst⟩

theorem Continues.split {before : List (Label width)}
    (continues : Continues node p q (before ++ labs)) :
    ∃ middle, Continues node p middle before ∧ Continues node middle q labs := by
  induction before generalizing p with
  | nil => exact ⟨p, rfl, continues⟩
  | cons e before ih =>
      obtain ⟨isNext, isNode, areNext⟩ := continues
      obtain ⟨middle, areBefore, areBehind⟩ := ih areNext
      exact ⟨middle, ⟨isNext, isNode, areBefore⟩, areBehind⟩

instance (lab : Label width) : Decidable lab.Proper :=
  inferInstanceAs (Decidable (_ ≤ _))

/-- Labels that continue a range end where it ends, or one of them does. -/
theorem Continues.exists_stop (continues : Continues node p q labs) :
    q = p ∨ ∃ lab ∈ labs, lab.node = node ∧ lab.stop = q := by
  induction labs generalizing p with
  | nil => exact Or.inl continues
  | cons e labs ih =>
      obtain ⟨-, isNode, areNext⟩ := continues
      right
      rcases ih areNext with rfl | ⟨lab, member, same, isStop⟩
      · exact ⟨e, List.mem_cons_self, isNode, rfl⟩
      · exact ⟨lab, List.mem_cons_of_mem _ member, same, isStop⟩

/-- A range of an arm behind which an empty one starts that ends before it, and whose end no label
has after the merges. -/
def LosesEnd (labs others : List (Label width)) : Prop :=
  ∃ lab ∈ labs, ∃ e ∈ labs, e.node = lab.node ∧ e.start.toInt = lab.stop.toInt + 1 ∧
    e.stop.toInt < lab.stop.toInt ∧ Selects labs lab.stop lab.node ∧
    ∀ other ∈ others, ¬ other.Has lab.stop

/-- If an empty range is not next to the range before it, then the end of that one is lost. -/
theorem Merged.loses (merged : Merged labs others) (ascending : Ascending labs)
    (improper : ¬ ∀ lab ∈ labs, lab.Proper) : LosesEnd labs others := by
  induction merged with
  | nil => exact absurd (by simp) improper
  | @cons lab labs rest others q matchable continues apart later ih =>
      obtain ⟨isFirst, areAscending⟩ := List.pairwise_cons.mp ascending
      obtain ⟨labsAscending, restAscending, between⟩ := List.pairwise_append.mp areAscending
      by_cases labsProper : ∀ lab ∈ labs, lab.Proper
      · have restImproper : ¬ ∀ lab ∈ rest, lab.Proper := by
          intro restProper
          have first : lab.Proper := matchable.trans (by omega)
          exact improper (List.forall_mem_cons.mpr
            ⟨first, List.forall_mem_append.mpr ⟨labsProper, restProper⟩⟩)
        obtain ⟨short, isShort, e, isEmpty, sameNode, isNext, endsBefore, selected, lost⟩ :=
          ih restAscending restImproper
        have inAll : ∀ other ∈ rest, other ∈ lab :: (labs ++ rest) := fun other member =>
          List.mem_cons_of_mem _ (List.mem_append_right _ member)
        obtain ⟨found, isFound, isNode, has⟩ := selected
        refine ⟨short, inAll short isShort, e, inAll e isEmpty, sameNode, isNext, endsBefore,
          ⟨found, inAll found isFound, isNode, has⟩, List.forall_mem_cons.mpr ⟨?_, lost⟩⟩
        have behind := behind_of_head restAscending apart found isFound
        unfold Label.Has at has ⊢
        dsimp only
        omega
      · obtain ⟨before, e, behind, rfl, beforeProper, notProper⟩ := exists_first labsProper
        obtain ⟨middle, areBefore, isNext, isNode, areBehind⟩ := continues.split
        unfold Label.Proper at notProper
        -- Labels start behind the empty range, so none continues it.
        have isLast : q = e.stop := by
          match behind with
          | [] => exact areBehind
          | following :: behind =>
              obtain ⟨isFollowing, -⟩ := areBehind
              have isBehind := (List.pairwise_cons.mp (List.pairwise_append.mp labsAscending).2.1).1
                following List.mem_cons_self
              omega
        obtain ⟨le, -⟩ := areBefore.selects_iff beforeProper
        have isSelected := (areBefore.merged_iff matchable beforeProper middle lab.node).mpr
          ⟨rfl, matchable.trans le, le_rfl⟩
        obtain ⟨short, isShort, shortNode, rfl⟩ : ∃ short ∈ lab :: before,
            short.node = lab.node ∧ short.stop = middle := by
          rcases areBefore.exists_stop with rfl | ⟨short, member, sameNode, isStop⟩
          · exact ⟨lab, List.mem_cons_self, rfl, rfl⟩
          · exact ⟨short, List.mem_cons_of_mem _ member, sameNode, isStop⟩
        have isAppend : lab :: (before ++ e :: behind ++ rest) =
            (lab :: before) ++ (e :: behind ++ rest) := by simp
        rw [isAppend]
        refine ⟨short, List.mem_append_left _ isShort, e,
          List.mem_append_right _ List.mem_cons_self, isNode.trans shortNode.symm, isNext,
          by omega, selects_append.mpr (Or.inl (shortNode ▸ isSelected)),
          List.forall_mem_cons.mpr ⟨?_, ?_⟩⟩
        · unfold Label.Has
          rw [isLast]
          dsimp only
          omega
        · intro other member has
          obtain ⟨found, isFound, same⟩ := later.head_start member
          have isBehind := between e (List.mem_append_right _ List.mem_cons_self) found isFound
          unfold Label.Has at has
          rw [same] at isBehind
          omega

end Selection

/-- Labels one behind the other. -/
def Ordered (labs : List (Label width)) : Prop :=
  labs.Pairwise fun a b => a.stop.toInt < b.start.toInt

def Nonempty (labs : List (Label width)) : Prop :=
  ∀ lab ∈ labs, lab.start.toInt ≤ lab.stop.toInt

/-- A label that is empty starts right behind the label before it, which is of its arm. -/
def Label.Attached (before lab : Label width) : Prop :=
  lab.start.toInt ≤ lab.stop.toInt ∨
    lab.start.toInt = before.stop.toInt + 1 ∧ lab.node = before.node

/-- Every empty label is behind one that it can be merged to. -/
def Attached : List (Label width) → Prop
  | [] => True
  | lab :: labs => lab.start.toInt ≤ lab.stop.toInt ∧ (lab :: labs).IsChain Label.Attached

section Accepted

variable {isInt : Bool} {node : ℕ} {p q : BitVec width} {labs rest others : List (Label width)}

theorem mergeLabels_accepts (before : Label width) (behind : ∀ e ∈ labs, p.toInt < e.start.toInt)
    (ordered : Ordered labs) : (mergeLabels isInt node p before labs).1 = [] := by
  induction labs generalizing p before with
  | nil => rfl
  | cons e labs ih =>
      obtain ⟨isBehind, -⟩ := List.forall_mem_cons.mp behind
      obtain ⟨areBehind, later⟩ := List.pairwise_cons.mp ordered
      have noOverlap : ¬ casecmp e.start p ≤ 0 := by
        rw [casecmp_nonpos]
        omega
      rw [mergeLabels, if_neg noOverlap]
      split_ifs
      · exact ih e areBehind later
      · rfl

/-- What the merges of ints leave starts with a label that is not empty. -/
theorem mergeLabels_attached {lab : Label width} (before : Label width)
    (attached : (lab :: labs).IsChain Label.Attached) :
    Attached (mergeLabels true lab.node lab.stop before labs).2.2 := by
  induction labs generalizing lab before with
  | nil => trivial
  | cons e labs ih =>
      obtain ⟨isAttached, chain⟩ := List.isChain_cons_cons.mp attached
      rw [mergeLabels]
      by_cases continues : true = true ∧ e.start.toInt = lab.stop.toInt + 1 ∧ e.node = lab.node
      · have rest := ih e chain
        rw [continues.2.2] at rest
        rw [if_pos continues]
        exact rest
      · rw [if_neg continues]
        exact ⟨isAttached.resolve_right fun next => continues ⟨rfl, next⟩, chain⟩

theorem checkFrom_attached (fuel : ℕ) (attached : Attached labs) (ordered : Ordered labs) :
    (checkFrom true fuel labs).1 = [] := by
  induction fuel generalizing labs with
  | zero => rfl
  | succ fuel ih =>
      match labs with
      | [] => rfl
      | lab :: labs =>
          obtain ⟨isNonempty, chain⟩ := attached
          obtain ⟨areBehind, later⟩ := List.pairwise_cons.mp ordered
          have noOverlaps := @mergeLabels_accepts width true lab.node lab.stop labs lab areBehind
            later
          have restAttached := mergeLabels_attached lab chain
          obtain ⟨continued, q, rest, isLabs, isMerged, -⟩ := mergeLabels_spec lab noOverlaps
          have matchable : ¬ casecmp lab.start lab.stop > 0 := by
            rw [casecmp_pos]
            omega
          rw [isLabs] at later
          rw [isMerged] at restAttached
          have others := ih restAttached (List.pairwise_append.mp later).2.1
          rw [checkFrom, if_neg matchable, isMerged]
          simpa using others

theorem checkFrom_accepts (fuel : ℕ) (nonempty : Nonempty labs) (ordered : Ordered labs) :
    (checkFrom isInt fuel labs).1 = [] := by
  induction fuel generalizing labs with
  | zero => rfl
  | succ fuel ih =>
      match labs with
      | [] => rfl
      | lab :: labs =>
          obtain ⟨isNonempty, areNonempty⟩ := List.forall_mem_cons.mp nonempty
          obtain ⟨areBehind, later⟩ := List.pairwise_cons.mp ordered
          have noOverlaps := @mergeLabels_accepts width isInt lab.node lab.stop labs lab areBehind
            later
          obtain ⟨continued, q, rest, isLabs, isMerged, -⟩ := mergeLabels_spec lab noOverlaps
          have matchable : ¬ casecmp lab.start lab.stop > 0 := by
            rw [casecmp_pos]
            omega
          rw [isLabs] at areNonempty later
          have others := ih (List.forall_mem_append.mp areNonempty).2
            (List.pairwise_append.mp later).2.1
          rw [checkFrom, if_neg matchable, isMerged]
          simpa using others

theorem Continues.ordered (continues : Continues node p q labs) (nonempty : Nonempty labs) :
    p.toInt ≤ q.toInt ∧ (∀ e ∈ labs, p.toInt < e.start.toInt ∧ e.stop.toInt ≤ q.toInt) ∧
      Ordered labs := by
  induction labs generalizing p with
  | nil =>
      rw [show q = p from continues]
      exact ⟨le_rfl, by simp, List.Pairwise.nil⟩
  | cons e labs ih =>
      obtain ⟨isNext, -, areNext⟩ := continues
      obtain ⟨isNonempty, areNonempty⟩ := List.forall_mem_cons.mp nonempty
      obtain ⟨le, inside, ordered⟩ := ih areNext areNonempty
      refine ⟨by omega, List.forall_mem_cons.mpr ⟨by omega, fun other member => ?_⟩,
        List.pairwise_cons.mpr ⟨fun other member => (inside other member).1, ordered⟩⟩
      have isInside := inside other member
      omega

theorem Merged.ordered (merged : Merged labs others) (ascending : Ascending labs)
    (nonempty : Nonempty labs) : Ordered labs := by
  induction merged with
  | nil => exact List.Pairwise.nil
  | @cons lab labs rest others q matchable continues apart later ih =>
      obtain ⟨-, areAscending⟩ := List.pairwise_cons.mp ascending
      obtain ⟨-, restAscending, -⟩ := List.pairwise_append.mp areAscending
      obtain ⟨-, areNonempty⟩ := List.forall_mem_cons.mp nonempty
      obtain ⟨labsNonempty, restNonempty⟩ := List.forall_mem_append.mp areNonempty
      obtain ⟨le, inside, ordered⟩ := continues.ordered labsNonempty
      have behind := behind_of_head restAscending apart
      apply List.pairwise_cons.mpr
      constructor
      · intro e member
        rcases List.mem_append.mp member with isLab | isRest
        · exact (inside e isLab).1
        · exact le.trans_lt (behind e isRest)
      · apply List.pairwise_append.mpr
        refine ⟨ordered, ih restAscending restNonempty, fun a isLab b isRest => ?_⟩
        exact (inside a isLab).2.trans_lt (behind b isRest)

/-- The merged labels come one behind the other. -/
theorem Merged.others_ordered (merged : Merged labs others) (ascending : Ascending labs)
    (nonempty : Nonempty labs) : Ordered others ∧ Nonempty others := by
  induction merged with
  | nil => exact ⟨List.Pairwise.nil, by simp [Nonempty]⟩
  | @cons lab labs rest others q matchable continues apart later ih =>
      obtain ⟨-, areAscending⟩ := List.pairwise_cons.mp ascending
      obtain ⟨-, restAscending, -⟩ := List.pairwise_append.mp areAscending
      obtain ⟨-, areNonempty⟩ := List.forall_mem_cons.mp nonempty
      obtain ⟨labsNonempty, restNonempty⟩ := List.forall_mem_append.mp areNonempty
      obtain ⟨ordered, othersNonempty⟩ := ih restAscending restNonempty
      constructor
      · apply List.pairwise_cons.mpr
        refine ⟨fun other member => ?_, ordered⟩
        obtain ⟨found, isFound, same⟩ := later.head_start member
        rw [← same]
        exact behind_of_head restAscending apart found isFound
      · have isNonempty := matchable.trans (continues.ordered labsNonempty).1
        exact List.forall_mem_cons.mpr ⟨isNonempty, othersNonempty⟩

theorem apart_iff_ordered (ascending : Ascending labs) (nonempty : Nonempty labs) :
    labs.Pairwise Label.Apart ↔ Ordered labs := by
  constructor
  · intro apart
    apply (apart.and ascending).imp_of_mem
    intro a b _ isLab isApart
    have isNonempty := nonempty b isLab
    have notBoth := isApart.1 b.start
    unfold Label.Has at notBoth
    omega
  · intro ordered
    apply ordered.imp
    intro a b behind value
    unfold Label.Has
    omega

end Accepted

section Checked

variable {isInt : Bool} {inits : List (Arm width)}

theorem checklabels_merged (accepted : (checklabels isInt inits).1 = []) :
    Merged (casesort (labelsFrom 0 inits)) (checklabels isInt inits).2.labs :=
  checkFrom_spec _ le_rfl accepted

theorem casesort_nonempty {labs : List (Label width)} (nonempty : Nonempty labs) :
    Nonempty (casesort labs) :=
  fun lab member => nonempty lab ((casesort_perm labs).mem_iff.mp member)

theorem checklabels_accepts_iff (nonempty : Nonempty (labelsFrom 0 inits)) :
    (checklabels isInt inits).1 = [] ↔ (labelsFrom 0 inits).Pairwise Label.Apart := by
  have ascending := casesort_ascending (labelsFrom 0 inits)
  have sortedNonempty := casesort_nonempty nonempty
  have symm : ∀ {a b : Label width}, a.Apart b → b.Apart a :=
    fun apart value inB inA => apart value inA inB
  rw [← (casesort_perm _).pairwise_iff symm, apart_iff_ordered ascending sortedNonempty]
  constructor
  · exact fun accepted => (checklabels_merged accepted).ordered ascending sortedNonempty
  · exact fun ordered => checkFrom_accepts _ sortedNonempty ordered

/-- Empty ranges of ints are accepted behind ranges of their arm. -/
theorem checklabels_attached (attached : Attached (casesort (labelsFrom 0 inits)))
    (ordered : Ordered (casesort (labelsFrom 0 inits))) : (checklabels true inits).1 = [] :=
  checkFrom_attached _ attached ordered

theorem casesort_same (labs : List (Label width)) : SameSelection labs (casesort labs) := by
  intro value node
  unfold Selects
  simp only [(casesort_perm labs).mem_iff]

theorem checklabels_same (accepted : (checklabels isInt inits).1 = [])
    (proper : ∀ lab ∈ labelsFrom 0 inits, lab.Proper) :
    SameSelection (labelsFrom 0 inits) (checklabels isInt inits).2.labs := by
  have sortedProper : ∀ lab ∈ casesort (labelsFrom 0 inits), lab.Proper :=
    fun lab member => proper lab ((casesort_perm _).mem_iff.mp member)
  have merged := (checklabels_merged accepted).sameSelection sortedProper
  exact fun value node => (casesort_same _ value node).trans (merged value node)

end Checked

/-- Ranges that are not empty are accepted exactly if no value is in two of them, and empty ones of
ints behind a range of their arm.  What is accepted says the same after the merges exactly if no
empty range is merged but one that is next to the range before it; for an empty range that is not,
the end of the range before it is lost. -/
theorem checklabels_spec (isInt : Bool) (inits : List (Arm width)) :
    let written := labelsFrom 0 inits
    let checked := checklabels isInt inits
    (Nonempty written → (checked.1 = [] ↔ written.Pairwise Label.Apart)) ∧
      (checked.1 = [] →
        (SameSelection written checked.2.labs ↔ ∀ lab ∈ written, lab.Proper) ∧
        ((∃ lab ∈ written, ¬ lab.Proper) → LosesEnd written checked.2.labs)) ∧
      (isInt = true → Attached (casesort written) → Ordered (casesort written) →
        checked.1 = []) := by
  intro written checked
  have loses (accepted : checked.1 = []) (improper : ¬ ∀ lab ∈ written, lab.Proper) :
      LosesEnd written checked.2.labs := by
    have sortedImproper : ¬ ∀ lab ∈ casesort written, lab.Proper := by
      simp only [(casesort_perm written).mem_iff]
      exact improper
    obtain ⟨lab, isLab, e, isEmpty, sameNode, isNext, endsBefore, selected, lost⟩ :=
      (checklabels_merged accepted).loses (casesort_ascending written) sortedImproper
    exact ⟨lab, (casesort_perm written).mem_iff.mp isLab, e,
      (casesort_perm written).mem_iff.mp isEmpty, sameNode, isNext, endsBefore,
      (casesort_same written lab.stop lab.node).mpr selected, lost⟩
  refine ⟨checklabels_accepts_iff, fun accepted => ⟨⟨?_, checklabels_same accepted⟩, ?_⟩, ?_⟩
  · intro same
    by_contra improper
    obtain ⟨lab, -, e, -, -, -, -, selected, lost⟩ := loses accepted improper
    obtain ⟨other, member, -, has⟩ := (same lab.stop lab.node).mp selected
    exact lost other member has
  · rintro ⟨lab, member, notProper⟩
    exact loses accepted fun proper => notProper (proper lab member)
  · rintro rfl attached ordered
    exact checklabels_attached attached ordered

/-- `1 or 2 to 0 =>` is accepted, and 1 is lost. -/
example :
    let checked := checkFrom true 2 [(⟨1#32, 1#32, 0⟩ : Label 32), ⟨2#32, 0#32, 0⟩]
    checked.1.length = 0 ∧ checked.2 = [⟨1#32, 0#32, 0⟩] := by
  decide

/-- The binary search of `findlab`, with the number of labels as fuel. -/
def findLoop (labs : List (Label width)) (v : BitVec width) : (fuel l r : ℕ) → ℕ
  | 0, l, _ => l
  | fuel + 1, l, r =>
      if l ≤ r then
        let m := (r + l) / 2
        match labs[m]? with
        | some lab =>
            if casecmp lab.start v ≤ 0 then findLoop labs v fuel (m + 1) r
            else findLoop labs v fuel l (m - 1)
        | none => l
      else l

/-- `findlab`, unless it is out of range. -/
def findlab (v : BitVec width) (labs : List (Label width)) : Option ℕ :=
  if labs.length ≤ 1 then some 0
  else
    let m := findLoop labs v labs.length 1 (labs.length - 1) - 1
    match labs[m]? with
    | some lab => if casecmp lab.start v > 0 ∨ casecmp lab.stop v < 0 then none else some m
    | none => none

/-- The loop of `casecom` over the qualifiers: the arm whose code a label has. -/
def fillLabs (labs : List (Label width)) :
    (quals : List (Label width)) → (insts : List (Option ℕ)) → Option (List (Option ℕ))
  | [], insts => some insts
  | qual :: quals, insts => do
      let m ← findlab qual.start labs
      fillLabs labs quals (insts.set m (some qual.node))

section Found

variable {labs : List (Label width)} {v : BitVec width}

theorem casecmp_neg {a b : BitVec width} : casecmp a b < 0 ↔ a.toInt < b.toInt := by
  unfold casecmp
  simp only [BitVec.slt_iff_toInt_lt]
  split_ifs <;> omega

theorem Ascending.le (ascending : Ascending labs) {i j : ℕ} {a b : Label width}
    (first : labs[i]? = some a) (second : labs[j]? = some b) (le : i ≤ j) :
    a.start.toInt ≤ b.start.toInt := by
  obtain ⟨isFirst, rfl⟩ := List.getElem?_eq_some_iff.mp first
  obtain ⟨isSecond, rfl⟩ := List.getElem?_eq_some_iff.mp second
  rcases le.lt_or_eq with lt | rfl
  · exact List.pairwise_iff_getElem.mp ascending i j isFirst isSecond lt
  · exact le_rfl

/-- The search ends behind the labels that start up to the value; the first label is not
compared. -/
theorem findLoop_spec (ascending : Ascending labs) (fuel : ℕ) {l r : ℕ} (positive : 1 ≤ l)
    (inside : r < labs.length) (ordered : l ≤ r + 1) (enough : r + 1 - l ≤ fuel)
    (below : ∀ i lab, 1 ≤ i → i < l → labs[i]? = some lab → lab.start.toInt ≤ v.toInt)
    (above : ∀ i lab, r < i → labs[i]? = some lab → v.toInt < lab.start.toInt) :
    let p := findLoop labs v fuel l r
    1 ≤ p ∧ p ≤ labs.length ∧
      (∀ i lab, 1 ≤ i → i < p → labs[i]? = some lab → lab.start.toInt ≤ v.toInt) ∧
      ∀ i lab, p ≤ i → labs[i]? = some lab → v.toInt < lab.start.toInt := by
  induction fuel generalizing l r with
  | zero =>
      have isEnd : l = r + 1 := by omega
      refine ⟨positive, by rw [findLoop]; omega, below, fun i lab le => above i lab ?_⟩
      rw [findLoop] at le
      omega
  | succ fuel ih =>
      rw [findLoop]
      split_ifs with more
      · have isMiddle : (r + l) / 2 < labs.length := by omega
        dsimp only
        rw [List.getElem?_eq_getElem isMiddle]
        dsimp only
        have atMiddle := List.getElem?_eq_getElem isMiddle
        split_ifs with behind
        · rw [casecmp_nonpos] at behind
          apply ih (by omega) inside (by omega) (by omega) _ above
          intro i lab _ before isLab
          exact (ascending.le isLab atMiddle (by omega)).trans behind
        · rw [casecmp_nonpos, not_le] at behind
          apply ih positive (by omega) (by omega) (by omega) below
          intro i lab after isLab
          exact behind.trans_le (ascending.le atMiddle isLab (by omega))
      · refine ⟨positive, by omega, below, fun i lab le => above i lab ?_⟩
        omega

/-- The label that has a value is found. -/
theorem findlab_eq (ordered : Ordered labs) (nonempty : Nonempty labs) {k : ℕ} {lab : Label width}
    (isLab : labs[k]? = some lab) (has : lab.Has v) : findlab v labs = some k := by
  have isIndex := (List.getElem?_eq_some_iff.mp isLab).choose
  have ascending : Ascending labs := by
    apply ordered.imp_of_mem
    intro a b isFirst _ before
    exact (nonempty a isFirst).trans before.le
  unfold Label.Has at has
  rw [findlab]
  split_ifs with short
  · congr 1
    omega
  · obtain ⟨positive, bound, below, above⟩ := @findLoop_spec width labs v ascending labs.length 1
      (labs.length - 1) le_rfl (by omega) (by omega) (by omega) (by omega) (by
        intro i other behind isOther
        have isIndex := (List.getElem?_eq_some_iff.mp isOther).choose
        omega)
    generalize findLoop labs v labs.length 1 (labs.length - 1) = p at positive bound below above
    have before : k < p := by
      by_contra notBefore
      have isAbove := above k lab (by omega) isLab
      omega
    have isLast : k = p - 1 := by
      by_contra notLast
      have lastIndex : p - 1 < labs.length := by omega
      have isBelow := below (p - 1) _ (by omega) (by omega) (List.getElem?_eq_getElem lastIndex)
      have isApart := List.pairwise_iff_getElem.mp ordered k (p - 1) isIndex lastIndex (by omega)
      rw [(List.getElem?_eq_some_iff.mp isLab).choose_spec] at isApart
      omega
    dsimp only
    rw [← isLast, isLab]
    dsimp only
    rw [if_neg]
    rw [casecmp_pos, casecmp_neg]
    omega

/-- Every label gets an arm of the qualifiers that are found in it. -/
theorem fillLabs_spec (ordered : Ordered labs) (nonempty : Nonempty labs)
    {quals : List (Label width)} (found : ∀ qual ∈ quals, Selects labs qual.start qual.node)
    {insts : List (Option ℕ)} (isLength : insts.length = labs.length) :
    ∃ filled, fillLabs labs quals insts = some filled ∧
      ∀ (m : ℕ) (lab : Label width), labs[m]? = some lab → filled[m]? = some (some lab.node) ∨
        filled[m]? = insts[m]? ∧ ∀ qual ∈ quals, ¬ lab.Has qual.start := by
  induction quals generalizing insts with
  | nil => exact ⟨insts, rfl, fun m lab _ => Or.inr ⟨rfl, by simp⟩⟩
  | cons qual quals ih =>
      obtain ⟨isFound, areFound⟩ := List.forall_mem_cons.mp found
      obtain ⟨lab, member, isNode, has⟩ := isFound
      obtain ⟨k, isLab⟩ := List.mem_iff_getElem?.mp member
      have isIndex := (List.getElem?_eq_some_iff.mp isLab).choose
      have sameLength : (insts.set k (some qual.node)).length = labs.length := by
        rw [List.length_set, isLength]
      obtain ⟨filled, isFilled, areSet⟩ := ih areFound sameLength
      refine ⟨filled, ?_, fun m other isOther => ?_⟩
      · rw [fillLabs, findlab_eq ordered nonempty isLab has]
        exact isFilled
      · rcases areSet m other isOther with isSet | ⟨isKept, notIn⟩
        · exact Or.inl isSet
        · by_cases same : m = k
          · left
            have isLast : other = lab := by
              rw [same, isLab] at isOther
              exact (Option.some.inj isOther).symm
            rw [isKept, same, List.getElem?_set_self (isLength ▸ isIndex), isLast, isNode]
          · right
            rw [isKept, List.getElem?_set_ne (Ne.symm same)]
            refine ⟨rfl, List.forall_mem_cons.mpr ⟨fun inOther => ?_, notIn⟩⟩
            -- Only one label has the start of the qualifier.
            have first := findlab_eq ordered nonempty isLab has
            rw [findlab_eq ordered nonempty isOther inOther] at first
            exact same (Option.some.inj first)

end Found

/-- `7 or 1 to 5 => ...; 6 => ...; * => ...`. -/
def someArms : List (Arm 32) :=
  [[.const 7#32, .range 1#32 5#32], [.const 6#32], [.wild]]

theorem someArms_nonempty : Nonempty (labelsFrom 0 someArms) := by
  unfold Nonempty
  decide

theorem someArms_accepted : (checklabels true someArms).1 = [] := by
  apply (checklabels_accepts_iff someArms_nonempty).mpr
  simp [someArms, labelsFrom, Qual.label, Label.Apart, Label.Has]
  refine ⟨⟨?_, ?_⟩, ?_, List.Pairwise.nil⟩
  all_goals
    intro value
    omega

end Disvm.CaseLabels
