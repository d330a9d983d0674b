import Mathlib.Algebra.BigOperators.Group.Finset.Basic
import Mathlib.Algebra.Order.BigOperators.Group.Finset
import Mathlib.Data.Fintype.Pigeonhole
import Disvm.BranchFolding

/-!
# The instructions that are written

`reach` leaves out what `foldbranch` does not mark.  `resolvepcs` numbers the
rest; markers share the number of the instruction after them and are not
written.  The written instructions show what the function shows.
-/

namespace Disvm.BranchFolding

open VisibleRuns

variable {n : ℕ} {Ref Operands State : Type}

/-- Where an instruction may go. -/
def Inst.succs (inst : Inst Ref Operands) (next : Option Ref) : List Ref :=
  match inst.op with
  | .jmp => inst.branch.toList
  | .exc | .exc0 | .noop => next.toList
  | .ret | .exit | .raise => []
  | .goto | .case | .casel | .casec => inst.cse.insts
  | .other _ => inst.branch.toList ++ next.toList

theorem Case.target_mem {cse : Case Ref} {label : Option ℕ} {place : Ref}
    (isTarget : cse.target label = some place) : place ∈ cse.insts := by
  unfold Case.target at isTarget
  unfold Case.insts
  rcases Option.or_eq_some_iff.mp isTarget with isLab | ⟨-, isWild⟩
  · obtain ⟨index, -, isLab⟩ := Option.bind_eq_some_iff.mp isLab
    exact List.mem_append_right _ (List.mem_of_getElem? isLab)
  · exact List.mem_append_left _ (by rw [isWild]; exact List.mem_singleton_self place)

/-- A move goes to one of the instructions where it may go. -/
theorem Inst.move_mem {semantics : Semantics Operands State} {inst : Inst Ref Operands}
    {next : Option Ref} {state after : State} {place : Ref}
    (moved : (inst.move semantics next state).next = some (some place, after)) :
    place ∈ inst.succs next := by
  obtain ⟨op, operands, branch, cse, reach⟩ := inst
  have inCase : ∀ {label}, some (cse.target label, state) = some (some place, after) →
      place ∈ cse.insts := by
    intro label isTarget
    exact Case.target_mem (congrArg Prod.fst (Option.some.inj isTarget))
  have isNext : some (next, state) = some (some place, after) → place ∈ next.toList := by
    rintro ⟨⟩
    exact List.mem_singleton_self place
  cases op with
  | jmp =>
      cases moved
      exact List.mem_singleton_self place
  | goto => exact inCase moved
  | case => exact inCase moved
  | casel => exact inCase moved
  | casec => exact inCase moved
  | exc => exact isNext moved
  | exc0 => exact isNext moved
  | noop => exact isNext moved
  | ret => cases moved
  | exit => cases moved
  | raise => cases moved
  | other op =>
      have isPlace := congrArg Prod.fst (Option.some.inj moved)
      simp only [Inst.succs, List.mem_append, Option.mem_toList]
      dsimp only at isPlace
      split_ifs at isPlace
      · rcases Option.or_eq_some_iff.mp isPlace with isBranch | ⟨-, isNext⟩
        · exact .inl isBranch
        · exact .inr isNext
      · exact .inr isPlace

/-- An instruction that a marked return or case instruction may go to. -/
def Owed (code : Code n Operands) (place : Fin n) : Prop :=
  ∃ holder, (code holder).reach = true ∧ (code holder).op.copied = true ∧
    place ∈ (code holder).succs (next holder)

/-- Where the instructions that have been marked may go is marked, if it is not owed by what
was marked before.  The markers of handlers have become instructions that go nowhere. -/
structure Closes (excs : Fin n → Prop) (code : Code n Operands) (places : List (Fin n))
    (after : Code n Operands) : Prop where
  reached : ∀ place ∈ places, (after place).reach = true
  closed : ∀ place, (code place).reach = false → (after place).reach = true →
    (excs place ∧ (after place).op = .noop) ∨
      ∀ succ ∈ (after place).succs (next place), (after succ).reach = true ∨ Owed code succ

section Closed

variable {excs : Fin n → Prop} {code short middle after : Code n Operands} {place : Fin n}
  {places later labs : List (Fin n)}

theorem Begins.owed (begins : Begins code place short) {succ : Fin n} (owed : Owed short succ) :
    ((short place).op.copied = true ∧ succ ∈ (short place).succs (next place)) ∨
      Owed code succ := by
  obtain ⟨holder, isReached, copied, isSucc⟩ := owed
  by_cases same : holder = place
  · subst same
    exact .inl ⟨copied, isSucc⟩
  · rw [begins.other same] at isReached copied isSucc
    exact .inr ⟨holder, isReached, copied, isSucc⟩

/-- A turn whose instruction goes to places that come later. -/
theorem Begins.closes (begins : Begins code place short) (keeps : Keeps short after)
    (rest : Closes excs short later after) (isLater : ∀ other ∈ places, other ∈ later)
    (goes : ∀ succ ∈ (short place).succs (next place), succ ∈ later) :
    Closes excs code (place :: places) after := by
  constructor
  · intro other member
    rcases List.mem_cons.mp member with rfl | member
    · exact keeps.reach begins.reach
    · exact rest.reached other (isLater other member)
  · intro other unreached isReached
    by_cases same : other = place
    · subst same
      refine .inr fun succ isSucc => .inl ?_
      rw [keeps other begins.reach] at isSucc
      exact rest.reached succ (goes succ isSucc)
    · have still : (short other).reach = false := by rw [begins.other same, unreached]
      refine (rest.closed other still isReached).imp_right fun closed succ isSucc => ?_
      rcases closed succ isSucc with reached | owed
      · exact .inl reached
      · rcases begins.owed owed with ⟨-, here⟩ | before
        · exact .inl (rest.reached succ (goes succ here))
        · exact .inr before

/-- A turn whose instruction is a marker. -/
theorem Begins.closes_setOp (begins : Begins code place short)
    (notCopied : (short place).op.copied = false) (first : Keeps short middle)
    (labels : Closes excs short labs middle) (second : Keeps (middle.setOp place .noop) after)
    (rest : Closes excs (middle.setOp place .noop) later after)
    (isLater : ∀ other ∈ places, other ∈ later)
    (goes : excs place ∨ ∀ succ ∈ next place, succ ∈ later) :
    Closes excs code (place :: places) after := by
  have atPlace : (middle.setOp place .noop) place = { middle place with op := .noop } :=
    Function.update_self ..
  have atOther : ∀ {other}, other ≠ place → (middle.setOp place .noop) other = middle other :=
    fun apart => Function.update_of_ne apart ..
  have reachPlace : ((middle.setOp place .noop) place).reach = true := by
    rw [atPlace]
    exact first.reach begins.reach
  have marks : ∀ other, (middle other).reach = true → (after other).reach = true := by
    intro other isReached
    by_cases same : other = place
    · subst same
      exact second.reach reachPlace
    · exact second.reach (by rw [atOther same, isReached])
  have fromShort : ∀ {succ}, Owed short succ → Owed code succ := by
    intro succ owed
    rcases begins.owed owed with ⟨copied, -⟩ | before
    · rw [notCopied] at copied
      cases copied
    · exact before
  constructor
  · intro other member
    rcases List.mem_cons.mp member with rfl | member
    · exact second.reach reachPlace
    · exact rest.reached other (isLater other member)
  · intro other unreached isReached
    by_cases same : other = place
    · subst same
      have isNoop : (after other).op = .noop := by rw [second other reachPlace, atPlace]
      refine goes.imp (fun isExc => ⟨isExc, isNoop⟩) fun goes succ isSucc => .inl ?_
      rw [Inst.succs, isNoop] at isSucc
      exact rest.reached succ (goes succ (Option.mem_toList.mp isSucc))
    · have still : (short other).reach = false := by rw [begins.other same, unreached]
      cases inMiddle : (middle other).reach with
      | true =>
          have isSame : after other = middle other := by
            rw [second other (by rw [atOther same, inMiddle]), atOther same]
          rw [isSame]
          refine (labels.closed other still inMiddle).imp_right fun closed succ isSucc => ?_
          exact (closed succ isSucc).imp (marks succ) fromShort
      | false =>
          have stillOut : ((middle.setOp place .noop) other).reach = false := by
            rw [atOther same, inMiddle]
          refine (rest.closed other stillOut isReached).imp_right fun closed succ isSucc => ?_
          rcases closed succ isSucc with reached | ⟨holder, holderReached, copied, isGoal⟩
          · exact .inl reached
          have apart : holder ≠ place := by
            rintro rfl
            rw [atPlace] at copied
            cases copied
          rw [atOther apart] at holderReached copied isGoal
          cases wasReached : (code holder).reach with
          | true =>
              have isSame : middle holder = code holder :=
                begins.keeps.trans first holder wasReached
              rw [isSame] at copied isGoal
              exact .inr ⟨holder, wasReached, copied, isGoal⟩
          | false =>
              have wasOut : (short holder).reach = false := by rw [begins.other apart, wasReached]
              rcases labels.closed holder wasOut holderReached with ⟨-, isNoop⟩ | closed
              · rw [isNoop] at copied
                cases copied
              · exact (closed succ isGoal).imp (marks succ) fromShort

/-- A turn that puts a copy in the place of a jump. -/
theorem Begins.closes_copy {target : Fin n} (begins : Begins code place short)
    (isJump : (short place).op = .jmp) (copied : (short target).op.copied = true)
    (keeps : Keeps (short.copy place target) after)
    (rest : Closes excs (short.copy place target) (place :: places) after) :
    Closes excs code (place :: places) after := by
  have apart : target ≠ place := by
    rintro rfl
    rw [isJump] at copied
    cases copied
  have atPlace : (short.copy place target) place = code target := by
    rw [Code.copy, Function.update_self, begins.other apart]
  have atOther : ∀ {other}, other ≠ place → (short.copy place target) other = code other := by
    intro other isOther
    rw [Code.copy, Function.update_of_ne isOther, begins.other isOther]
  rw [begins.other apart] at copied
  -- A copied instruction may go where its original may go.
  have goals : ∀ {succ}, succ ∈ (code target).succs (next place) →
      succ ∈ (code target).succs (next target) := by
    intro succ isSucc
    unfold Inst.succs at isSucc ⊢
    cases op : (code target).op <;> rw [op] at isSucc copied <;> first | exact isSucc | cases copied
  have owed : ∀ {succ}, Owed (short.copy place target) succ → Owed code succ := by
    rintro succ ⟨holder, isReached, isCopied, isSucc⟩
    by_cases same : holder = place
    · subst same
      rw [atPlace] at isReached isCopied isSucc
      exact ⟨target, isReached, isCopied, goals isSucc⟩
    · rw [atOther same] at isReached isCopied isSucc
      exact ⟨holder, isReached, isCopied, isSucc⟩
  refine ⟨rest.reached, fun other unreached isReached => ?_⟩
  cases wasReached : ((short.copy place target) other).reach with
  | false =>
      refine (rest.closed other wasReached isReached).imp_right fun closed succ isSucc => ?_
      exact (closed succ isSucc).imp_right owed
  | true =>
      have same : other = place := by
        by_contra isOther
        rw [atOther isOther, unreached] at wasReached
        cases wasReached
      subst same
      refine .inr fun succ isSucc => .inr ?_
      rw [keeps other wasReached, atPlace] at isSucc
      rw [atPlace] at wasReached
      exact ⟨target, wasReached, copied, goals isSucc⟩

/-- The markers of handlers that are not marked yet. -/
def ExcsIn (excs : Fin n → Prop) (code : Code n Operands) : Prop :=
  ∀ place, (code place).reach = false → (code place).op = .exc → excs place

theorem Begins.excsIn (begins : Begins code place short) (isIn : ExcsIn excs code) :
    ExcsIn excs short := by
  intro other unreached isExc
  by_cases same : other = place
  · subst same
    rw [begins.reach] at unreached
    cases unreached
  · rw [begins.other same] at unreached isExc
    exact isIn other unreached isExc

theorem Begins.isExc (begins : Begins code place short) (isIn : ExcsIn excs code)
    (isExc : (short place).op = .exc) : excs place :=
  isIn place begins.unreached (by rw [← begins.op, isExc])

theorem ExcsIn.setOp (isIn : ExcsIn excs code) : ExcsIn excs (code.setOp place .noop) := by
  intro other unreached isExc
  by_cases same : other = place
  · subst same
    rw [Code.setOp, Function.update_self] at isExc
    cases isExc
  · rw [Code.setOp, Function.update_of_ne same] at unreached isExc
    exact isIn other unreached isExc

theorem ExcsIn.copy {target : Fin n} (isIn : ExcsIn excs code)
    (copied : (code target).op.copied = true) : ExcsIn excs (code.copy place target) := by
  intro other unreached isExc
  by_cases same : other = place
  · subst same
    rw [Code.copy, Function.update_self] at isExc
    rw [isExc] at copied
    cases copied
  · rw [Code.copy, Function.update_of_ne same] at unreached isExc
    exact isIn other unreached isExc

theorem Folds.excsIn (folds : Folds code places after) (isIn : ExcsIn excs code) :
    ExcsIn excs after := by
  induction folds with
  | nil => exact isIn
  | reached _ _ ih => exact ih isIn
  | stop begins _ _ ih => exact ih (begins.excsIn isIn)
  | labels begins _ _ ih => exact ih (begins.excsIn isIn)
  | exc begins _ _ _ labs rest => exact rest (labs (begins.excsIn isIn)).setOp
  | exc0 begins _ _ _ branch rest => exact rest (branch (begins.excsIn isIn)).setOp
  | copy begins _ _ copied _ ih => exact ih ((begins.excsIn isIn).copy copied)
  | jump begins _ _ _ ih => exact ih (begins.excsIn isIn)
  | other begins _ _ ih => exact ih (begins.excsIn isIn)

theorem Folds.closes (folds : Folds code places after) (isIn : ExcsIn excs code) :
    Closes excs code places after := by
  induction folds with
  | nil code =>
      refine ⟨fun _ member => absurd member List.not_mem_nil, fun place unreached isReached => ?_⟩
      rw [unreached] at isReached
      cases isReached
  | reached isReached rest ih =>
      have closes := ih isIn
      refine ⟨?_, closes.closed⟩
      exact List.forall_mem_cons.mpr ⟨rest.keeps.reach isReached, closes.reached⟩
  | stop begins isStop rest ih =>
      refine begins.closes rest.keeps (ih (begins.excsIn isIn)) (fun _ member => member) ?_
      intro succ isSucc
      rcases isStop with isStop | isStop | isStop <;>
        · rw [Inst.succs, isStop] at isSucc
          cases isSucc
  | labels begins isCase rest ih =>
      refine begins.closes rest.keeps (ih (begins.excsIn isIn))
        (fun _ member => List.mem_append_right _ member) ?_
      intro succ isSucc
      rcases isCase with isCase | isCase | isCase | isCase <;>
        · rw [Inst.succs, isCase] at isSucc
          exact List.mem_append_left _ isSucc
  | exc begins isExc labs rest labsIh ih =>
      have isInShort := begins.excsIn isIn
      exact begins.closes_setOp (by rw [isExc]; rfl) labs.keeps (labsIh isInShort) rest.keeps
        (ih (labs.excsIn isInShort).setOp) (fun _ member => member)
        (.inl (begins.isExc isIn isExc))
  | exc0 begins isExc branch rest branchIh ih =>
      have isInShort := begins.excsIn isIn
      exact begins.closes_setOp (by rw [isExc]; rfl) branch.keeps (branchIh isInShort) rest.keeps
        (ih (branch.excsIn isInShort).setOp) (fun _ member => List.mem_append_right _ member)
        (.inr fun succ isNext => List.mem_append_left _ (Option.mem_toList.mpr isNext))
  | copy begins isJump _ copied rest ih =>
      exact begins.closes_copy isJump copied rest.keeps
        (ih ((begins.excsIn isIn).copy copied))
  | jump begins isJump branch rest ih =>
      refine begins.closes rest.keeps (ih (begins.excsIn isIn))
        (fun _ member => List.mem_cons_of_mem _ member) ?_
      intro succ isSucc
      rw [Inst.succs, isJump, branch] at isSucc
      rw [List.mem_singleton.mp isSucc]
      exact List.mem_cons_self
  | other begins isOther rest ih =>
      refine begins.closes rest.keeps (ih (begins.excsIn isIn))
        (fun _ member => List.mem_append_right _ (List.mem_append_right _ member)) ?_
      intro succ isSucc
      rcases isOther with isNoop | ⟨op, isOther⟩
      · rw [Inst.succs, isNoop] at isSucc
        exact List.mem_append_right _ (List.mem_append_left _ isSucc)
      · rw [Inst.succs, isOther] at isSucc
        rcases List.mem_append.mp isSucc with isBranch | isNext
        · exact List.mem_append_left _ isBranch
        · exact List.mem_append_right _ (List.mem_append_left _ isNext)

/-- Markers are not left among the marked instructions. -/
theorem Folds.noMarkers (folds : Folds code places after) :
    ∀ other, (code other).reach = false → (after other).reach = true →
      (after other).op ≠ .exc ∧ (after other).op ≠ .exc0 := by
  have turn : ∀ {code short after : Code n Operands} {place : Fin n},
      Begins code place short → Keeps short after →
      (short place).op ≠ .exc ∧ (short place).op ≠ .exc0 →
      (∀ other, (short other).reach = false → (after other).reach = true →
        (after other).op ≠ .exc ∧ (after other).op ≠ .exc0) →
      ∀ other, (code other).reach = false → (after other).reach = true →
        (after other).op ≠ .exc ∧ (after other).op ≠ .exc0 := by
    intro code short after place begins keeps isOp rest other unreached isReached
    by_cases same : other = place
    · subst same
      rw [keeps other begins.reach]
      exact isOp
    · exact rest other (by rw [begins.other same, unreached]) isReached
  have marker : ∀ {code short middle after : Code n Operands} {place : Fin n},
      Begins code place short → Keeps short middle → Keeps (middle.setOp place .noop) after →
      (∀ other, (short other).reach = false → (middle other).reach = true →
        (middle other).op ≠ .exc ∧ (middle other).op ≠ .exc0) →
      (∀ other, ((middle.setOp place .noop) other).reach = false → (after other).reach = true →
        (after other).op ≠ .exc ∧ (after other).op ≠ .exc0) →
      ∀ other, (code other).reach = false → (after other).reach = true →
        (after other).op ≠ .exc ∧ (after other).op ≠ .exc0 := by
    intro code short middle after place begins first second labs rest other unreached isReached
    cases inMiddle : ((middle.setOp place .noop) other).reach with
    | false => exact rest other inMiddle isReached
    | true =>
        rw [second other inMiddle]
        by_cases same : other = place
        · subst same
          rw [Code.setOp, Function.update_self]
          simp
        · rw [Code.setOp, Function.update_of_ne same] at inMiddle ⊢
          exact labs other (by rw [begins.other same, unreached]) inMiddle
  induction folds with
  | nil code =>
      intro other unreached isReached
      rw [unreached] at isReached
      cases isReached
  | reached _ _ ih => exact ih
  | stop begins isStop rest ih =>
      refine turn begins rest.keeps ?_ ih
      rcases isStop with isStop | isStop | isStop <;> simp [isStop]
  | labels begins isCase rest ih =>
      refine turn begins rest.keeps ?_ ih
      rcases isCase with isCase | isCase | isCase | isCase <;> simp [isCase]
  | exc begins _ labs rest labsIh ih => exact marker begins labs.keeps rest.keeps labsIh ih
  | exc0 begins _ branch rest branchIh ih =>
      exact marker begins branch.keeps rest.keeps branchIh ih
  | @copy code short after place target places begins isJump _ copied rest ih =>
      intro other unreached isReached
      cases inCopy : ((short.copy place target) other).reach with
      | false => exact ih other inCopy isReached
      | true =>
          rw [rest.keeps other inCopy]
          by_cases same : other = place
          · subst same
            rw [Code.copy, Function.update_self]
            constructor <;> intro isMarker <;> rw [isMarker] at copied <;> cases copied
          · rw [Code.copy, Function.update_of_ne same, begins.other same, unreached] at inCopy
            cases inCopy
  | jump begins isJump _ rest ih =>
      refine turn begins rest.keeps ?_ ih
      simp [isJump]
  | other begins isOther rest ih =>
      refine turn begins rest.keeps ?_ ih
      rcases isOther with isOther | ⟨op, isOther⟩ <;> simp [isOther]

end Closed

/-- `reach`: the function with what has been marked, and the list that is left of it. -/
def reach (fuel : ℕ) (code : Code (n + 1) Operands) :
    Option (Code (n + 1) Operands × List (Fin (n + 1))) := do
  let code ← foldbranch fuel code (some 0)
  return (code, 0 :: (List.finRange (n + 1)).tail.filter fun place => (code place).reach)

/-- A middle operand that is written in 16 bits. -/
def Small (v : ℤ) : Prop :=
  -0x8000 ≤ v ∧ v ≤ 0x7fff

instance (v : ℤ) : Decidable (Small v) :=
  inferInstanceAs (Decidable (_ ∧ _))

/-- `resolvepcs`: the number of each instruction, and the one after the last.  The value of a middle
operand is known; for one that is too large the compiler puts in another instruction, which is left
out here. -/
def resolvepcs (middle : Operands → ℤ) (code : Code n Operands) :
    List (Fin n) → (pc : ℕ) → Option ((Fin n → ℕ) × ℕ)
  | [], pc => some (fun _ => 0, pc)
  | place :: places, pc =>
      if (code place).op = .noop then
        (resolvepcs middle code places pc).map fun rest =>
          (Function.update rest.1 place pc, rest.2)
      else if Small (middle (code place).operands) then
        (resolvepcs middle code places (pc + 1)).map fun rest =>
          (Function.update rest.1 place pc, rest.2)
      else none

/-- The numbers without a look at the operands. -/
def numbers (code : Code n Operands) : List (Fin n) → ℕ → (Fin n → ℕ) × ℕ
  | [], pc => (fun _ => 0, pc)
  | place :: places, pc =>
      let rest := numbers code places (if (code place).op = .noop then pc else pc + 1)
      (Function.update rest.1 place pc, rest.2)

theorem resolvepcs_eq {middle : Operands → ℤ} {code : Code n Operands}
    (small : ∀ place, Small (middle (code place).operands)) (places : List (Fin n)) (pc : ℕ) :
    resolvepcs middle code places pc = some (numbers code places pc) := by
  induction places generalizing pc with
  | nil => rfl
  | cons place places ih =>
      rw [resolvepcs, numbers, ih, ih, if_pos (small place)]
      split_ifs <;> rfl

/-- An instruction whose references are numbers. -/
def Inst.resolve (pcs : Ref → ℕ) (inst : Inst Ref Operands) : Inst ℕ Operands where
  op := inst.op
  operands := inst.operands
  branch := inst.branch.map pcs
  cse := ⟨inst.cse.iwild.map pcs, inst.cse.labs.map pcs⟩
  reach := inst.reach

/-- The instructions that `disinst` writes. -/
def disinst (code : Code n Operands) (pcs : Fin n → ℕ) (places : List (Fin n)) :
    List (Inst ℕ Operands) :=
  places.filterMap fun place =>
    if (code place).op = .noop then none else some ((code place).resolve pcs)

/-- The machine that executes numbered instructions. -/
def execute (semantics : Semantics Operands State) (insts : List (Inst ℕ Operands)) :
    Machine (Option ℕ × State) (Event Operands State)
  | (none, _) => .halt
  | (some pc, state) =>
      match insts[pc]? with
      | none => .halt
      | some inst => inst.move semantics (some (pc + 1)) state

section Numbers

variable {code : Code n Operands} {place : Fin n} {places before after : List (Fin n)}

/-- How many of some instructions are written. -/
def written (code : Code n Operands) (places : List (Fin n)) : ℕ :=
  places.countP fun place => (code place).op ≠ .noop

theorem length_disinst (pcs : Fin n → ℕ) :
    (disinst code pcs places).length = written code places := by
  induction places with
  | nil => rfl
  | cons place places ih =>
      unfold disinst written at ih ⊢
      by_cases isNoop : (code place).op = .noop <;> simp [isNoop, ih]

theorem numbers_count (pc : ℕ) :
    (numbers code places pc).2 = pc + written code places := by
  induction places generalizing pc with
  | nil => rfl
  | cons place places ih =>
      unfold written at ih ⊢
      rw [numbers]
      dsimp only
      rw [ih]
      by_cases isNoop : (code place).op = .noop
      · simp [isNoop]
      · simp [isNoop]
        omega

theorem numbers_number (apart : place ∉ before) (pc : ℕ) :
    (numbers code (before ++ place :: after) pc).1 place = pc + written code before := by
  induction before generalizing pc with
  | nil => exact Function.update_self ..
  | cons first before ih =>
      rw [List.mem_cons, not_or] at apart
      unfold written at ih ⊢
      rw [List.cons_append, numbers]
      dsimp only
      rw [Function.update_of_ne apart.1, ih apart.2]
      by_cases isNoop : (code first).op = .noop
      · simp [isNoop]
      · simp [isNoop]
        omega

theorem disinst_number (pcs : Fin n → ℕ) (isReal : (code place).op ≠ .noop) :
    (disinst code pcs (before ++ place :: after))[written code before]? =
      some ((code place).resolve pcs) := by
  have split : disinst code pcs (before ++ place :: after) =
      disinst code pcs before ++ (code place).resolve pcs :: disinst code pcs after := by
    simp [disinst, isReal]
  rw [split, ← length_disinst pcs, List.getElem?_append_right le_rfl, Nat.sub_self]
  rfl

end Numbers

/-- What a run may come to from an instruction. -/
def Comes (code : Code n Operands) : Fin n → Fin n → Prop :=
  Relation.ReflTransGen fun place succ => succ ∈ (code place).succs (next place)

/-- A run goes on to where it may come. -/
theorem Comes.move {semantics : Semantics Operands State} {code : Code n Operands}
    {entry place succ : Fin n} {state after : State} (comes : Comes code entry place)
    (moved : (run semantics next code (some place, state)).next = some (some succ, after)) :
    Comes code entry succ :=
  comes.tail (Inst.move_mem moved)

/-- Some instructions that runs do not leave. -/
def Stays (code : Code n Operands) (inside : Fin n → Prop) : Prop :=
  ∀ place, inside place → ∀ succ ∈ (code place).succs (next place), inside succ

theorem stays_comes (code : Code n Operands) (place : Fin n) : Stays code (Comes code place) :=
  fun _ comes _ isSucc => comes.tail isSucc

theorem Edit.stays {code after : Code n Operands} {inside : Fin n → Prop}
    (edit : Edit code after) (stays : Stays code inside) : Stays after inside := by
  cases edit with
  | mark place =>
      intro other isInside succ isSucc
      refine stays other isInside succ ?_
      by_cases same : other = place
      · subst same
        rw [Code.mark, Function.update_self] at isSucc
        exact isSucc
      · rwa [Code.mark, Function.update_of_ne same] at isSucc
  | @shorten place target beyond branch jump apart onward =>
      intro other isInside succ isSucc
      by_cases same : other = place
      · subst same
        have toTarget : target ∈ (code other).succs (next other) → inside beyond := by
          intro isTarget
          refine stays target (stays other isInside target isTarget) beyond ?_
          rw [Inst.succs, jump, onward]
          exact List.mem_singleton_self beyond
        have isInst := stays other isInside
        rw [Code.setBranch, Function.update_self] at isSucc
        generalize code other = inst at *
        obtain ⟨op, operands, _, cse, isReached⟩ := inst
        cases branch
        cases op with
        | jmp =>
            rw [List.mem_singleton.mp isSucc]
            exact toTarget (List.mem_singleton_self target)
        | other op =>
            rcases List.mem_append.mp isSucc with isBranch | isNext
            · rw [List.mem_singleton.mp isBranch]
              exact toTarget (List.mem_append_left _ (List.mem_singleton_self target))
            · exact isInst succ (List.mem_append_right _ isNext)
        | _ => exact isInst succ isSucc
      · rw [Code.setBranch, Function.update_of_ne same] at isSucc
        exact stays other isInside succ isSucc
  | @copy place target jump branch copied =>
      intro other isInside succ isSucc
      by_cases same : other = place
      · subst same
        have isTarget : inside target := by
          refine stays other isInside target ?_
          rw [Inst.succs, jump, branch]
          exact List.mem_singleton_self target
        have isInst := stays target isTarget
        rw [Code.copy, Function.update_self] at isSucc
        generalize code target = inst at *
        obtain ⟨op, operands, targetBranch, cse, isReached⟩ := inst
        cases op <;> first | exact isInst succ isSucc | cases copied
      · rw [Code.copy, Function.update_of_ne same] at isSucc
        exact stays other isInside succ isSucc
  | @marker place isMarker =>
      intro other isInside succ isSucc
      refine stays other isInside succ ?_
      by_cases same : other = place
      · subst same
        rw [Code.setOp, Function.update_self] at isSucc
        rcases isMarker with isMarker | isMarker <;> rwa [Inst.succs, isMarker]
      · rwa [Code.setOp, Function.update_of_ne same] at isSucc

theorem Edits.stays {code after : Code n Operands} {inside : Fin n → Prop}
    (edits : Edits code after) (stays : Stays code inside) : Stays after inside := by
  induction edits with
  | refl => exact stays
  | tail _ edit ih => exact edit.stays ih

/-- The move of an instruction with numbers in the place of references. -/
theorem matches_resolve {semantics : Semantics Operands State} {inst : Inst Ref Operands}
    {pcs : Ref → ℕ} {related : Option Ref × State → Option ℕ × State → Prop}
    {next : Option Ref} {after : Option ℕ} (isEnd : ∀ state, related (none, state) (none, state))
    (goes : ∀ succ ∈ inst.succs next, ∀ state, related (some succ, state) (some (pcs succ), state))
    (isNext : (∀ succ ∈ next, succ ∈ inst.succs next) →
      ∀ state, related (next, state) (after, state)) (state : State) :
    Matches related (inst.move semantics next state)
      ((inst.resolve pcs).move semantics after state) := by
  obtain ⟨op, operands, branch, cse, isReached⟩ := inst
  have fallsThrough : (∀ succ ∈ next, succ ∈ next.toList) := fun succ isSucc =>
    Option.mem_toList.mpr isSucc
  have inCase : (∀ succ ∈ cse.insts, ∀ state, related (some succ, state)
      (some (pcs succ), state)) → ∀ label, related (cse.target label, state)
        (Case.target ⟨cse.iwild.map pcs, cse.labs.map pcs⟩ label, state) := by
    intro goes label
    have isTarget : Case.target ⟨cse.iwild.map pcs, cse.labs.map pcs⟩ label =
        (cse.target label).map pcs := by
      unfold Case.target
      cases label with
      | none => rfl
      | some index => cases found : cse.labs[index]? <;> simp [found]
    rw [isTarget]
    cases found : cse.target label with
    | none => exact isEnd state
    | some succ => exact goes succ (Case.target_mem found) state
  cases op with
  | jmp =>
      refine .silent ?_
      cases branch with
      | none => exact isEnd state
      | some target => exact goes target (List.mem_singleton_self target) state
  | goto => exact .visible (inCase goes _)
  | case => exact .visible (inCase goes _)
  | casel => exact .visible (inCase goes _)
  | casec => exact .visible (inCase goes _)
  | exc => exact .silent (isNext fallsThrough state)
  | exc0 => exact .silent (isNext fallsThrough state)
  | noop => exact .silent (isNext fallsThrough state)
  | ret => exact .visible (isEnd state)
  | exit => exact .visible (isEnd state)
  | raise => exact .visible (isEnd state)
  | other op =>
      have toNext := isNext fun succ isSucc => List.mem_append_right _ (fallsThrough succ isSucc)
      show Matches related
        (.visible (⟨.other op, operands, state⟩ : Event Operands State)
          (if (semantics.exec op operands state).2 then branch.or next else next,
            (semantics.exec op operands state).1))
        (.visible (⟨.other op, operands, state⟩ : Event Operands State)
          (if (semantics.exec op operands state).2 then (branch.map pcs).or after else after,
            (semantics.exec op operands state).1))
      refine .visible ?_
      by_cases taken : (semantics.exec op operands state).2 = true
      · rw [if_pos taken, if_pos taken]
        cases branch with
        | none => exact toNext _
        | some target =>
            have isGoal : target ∈ (some target).toList ++ next.toList :=
              List.mem_append_left _ (List.mem_singleton_self target)
            exact goes target isGoal _
      · rw [if_neg taken, if_neg taken]
        exact toNext _

section Runs

variable {semantics : Semantics Operands State} {code : Code (n + 1) Operands}
  {inside : Fin (n + 1) → Prop}

/-- The instructions that are marked, in their order. -/
def marked (code : Code n Operands) : List (Fin n) :=
  (List.finRange n).filter fun place => (code place).reach

theorem mem_marked {code : Code n Operands} {place : Fin n} :
    place ∈ marked code ↔ (code place).reach = true := by
  simp [marked]

/-- The list that `reach` leaves starts with the entry. -/
theorem marked_eq (isReached : (code 0).reach = true) :
    0 :: (List.finRange (n + 1)).tail.filter (fun place => (code place).reach) = marked code := by
  rw [marked, List.finRange_succ, List.tail_cons,
    List.filter_cons_of_pos (p := fun place => (code place).reach) isReached]

/-- A marked instruction with the instructions on both sides of it. -/
theorem marked_split {code : Code n Operands} {place : Fin n}
    (isReached : (code place).reach = true) :
    ∃ before after, marked code = before ++ place :: after ∧ place ∉ before ∧
      (∀ other ∈ after, place < other) ∧
      ∀ other, (code other).reach = true → place < other → other ∈ after := by
  have sorted : (marked code).Pairwise (· < ·) := (List.pairwise_lt_finRange n).filter _
  obtain ⟨before, after, split⟩ := List.append_of_mem (mem_marked.mpr isReached)
  rw [split, List.pairwise_append] at sorted
  obtain ⟨-, tail, cross⟩ := sorted
  have later := (List.pairwise_cons.mp tail).1
  refine ⟨before, after, split, fun member => ?_, later, fun other otherReached isLater => ?_⟩
  · exact absurd (cross place member place List.mem_cons_self) (lt_irrefl place)
  · have member := mem_marked.mpr otherReached
    rw [split, List.mem_append, List.mem_cons] at member
    rcases member with isBefore | rfl | isAfter
    · exact absurd (cross other isBefore place List.mem_cons_self) isLater.asymm
    · exact absurd isLater (lt_irrefl _)
    · exact isAfter

/-- The numbers of marked instructions. -/
def pcOf (code : Code n Operands) : Fin n → ℕ :=
  (numbers code (marked code) 0).1

/-- How many numbers an instruction takes. -/
def Inst.size (inst : Inst Ref Operands) : ℕ :=
  if inst.op = .noop then 0 else 1

theorem pcOf_spec {code : Code n Operands} {place : Fin n}
    (isReached : (code place).reach = true) :
    ((code place).op ≠ .noop →
        (disinst code (pcOf code) (marked code))[pcOf code place]? =
          some ((code place).resolve (pcOf code))) ∧
      (∀ succ, next place = some succ → (code succ).reach = true →
        pcOf code succ = pcOf code place + (code place).size) ∧
      (next place = none → written code (marked code) = pcOf code place + (code place).size) := by
  obtain ⟨before, after, split, apart, later, isAfter⟩ := marked_split isReached
  have number : pcOf code place = written code before := by
    rw [pcOf, split, numbers_number apart, Nat.zero_add]
  have count : written code (before ++ [place]) = pcOf code place + (code place).size := by
    rw [number, Inst.size]
    by_cases isNoop : (code place).op = .noop <;> simp [written, isNoop]
  refine ⟨fun isReal => ?_, fun succ isNext succReached => ?_, fun isLast => ?_⟩
  · rw [number, split]
    exact disinst_number _ isReal
  · -- Nothing lies between an instruction and the one after it.
    unfold next at isNext
    split_ifs at isNext with within
    cases isNext
    have member := isAfter _ succReached (Fin.lt_def.mpr (Nat.lt_succ_self _))
    cases after with
    | nil => cases member
    | cons first after =>
        have isFirst : first = ⟨place.val + 1, within⟩ := by
          have above := later first List.mem_cons_self
          have sorted : (marked code).Pairwise (· < ·) := (List.pairwise_lt_finRange n).filter _
          rw [split, List.pairwise_append] at sorted
          have rest := (List.pairwise_cons.mp (List.pairwise_cons.mp sorted.2.1).2).1
          rcases List.mem_cons.mp member with same | isLater
          · exact same.symm
          · have below := rest _ isLater
            rw [Fin.lt_def] at above below
            dsimp only at below
            omega
        have apartFirst : first ∉ before ++ [place] := by
          have nodup : (marked code).Nodup := (List.nodup_finRange n).filter _
          rw [split, ← List.singleton_append, ← List.append_assoc, List.nodup_append] at nodup
          intro isBefore
          exact nodup.2.2 first isBefore first List.mem_cons_self rfl
        rw [← isFirst, ← count, pcOf, split, ← List.singleton_append, ← List.append_assoc,
          numbers_number apartFirst, Nat.zero_add]
  · have isEmpty : after = [] := by
      rw [List.eq_nil_iff_forall_not_mem]
      intro other member
      have above := later other member
      unfold next at isLast
      split_ifs at isLast with within
      rw [Fin.lt_def] at above
      omega
    rw [split, isEmpty, count]

/-- Marked instructions that runs do not leave. -/
structure Closed (code : Code n Operands) (inside : Fin n → Prop) : Prop where
  stays : Stays code inside
  reached : ∀ place, inside place → (code place).reach = true

/-- A place and its number, or both at the end. -/
inductive AtNumber (code : Code n Operands) (inside : Fin n → Prop) :
    Option (Fin n) × State → Option ℕ × State → Prop where
  | at (place : Fin n) (state : State) (isInside : inside place) :
      AtNumber code inside (some place, state) (some (pcOf code place), state)
  | done (state : State) : AtNumber code inside (none, state) (none, state)
  | past (state : State) :
      AtNumber code inside (none, state) (some (written code (marked code)), state)

variable {code : Code n Operands} {inside : Fin n → Prop}

/-- After an instruction comes the one with the number after its own. -/
theorem Closed.atNext (closed : Closed code inside) {place : Fin n} (isInside : inside place)
    (falls : ∀ succ ∈ next place, succ ∈ (code place).succs (next place)) (state : State) :
    AtNumber code inside (next place, state)
      (some (pcOf code place + (code place).size), state) := by
  have spec := pcOf_spec (closed.reached place isInside)
  cases isNext : next place with
  | none =>
      rw [← spec.2.2 isNext]
      exact .past state
  | some succ =>
      have succInside := closed.stays place isInside succ (falls succ isNext)
      rw [← spec.2.1 succ isNext (closed.reached succ succInside)]
      exact .at succ state succInside

/-- The move of an instruction that is written. -/
theorem Closed.matches_real (closed : Closed code inside) {place : Fin n}
    (isInside : inside place) (isReal : (code place).op ≠ .noop) (state : State) :
    Matches (AtNumber code inside) (run semantics next code (some place, state))
      (execute semantics (disinst code (pcOf code) (marked code))
        (some (pcOf code place), state)) := by
  have spec := pcOf_spec (closed.reached place isInside)
  have size : (code place).size = 1 := if_neg isReal
  simp only [run, execute, spec.1 isReal]
  refine matches_resolve AtNumber.done (fun succ isSucc state => ?_) (fun falls state => ?_) state
  · exact .at succ state (closed.stays place isInside succ isSucc)
  · rw [← size]
    exact closed.atNext isInside falls state

/-- Markers are left silently for the instruction that has their number. -/
theorem Closed.settles (closed : Closed code inside) {place : Fin n} (isInside : inside place)
    (state : State) :
    ∃ middle, Quiet (run semantics next code) (some place, state) (middle, state) ∧
      ((middle = none ∧ pcOf code place = written code (marked code)) ∨
        ∃ other, middle = some other ∧ inside other ∧ (code other).op ≠ .noop ∧
          pcOf code other = pcOf code place) := by
  by_cases isNoop : (code place).op = .noop
  · have spec := pcOf_spec (closed.reached place isInside)
    have size : (code place).size = 0 := if_pos isNoop
    have moved : run semantics next code (some place, state) = .silent (next place, state) := by
      simp only [run, Inst.move, isNoop]
    cases isNext : next place with
    | none =>
        rw [isNext] at moved
        exact ⟨none, .single moved, .inl ⟨rfl, by rw [spec.2.2 isNext, size, Nat.add_zero]⟩⟩
    | some succ =>
        have isSucc : succ ∈ (code place).succs (next place) := by
          rw [Inst.succs, isNoop, isNext]
          exact List.mem_singleton_self succ
        have succInside := closed.stays place isInside succ isSucc
        have number : pcOf code succ = pcOf code place := by
          rw [spec.2.1 succ isNext (closed.reached succ succInside), size, Nat.add_zero]
        have closer : n - succ.val < n - place.val := by
          unfold next at isNext
          split_ifs at isNext with within
          cases isNext
          dsimp only
          omega
        obtain ⟨middle, quiet, settled⟩ := closed.settles succInside state
        rw [isNext] at moved
        rw [number] at settled
        exact ⟨middle, (Quiet.single moved).trans quiet, settled⟩
  · exact ⟨some place, .refl _, .inr ⟨place, rfl, isInside, isNoop, rfl⟩⟩
termination_by n - place.val

theorem execute_past (state : State) :
    execute semantics (disinst code (pcOf code) (marked code))
      (some (written code (marked code)), state) = .halt := by
  have outside : (disinst code (pcOf code) (marked code))[written code (marked code)]? = none := by
    rw [List.getElem?_eq_none_iff, length_disinst]
  simp only [execute, outside]

/-- The numbered instructions show what the marked ones show. -/
theorem Closed.shows_iff (closed : Closed code inside) {place : Fin n} (isInside : inside place)
    (state : State) (events : List (Event Operands State)) :
    Shows (run semantics next code) (some place, state) events ↔
      Shows (execute semantics (disinst code (pcOf code) (marked code)))
        (some (pcOf code place), state) events := by
  have forward : Simulates (run semantics next code)
      (execute semantics (disinst code (pcOf code) (marked code))) (AtNumber code inside) := by
    apply Simulates.of_matches
    rintro _ _ (⟨place, state, isInside⟩ | state | state)
    · by_cases isNoop : (code place).op = .noop
      · refine .inr ⟨(next place, state), by simp only [run, Inst.move, isNoop], ?_⟩
        have falls : ∀ succ ∈ next place, succ ∈ (code place).succs (next place) := by
          intro succ isSucc
          rw [Inst.succs, isNoop]
          exact Option.mem_toList.mpr isSucc
        have atNext := closed.atNext isInside falls state
        rwa [Inst.size, if_pos isNoop, Nat.add_zero] at atNext
      · exact .inl ⟨_, .refl _, closed.matches_real isInside isNoop state⟩
    · exact .inl ⟨_, .refl _, .halt⟩
    · refine .inl ⟨_, .refl _, ?_⟩
      rw [execute_past]
      exact .halt
  have backward : Simulates (execute semantics (disinst code (pcOf code) (marked code)))
      (run semantics next code) fun other config => AtNumber code inside config other := by
    apply Simulates.of_matches
    rintro _ _ (⟨place, state, isInside⟩ | state | state)
    · refine .inl ?_
      obtain ⟨middle, quiet, ⟨rfl, isPast⟩ | ⟨other, rfl, otherInside, isReal, number⟩⟩ :=
        @Closed.settles _ _ _ semantics code inside closed place isInside state
      · refine ⟨_, quiet, ?_⟩
        rw [isPast, execute_past]
        exact .halt
      · refine ⟨_, quiet, ?_⟩
        rw [← number]
        exact (closed.matches_real otherInside isReal state).symm
    · exact .inl ⟨_, .refl _, .halt⟩
    · refine .inl ⟨_, .refl _, ?_⟩
      rw [execute_past]
      exact .halt
  exact forward.shows_iff backward (.at place state isInside) events

end Runs

/-- What is folded from its first instruction on, marked and numbered. -/
theorem reach_spec {fuel : ℕ} {code after : Code (n + 1) Operands}
    {places : List (Fin (n + 1))} (isReach : reach fuel code = some (after, places)) :
    foldbranch fuel code (some 0) = some after ∧ places = marked after ∧
      (after 0).reach = true := by
  obtain ⟨_, isFolded, isResult⟩ := Option.bind_eq_some_iff.mp isReach
  cases isResult
  have folds := folds_of_foldbranch isFolded (.nil after)
  have closes := folds.closes (fun place _ (isExc : (code place).op = .exc) => isExc)
  have isReached : (after 0).reach = true := closes.reached 0 List.mem_cons_self
  exact ⟨isFolded, marked_eq isReached, isReached⟩

section Written

variable {semantics : Semantics Operands State} {fuel : ℕ} {code after : Code (n + 1) Operands}
  {places : List (Fin (n + 1))}

/-- The instructions that are written show what the function shows, in every run from a marked
instruction that does not fall into the marker of a handler. -/
theorem reach_shows_iff (isReach : reach fuel code = some (after, places))
    (fresh : ∀ place, (code place).reach = false) {entry : Fin (n + 1)}
    (isMarked : (after entry).reach = true)
    (apart : ∀ place, Comes code entry place → (code place).op ≠ .exc) (state : State)
    (events : List (Event Operands State)) :
    Shows (run semantics next code) (some entry, state) events ↔
      Shows (execute semantics (disinst after (numbers after places 0).1 places))
        (some ((numbers after places 0).1 entry), state) events := by
  obtain ⟨isFolded, rfl, -⟩ := reach_spec isReach
  have folds := folds_of_foldbranch isFolded (.nil after)
  have closes := folds.closes (fun place _ (isExc : (code place).op = .exc) => isExc)
  have stays := folds.edits.stays (stays_comes code entry)
  have closed : Closed after fun place => Comes code entry place ∧ (after place).reach = true := by
    refine ⟨fun place isInside succ isSucc => ?_, fun place isInside => isInside.2⟩
    refine ⟨stays place isInside.1 succ isSucc, ?_⟩
    rcases closes.closed place (fresh place) isInside.2 with ⟨isExc, -⟩ | closed
    · exact absurd isExc (apart place isInside.1)
    · rcases closed succ isSucc with isReached | ⟨holder, isReached, -⟩
      · exact isReached
      · rw [fresh holder] at isReached
        cases isReached
  rw [foldbranch_shows_iff isFolded]
  exact closed.shows_iff ⟨.refl, isMarked⟩ state events

/-- The function begins with the first instruction that is written, and no marker is written. -/
theorem reach_written (isReach : reach fuel code = some (after, places))
    (fresh : ∀ place, (code place).reach = false) :
    (numbers after places 0).1 0 = 0 ∧
      ∀ inst ∈ disinst after (numbers after places 0).1 places,
        inst.op ≠ .noop ∧ inst.op ≠ .exc ∧ inst.op ≠ .exc0 := by
  obtain ⟨isFolded, rfl, isReached⟩ := reach_spec isReach
  have folds := folds_of_foldbranch isFolded (.nil after)
  constructor
  · rw [← marked_eq isReached]
    exact @numbers_number _ _ after 0 [] _ List.not_mem_nil 0
  · intro inst member
    obtain ⟨place, isPlace, isInst⟩ := List.mem_filterMap.mp member
    split_ifs at isInst with isNoop
    cases isInst
    exact ⟨isNoop, folds.noMarkers place (fresh place) (mem_marked.mp isPlace)⟩

end Written

/-- The chain of jumps from a target ends: at an instruction that is no jump, at a jump to
itself or at the instruction whose branch is shortened. -/
inductive Lands (code : Code n Operands) (place : Fin n) : Fin n → Prop where
  | stop {target : Fin n} (isStop : (code target).op ≠ .jmp) : Lands code place target
  | home : Lands code place place
  | itself {target : Fin n} (branch : (code target).branch = some target) :
      Lands code place target
  | jump {target beyond : Fin n} (branch : (code target).branch = some beyond)
      (rest : Lands code place beyond) : Lands code place target

/-- The chain of jumps does not end exactly if it goes on to other jumps for ever, and so comes to
one of them again. -/
theorem not_lands_iff {code : Code n Operands} {place target : Fin n}
    (hasBranch : ∀ other, (code other).op = .jmp → ∃ onward, (code other).branch = some onward) :
    ¬ Lands code place target ↔ ∃ chain : ℕ → Fin n, chain 0 = target ∧
      (∀ i, (code (chain i)).op = .jmp ∧ (code (chain i)).branch = some (chain (i + 1)) ∧
        chain i ≠ place ∧ chain (i + 1) ≠ chain i) ∧ ∃ i j, i < j ∧ chain i = chain j := by
  constructor
  · intro never
    let onward : Fin n → Fin n := fun other => ((code other).branch).getD other
    have turn : ∀ other, ¬ Lands code place other → (code other).op = .jmp ∧
        (code other).branch = some (onward other) ∧ other ≠ place ∧ onward other ≠ other ∧
          ¬ Lands code place (onward other) := by
      intro other goesOn
      have isJump : (code other).op = .jmp := by
        by_contra isStop
        exact goesOn (.stop isStop)
      obtain ⟨beyond, branch⟩ := hasBranch other isJump
      have isOnward : onward other = beyond := by
        dsimp only [onward]
        rw [branch, Option.getD_some]
      rw [isOnward]
      refine ⟨isJump, branch, ?_, ?_, fun lands => goesOn (.jump branch lands)⟩
      · rintro rfl
        exact goesOn .home
      · rintro rfl
        exact goesOn (.itself branch)
    have chain : ∀ i, ¬ Lands code place (onward^[i] target) := by
      intro i
      induction i with
      | zero => exact never
      | succ i ih =>
          rw [Function.iterate_succ_apply']
          exact (turn _ ih).2.2.2.2
    refine ⟨fun i => onward^[i] target, rfl, fun i => ?_, ?_⟩
    · obtain ⟨isJump, branch, notHome, apart, -⟩ := turn _ (chain i)
      dsimp only
      rw [Function.iterate_succ_apply']
      exact ⟨isJump, branch, notHome, apart⟩
    · obtain ⟨i, j, different, same⟩ :=
        Finite.exists_ne_map_eq_of_infinite fun i : ℕ => onward^[i] target
      rcases Nat.lt_or_gt_of_ne different with less | greater
      · exact ⟨i, j, less, same⟩
      · exact ⟨j, i, greater, same.symm⟩
  · rintro ⟨chain, rfl, jumps, -⟩ lands
    have never : ∀ {other : Fin n}, Lands code place other → ∀ i, chain i ≠ other := by
      intro other lands
      induction lands with
      | stop isStop =>
          rintro i rfl
          exact isStop (jumps i).1
      | home => exact fun i => (jumps i).2.2.1
      | itself branch =>
          rintro i rfl
          rw [(jumps i).2.1] at branch
          exact (jumps i).2.2.2 (Option.some.inj branch)
      | jump branch _ ih =>
          rintro i rfl
          rw [(jumps i).2.1] at branch
          exact ih (i + 1) (Option.some.inj branch)
    exact never lands 0 rfl

/-- The loop on branches returns exactly if there is no branch or the chain of jumps from its
target ends. -/
theorem shorten_returns_iff {code : Code n Operands} {place : Fin n} :
    (∃ fuel after, shorten fuel code place = some after) ↔
      ∀ target ∈ (code place).branch, Lands code place target := by
  constructor
  · rintro ⟨fuel, after, shortened⟩
    have lands : ∀ (steps : ℕ) {short : Code n Operands},
        (∀ other, other ≠ place → short other = code other) →
          shorten steps short place = some after →
            ∀ target ∈ (short place).branch, Lands code place target := by
      intro steps
      induction steps with
      | zero => exact fun _ shortened => nomatch shortened
      | succ steps ih =>
          intro short same shortened target isTarget
          by_cases isHome : target = place
          · subst isHome
            exact .home
          have isSame := same target isHome
          unfold shorten at shortened
          rw [Option.mem_def.mp isTarget] at shortened
          dsimp only at shortened
          rw [isSame] at shortened
          split_ifs at shortened with jump stays
          · rcases stays with isPlace | isItself
            · exact absurd isPlace.symm isHome
            · exact .itself isItself
          · cases onward : (code target).branch with
            | none =>
                rw [onward] at shortened
                cases shortened
            | some beyond =>
                rw [onward] at shortened
                refine .jump onward (ih (fun other apart => ?_) shortened beyond ?_)
                · rw [Code.setBranch, Function.update_of_ne apart, same other apart]
                · rw [Code.setBranch, Function.update_self]
                  rfl
          · exact .stop jump
    exact lands fuel (fun _ _ => rfl) shortened
  · intro lands
    cases isTarget : (code place).branch with
    | none =>
        refine ⟨1, code, ?_⟩
        rw [shorten, isTarget]
    | some target =>
        have returns : ∀ {target : Fin n}, Lands code place target →
            ∀ {short : Code n Operands}, (∀ other, other ≠ place → short other = code other) →
              (short place).branch = some target →
                ∃ fuel after, shorten fuel short place = some after := by
          intro target isLanding
          induction isLanding with
          | @stop target isStop =>
              intro short same isTarget
              by_cases isHome : target = place
              · subst isHome
                exact ⟨1, short, by rw [shorten, isTarget]; simp⟩
              · exact ⟨1, short, by rw [shorten, isTarget]; simp [same target isHome, isStop]⟩
          | home =>
              intro short _ isTarget
              exact ⟨1, short, by rw [shorten, isTarget]; simp⟩
          | @itself target branch =>
              intro short same isTarget
              by_cases isHome : target = place
              · subst isHome
                exact ⟨1, short, by rw [shorten, isTarget]; simp⟩
              · exact ⟨1, short, by rw [shorten, isTarget]; simp [same target isHome, branch]⟩
          | @jump target beyond branch _ ih =>
              intro short same isTarget
              by_cases isHome : target = place
              · subst isHome
                exact ⟨1, short, by rw [shorten, isTarget]; simp⟩
              · have isSame := same target isHome
                by_cases isStop : (code target).op = .jmp ∧ beyond ≠ target
                · obtain ⟨fuel, after, shortened⟩ := @ih (short.setBranch place (some beyond))
                    (fun other apart => by
                      rw [Code.setBranch, Function.update_of_ne apart, same other apart])
                    (by rw [Code.setBranch, Function.update_self])
                  refine ⟨fuel + 1, after, ?_⟩
                  rw [shorten, isTarget]
                  simp [isSame, isStop.1, Ne.symm isHome, branch, isStop.2, shortened]
                · rw [not_and_or, not_not] at isStop
                  refine ⟨1, short, ?_⟩
                  rw [shorten, isTarget]
                  rcases isStop with isStop | rfl
                  · simp [isSame, isStop]
                  · simp [isSame, branch]
        exact returns (lands target isTarget) (fun _ _ => rfl) isTarget

/-- Every jump has a target, and a chain of jumps descends or stays where it is. -/
def Descends (code : Code n Operands) (rank : Fin n → ℕ) : Prop :=
  ∀ place, (code place).op = .jmp → ∃ target, (code place).branch = some target ∧
    (target = place ∨ rank target < rank place)

theorem Edit.descends {code after : Code n Operands} {rank : Fin n → ℕ} (edit : Edit code after)
    (descends : Descends code rank) : Descends after rank := by
  cases edit with
  | mark place =>
      intro other isJump
      by_cases same : other = place
      · subst same
        rw [Code.mark, Function.update_self] at isJump ⊢
        exact descends other isJump
      · rw [Code.mark, Function.update_of_ne same] at isJump ⊢
        exact descends other isJump
  | @shorten place target beyond branch jump apart onward =>
      intro other isJump
      by_cases same : other = place
      · subst same
        rw [Code.setBranch, Function.update_self] at isJump ⊢
        refine ⟨beyond, rfl, ?_⟩
        obtain ⟨first, isFirst, lower⟩ := descends other isJump
        obtain ⟨second, isSecond, lowest⟩ := descends target jump
        cases branch.symm.trans isFirst
        cases onward.symm.trans isSecond
        rcases lower with rfl | lower
        · exact absurd rfl apart
        rcases lowest with rfl | lowest
        · exact .inr lower
        · exact .inr (lowest.trans lower)
      · rw [Code.setBranch, Function.update_of_ne same] at isJump ⊢
        exact descends other isJump
  | @copy place target jump branch copied =>
      intro other isJump
      by_cases same : other = place
      · subst same
        rw [Code.copy, Function.update_self] at isJump
        rw [isJump] at copied
        cases copied
      · rw [Code.copy, Function.update_of_ne same] at isJump ⊢
        exact descends other isJump
  | @marker place isMarker =>
      intro other isJump
      by_cases same : other = place
      · subst same
        rw [Code.setOp, Function.update_self] at isJump
        cases isJump
      · rw [Code.setOp, Function.update_of_ne same] at isJump ⊢
        exact descends other isJump

theorem Edits.descends {code after : Code n Operands} {rank : Fin n → ℕ} (edits : Edits code after)
    (descends : Descends code rank) : Descends after rank := by
  induction edits with
  | refl => exact descends
  | tail _ edit ih => exact edit.descends ih

/-- The loop on branches needs no more turns than the rank of the target. -/
theorem shorten_returns {code : Code n Operands} {rank : Fin n → ℕ}
    (descends : Descends code rank) {place : Fin n} {fuel : ℕ}
    (enough : ∀ target ∈ (code place).branch, rank target < fuel) (positive : 0 < fuel) :
    ∃ after, shorten fuel code place = some after := by
  induction fuel generalizing code with
  | zero => exact absurd positive (lt_irrefl 0)
  | succ fuel ih =>
      unfold shorten
      cases isTarget : (code place).branch with
      | none => exact ⟨code, rfl⟩
      | some target =>
          dsimp only
          by_cases jump : (code target).op = .jmp
          · rw [if_pos jump]
            by_cases stays : place = target ∨ (code target).branch = some target
            · exact ⟨code, if_pos stays⟩
            · rw [if_neg stays]
              rw [not_or] at stays
              obtain ⟨beyond, onward, lower⟩ := descends target jump
              rw [onward]
              have isLower : rank beyond < rank target := by
                rcases lower with rfl | lower
                · exact absurd onward stays.2
                · exact lower
              have bound := enough target isTarget
              have still := Edit.descends (.shorten isTarget jump stays.1 onward) descends
              refine ih still ?_ (by omega)
              intro other isOther
              rw [Code.setBranch, Function.update_self] at isOther
              cases isOther
              omega
          · exact ⟨code, if_neg jump⟩

/-- What is left to do at an instruction: a jump may become a copy first. -/
def Inst.weight (inst : Inst Ref Operands) : ℕ :=
  if inst.reach then 0 else if inst.op = .jmp then 2 else 1

def remaining (code : Code n Operands) : ℕ :=
  ∑ place, (code place).weight

/-- What stays unmarked stays as it is. -/
theorem Folds.unmarked {code after : Code n Operands} {places : List (Fin n)}
    (folds : Folds code places after) :
    ∀ other, (after other).reach = false → after other = code other := by
  have turn : ∀ {code short after : Code n Operands} {place : Fin n},
      Begins code place short → Keeps short after →
      (∀ other, (after other).reach = false → after other = short other) →
      ∀ other, (after other).reach = false → after other = code other := by
    intro code short after place begins keeps rest other unreached
    have apart : other ≠ place := by
      rintro rfl
      rw [keeps.reach begins.reach] at unreached
      cases unreached
    rw [rest other unreached, begins.other apart]
  have marker : ∀ {code short middle after : Code n Operands} {place : Fin n},
      Begins code place short → Keeps short middle → Keeps (middle.setOp place .noop) after →
      (∀ other, (middle other).reach = false → middle other = short other) →
      (∀ other, (after other).reach = false → after other = (middle.setOp place .noop) other) →
      ∀ other, (after other).reach = false → after other = code other := by
    intro code short middle after place begins first second labs rest other unreached
    have apart : other ≠ place := by
      rintro rfl
      have isReached : ((middle.setOp other .noop) other).reach = true := by
        rw [Code.setOp, Function.update_self]
        exact first.reach begins.reach
      rw [second.reach isReached] at unreached
      cases unreached
    have isSame := rest other unreached
    rw [Code.setOp, Function.update_of_ne apart] at isSame
    rw [isSame, labs other (by rw [← isSame, unreached]), begins.other apart]
  induction folds with
  | nil => exact fun _ _ => rfl
  | reached _ _ ih => exact ih
  | stop begins _ rest ih => exact turn begins rest.keeps ih
  | labels begins _ rest ih => exact turn begins rest.keeps ih
  | exc begins _ labs rest labsIh ih => exact marker begins labs.keeps rest.keeps labsIh ih
  | exc0 begins _ branch rest branchIh ih =>
      exact marker begins branch.keeps rest.keeps branchIh ih
  | @copy code short after place target places begins _ _ _ rest ih =>
      intro other unreached
      have apart : other ≠ place := by
        rintro rfl
        have closes : Closes (fun _ => True) (short.copy other target) (other :: places) after :=
          rest.closes fun _ _ _ => trivial
        rw [closes.reached other List.mem_cons_self] at unreached
        cases unreached
      rw [ih other unreached, Code.copy, Function.update_of_ne apart, begins.other apart]
  | jump begins _ _ rest ih => exact turn begins rest.keeps ih
  | other begins _ rest ih => exact turn begins rest.keeps ih

theorem Folds.remaining_le {code after : Code n Operands} {places : List (Fin n)}
    (folds : Folds code places after) : remaining after ≤ remaining code := by
  apply Finset.sum_le_sum
  intro place _
  cases isReached : (after place).reach with
  | true => simp [Inst.weight, isReached]
  | false => rw [folds.unmarked place isReached]

/-- A turn at an instruction leaves less to do, even if that is unmarked again as a copy. -/
theorem remaining_lt {code after : Code n Operands} {place : Fin n}
    (others : ∀ other, other ≠ place → after other = code other)
    (less : (after place).weight < (code place).weight) : remaining after < remaining code := by
  refine Finset.sum_lt_sum (fun other _ => ?_) ⟨place, Finset.mem_univ place, less⟩
  by_cases same : other = place
  · subst same
    exact less.le
  · rw [others other same]

theorem remaining_setOp {code : Code n Operands} {place : Fin n} (op : Op)
    (isReached : (code place).reach = true) :
    remaining (code.setOp place op) ≤ remaining code := by
  apply Finset.sum_le_sum
  intro other _
  by_cases same : other = place
  · subst same
    rw [Code.setOp, Function.update_self]
    simp [Inst.weight, isReached]
  · rw [Code.setOp, Function.update_of_ne same]

/-- `foldbranch` returns if no jumps run in a circle. -/
theorem foldbranch_returns {rank : Fin n → ℕ} {bound : ℕ} (ranks : ∀ place, rank place < bound)
    {fuel : ℕ} {code : Code n Operands} (descends : Descends code rank)
    (enough : remaining code + bound < fuel) (place : Option (Fin n)) :
    ∃ after, foldbranch fuel code place = some after := by
  induction fuel generalizing code place with
  | zero => exact absurd enough (Nat.not_lt_zero _)
  | succ fuel ih =>
      cases place with
      | none => exact ⟨code, rfl⟩
      | some place =>
          unfold foldbranch
          by_cases isReached : (code place).reach = true
          · exact ⟨code, if_pos isReached⟩
          rw [if_neg isReached]
          have unreached : (code place).reach = false := by simpa using isReached
          have marked : Descends (code.mark place) rank := Edit.descends (.mark place) descends
          obtain ⟨short, isShort⟩ : ∃ short, shorten fuel (code.mark place) place = some short := by
            have above := ranks place
            refine shorten_returns marked (fun target _ => ?_) (by omega)
            have isBelow := ranks target
            omega
          have begins : Begins code place short := ⟨unreached, fuel, isShort⟩
          have shortDescends := begins.edits.descends descends
          have less : remaining short < remaining code := by
            refine remaining_lt (fun other apart => begins.other apart) ?_
            have none : (short place).weight = 0 := if_pos begins.reach
            have positive : 0 < (code place).weight := by
              unfold Inst.weight
              rw [if_neg isReached]
              split_ifs <;> omega
            omega
          have labels : ∀ (labs : List (Fin n)) {code : Code n Operands}, Descends code rank →
              remaining code + bound < fuel →
                ∃ after, labs.foldlM (fun code lab => foldbranch fuel code (some lab)) code =
                  some after := by
            intro labs
            induction labs with
            | nil => exact fun _ _ => ⟨_, rfl⟩
            | cons lab labs labsIh =>
                intro code isDescending isEnough
                obtain ⟨middle, isMiddle⟩ := ih isDescending isEnough (some lab)
                have folds := folds_of_foldbranch isMiddle (.nil middle)
                have fewer := folds.remaining_le
                obtain ⟨after, isAfter⟩ :=
                  labsIh (folds.edits.descends isDescending) (by omega)
                exact ⟨after, by rw [List.foldlM_cons, isMiddle]; exact isAfter⟩
          have both : ∃ after, ((foldbranch fuel short (short place).branch).bind fun code =>
              foldbranch fuel code (next place)) = some after := by
            obtain ⟨middle, isMiddle⟩ := ih shortDescends (by omega) (short place).branch
            have folds := folds_of_foldbranch isMiddle (.nil middle)
            have fewer := folds.remaining_le
            obtain ⟨after, isAfter⟩ :=
              ih (folds.edits.descends shortDescends) (by omega) (next place)
            exact ⟨after, by rw [isMiddle]; exact isAfter⟩
          rw [isShort]
          simp only [Option.bind_eq_bind, Option.bind_some]
          split
          · exact labels _ shortDescends (by omega)
          · exact labels _ shortDescends (by omega)
          · exact labels _ shortDescends (by omega)
          · exact labels _ shortDescends (by omega)
          · obtain ⟨middle, isMiddle⟩ := labels _ shortDescends (by omega)
            exact ⟨middle.setOp place .noop, by rw [isMiddle]; rfl⟩
          · rename_i isExc
            obtain ⟨middle, isMiddle⟩ := ih shortDescends (by omega) (short place).branch
            have folds := folds_of_foldbranch isMiddle (.nil middle)
            have isSame := folds.keeps place begins.reach
            have fewer := folds.remaining_le
            have noMore : remaining (middle.setOp place .noop) ≤ remaining middle :=
              remaining_setOp .noop (by rw [isSame, begins.reach])
            have isMarker : (middle place).op = .exc0 := by rw [isSame, isExc]
            have before := folds.edits.descends shortDescends
            have still := Edit.descends (.marker (.inr isMarker)) before
            obtain ⟨after, isAfter⟩ := ih still (by omega) (next place)
            exact ⟨after, by rw [isMiddle]; exact isAfter⟩
          · exact ⟨short, rfl⟩
          · exact ⟨short, rfl⟩
          · exact ⟨short, rfl⟩
          · rename_i isJump
            obtain ⟨target, branch, -⟩ := shortDescends place isJump
            rw [branch]
            dsimp only
            by_cases copied : (short target).op.copied = true
            · rw [if_pos copied]
              have wasJump : (code place).op = .jmp := by rw [← begins.op, isJump]
              have fewer : remaining (short.copy place target) < remaining code := by
                refine @remaining_lt _ _ code _ place (fun other apart => ?_) ?_
                · rw [Code.copy, Function.update_of_ne apart, begins.other apart]
                · rw [Code.copy, Function.update_self]
                  have wasTwo : (code place).weight = 2 := by
                    rw [Inst.weight, if_neg isReached, if_pos wasJump]
                  have isOne : (short target).weight ≤ 1 := by
                    have notJump : (short target).op ≠ .jmp := by
                      intro isJump
                      rw [isJump] at copied
                      cases copied
                    unfold Inst.weight
                    split_ifs <;> omega
                  omega
              exact ih (Edit.descends (.copy isJump branch copied) shortDescends) (by omega) _
            · rw [if_neg copied]
              exact ih shortDescends (by omega) _
          · exact both
          · exact both

/-- What holds of all operands of a function holds of them after it has been folded. -/
theorem Edits.operands {holds : Operands → Prop} {code after : Code n Operands}
    (edits : Edits code after) (all : ∀ place, holds (code place).operands) :
    ∀ place, holds (after place).operands := by
  induction edits with
  | refl => exact all
  | @tail middle after _ edit ih =>
      intro other
      cases edit with
      | mark place =>
          by_cases same : other = place
          · subst same
            rw [Code.mark, Function.update_self]
            exact ih other
          · rw [Code.mark, Function.update_of_ne same]
            exact ih other
      | @shorten place =>
          by_cases same : other = place
          · subst same
            rw [Code.setBranch, Function.update_self]
            exact ih other
          · rw [Code.setBranch, Function.update_of_ne same]
            exact ih other
      | @copy place target =>
          by_cases same : other = place
          · subst same
            rw [Code.copy, Function.update_self]
            exact ih target
          · rw [Code.copy, Function.update_of_ne same]
            exact ih other
      | @marker place =>
          by_cases same : other = place
          · subst same
            rw [Code.setOp, Function.update_self]
            exact ih other
          · rw [Code.setOp, Function.update_of_ne same]
            exact ih other

/-- A branch to a jump to a return, and a jump that is not reached. -/
def branchOver : Code 5 Unit := fun place =>
  match place.val with
  | 0 => ⟨.other 1, (), some 3, ⟨none, []⟩, false⟩
  | 1 => ⟨.other 2, (), none, ⟨none, []⟩, false⟩
  | 2 => ⟨.ret, (), none, ⟨none, []⟩, false⟩
  | 3 => ⟨.jmp, (), some 2, ⟨none, []⟩, false⟩
  | _ => ⟨.jmp, (), some 0, ⟨none, []⟩, false⟩

end Disvm.BranchFolding
