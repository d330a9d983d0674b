import Mathlib.Data.Fin.Basic
import Mathlib.Data.List.FinRange
import Mathlib.Logic.Function.Basic
import Disvm.VisibleRuns

/-!
# Branch folding

The compiler follows all paths through the instructions of a function.  It
marks what is reached, lets branches to jumps go where the jumps go, and puts
copies of returns and of case instructions in the place of jumps to them.
What is not reached is dropped.
-/

namespace Disvm.BranchFolding

open VisibleRuns

/-- The instructions that `foldbranch` tells apart. -/
inductive Op where
  | jmp
  | goto
  | case
  | casel
  | casec
  | exc
  | exc0
  | noop
  | ret
  | exit
  | raise
  | other (op : UInt8)
  deriving DecidableEq

/-- `ICASE`, `ICASEL`, `ICASEC`, `IRET` and `IEXIT`, of which a jump becomes a copy. -/
def Op.copied : Op → Bool
  | .case | .casel | .casec | .ret | .exit => true
  | _ => false

/-- The instructions of the labels of a `Case`. -/
structure Case (Ref : Type) where
  iwild : Option Ref
  labs : List Ref
  deriving DecidableEq

/-- An instruction with references to others. -/
structure Inst (Ref Operands : Type) where
  op : Op
  operands : Operands
  branch : Option Ref
  /-- `d.decl.ty.cse`. -/
  cse : Case Ref
  reach : Bool
  deriving DecidableEq

/-- The instructions of a function in the order of their list; references are positions. -/
abbrev Code (n : ℕ) (Operands : Type) := Fin n → Inst (Fin n) Operands

variable {n : ℕ} {Ref Operands : Type}

/-- `in.next`. -/
def next (place : Fin n) : Option (Fin n) :=
  if within : place.val + 1 < n then some ⟨place.val + 1, within⟩ else none

/-- All labels, the one for no match first. -/
def Case.insts (cse : Case Ref) : List Ref :=
  cse.iwild.toList ++ cse.labs

namespace Code

variable (code : Code n Operands)

def mark (place : Fin n) : Code n Operands :=
  Function.update code place { code place with reach := true }

def setBranch (place : Fin n) (branch : Option (Fin n)) : Code n Operands :=
  Function.update code place { code place with branch := branch }

def setOp (place : Fin n) (op : Op) : Code n Operands :=
  Function.update code place { code place with op := op }

/-- `*in = *b`, with the place in the list kept. -/
def copy (place target : Fin n) : Code n Operands :=
  Function.update code place (code target)

end Code

/-- The loop that lets a branch to a jump go where the jump goes. -/
def shorten : ℕ → Code n Operands → Fin n → Option (Code n Operands)
  | 0, _, _ => none
  | fuel + 1, code, place =>
      match (code place).branch with
      | none => some code
      | some target =>
          if (code target).op = .jmp then
            if place = target ∨ (code target).branch = some target then some code
            else
              match (code target).branch with
              | none => none
              | some beyond => shorten fuel (code.setBranch place (some beyond)) place
          else some code

/-- `foldbranch`.  A jump without a target is followed to nil. -/
def foldbranch : ℕ → Code n Operands → Option (Fin n) → Option (Code n Operands)
  | 0, _, _ => none
  | _ + 1, code, none => some code
  | fuel + 1, code, some place =>
      if (code place).reach then some code
      else do
        let code ← shorten fuel (code.mark place) place
        let inst := code place
        match inst.op with
        | .goto | .case | .casel | .casec =>
            inst.cse.insts.foldlM (fun code lab => foldbranch fuel code (some lab)) code
        | .exc => do
            let code ← inst.cse.insts.foldlM (fun code lab => foldbranch fuel code (some lab)) code
            return code.setOp place .noop
        | .exc0 => do
            let code ← foldbranch fuel code inst.branch
            foldbranch fuel (code.setOp place .noop) (next place)
        | .ret | .exit | .raise => some code
        | .jmp =>
            match inst.branch with
            | none => none
            | some target =>
                if (code target).op.copied then
                  foldbranch fuel (code.copy place target) (some place)
                else foldbranch fuel code (some target)
        | .noop | .other _ => do
            let code ← foldbranch fuel code inst.branch
            foldbranch fuel code (next place)

/-- What the instructions do to a state: whether a branch is taken, and which label is met. -/
structure Semantics (Operands State : Type) where
  exec : UInt8 → Operands → State → State × Bool
  select : Op → Operands → State → Option ℕ

/-- An instruction that is executed in a state. -/
structure Event (Operands State : Type) where
  op : Op
  operands : Operands
  state : State

variable {State : Type}

/-- Where a case instruction goes. -/
def Case.target (cse : Case Ref) (label : Option ℕ) : Option Ref :=
  (label.bind fun index => cse.labs[index]?).or cse.iwild

/-- The move of an instruction.  Jumps and markers are not seen. -/
def Inst.move (semantics : Semantics Operands State) (inst : Inst Ref Operands)
    (next : Option Ref) (state : State) :
    Move (Option Ref × State) (Event Operands State) :=
  match inst.op with
  | .jmp => .silent (inst.branch, state)
  | .exc | .exc0 | .noop => .silent (next, state)
  | .ret | .exit | .raise => .visible ⟨inst.op, inst.operands, state⟩ (none, state)
  | .goto | .case | .casel | .casec =>
      .visible ⟨inst.op, inst.operands, state⟩
        (inst.cse.target (semantics.select inst.op inst.operands state), state)
  | .other op =>
      let after := semantics.exec op inst.operands state
      .visible ⟨inst.op, inst.operands, state⟩
        (if after.2 then inst.branch.or next else next, after.1)

/-- The machine that executes the instructions, each of them followed by another one. -/
def run (semantics : Semantics Operands State) (follow : Fin n → Option (Fin n))
    (code : Code n Operands) : Machine (Option (Fin n) × State) (Event Operands State)
  | (none, _) => .halt
  | (some place, state) => (code place).move semantics (follow place) state

/-- What the compiler does to one instruction. -/
inductive Edit (code : Code n Operands) : Code n Operands → Prop where
  | mark (place : Fin n) : Edit code (code.mark place)
  | shorten {place target beyond : Fin n} (branch : (code place).branch = some target)
      (jump : (code target).op = .jmp) (apart : place ≠ target)
      (onward : (code target).branch = some beyond) :
      Edit code (code.setBranch place (some beyond))
  | copy {place target : Fin n} (jump : (code place).op = .jmp)
      (branch : (code place).branch = some target) (copied : (code target).op.copied = true) :
      Edit code (code.copy place target)
  | marker {place : Fin n} (isMarker : (code place).op = .exc ∨ (code place).op = .exc0) :
      Edit code (code.setOp place .noop)

/-- Some edits, one after the other. -/
abbrev Edits : Code n Operands → Code n Operands → Prop := Relation.ReflTransGen Edit

theorem shorten_edits {fuel : ℕ} {code after : Code n Operands} {place : Fin n}
    (shortened : shorten fuel code place = some after) : Edits code after := by
  induction fuel generalizing code with
  | zero => cases shortened
  | succ fuel ih =>
      unfold shorten at shortened
      split at shortened
      · cases shortened
        exact .refl
      · rename_i target branch
        split_ifs at shortened with jump stays
        · cases shortened
          exact .refl
        · split at shortened
          · cases shortened
          · rename_i beyond onward
            have apart : place ≠ target := fun same => stays (.inl same)
            exact .head (.shorten branch jump apart onward) (ih shortened)
        · cases shortened
          exact .refl

/-- What the loop on branches changes: nothing but one instruction. -/
theorem shorten_spec {fuel : ℕ} {code after : Code n Operands} {place : Fin n}
    (shortened : shorten fuel code place = some after) :
    (∀ other, other ≠ place → after other = code other) ∧
      (after place).reach = (code place).reach ∧ (after place).op = (code place).op := by
  induction fuel generalizing code with
  | zero => cases shortened
  | succ fuel ih =>
      unfold shorten at shortened
      split at shortened
      · cases shortened
        exact ⟨fun _ _ => rfl, rfl, rfl⟩
      · split_ifs at shortened with jump stays
        · cases shortened
          exact ⟨fun _ _ => rfl, rfl, rfl⟩
        · split at shortened
          · cases shortened
          · rename_i beyond onward
            obtain ⟨others, reach, op⟩ := ih shortened
            refine ⟨fun other apart => ?_, ?_, ?_⟩
            · rw [others other apart, Code.setBranch, Function.update_of_ne apart]
            · rw [reach, Code.setBranch, Function.update_self]
            · rw [op, Code.setBranch, Function.update_self]
        · cases shortened
          exact ⟨fun _ _ => rfl, rfl, rfl⟩

/-- The first steps of a turn: the instruction is marked and its branch is shortened. -/
structure Begins (code : Code n Operands) (place : Fin n) (short : Code n Operands) : Prop where
  unreached : (code place).reach = false
  shortened : ∃ fuel, shorten fuel (code.mark place) place = some short

/-- The turns of `foldbranch` over some places, without its fuel. -/
inductive Folds : Code n Operands → List (Fin n) → Code n Operands → Prop where
  | nil (code : Code n Operands) : Folds code [] code
  | reached {code after : Code n Operands} {place : Fin n} {places : List (Fin n)}
      (isReached : (code place).reach = true) (rest : Folds code places after) :
      Folds code (place :: places) after
  | stop {code short after : Code n Operands} {place : Fin n} {places : List (Fin n)}
      (begins : Begins code place short)
      (isStop : (short place).op = .ret ∨ (short place).op = .exit ∨ (short place).op = .raise)
      (rest : Folds short places after) : Folds code (place :: places) after
  | labels {code short after : Code n Operands} {place : Fin n} {places : List (Fin n)}
      (begins : Begins code place short)
      (isCase : (short place).op = .goto ∨ (short place).op = .case ∨ (short place).op = .casel ∨
        (short place).op = .casec)
      (rest : Folds short ((short place).cse.insts ++ places) after) :
      Folds code (place :: places) after
  | exc {code short middle after : Code n Operands} {place : Fin n} {places : List (Fin n)}
      (begins : Begins code place short) (isExc : (short place).op = .exc)
      (labs : Folds short (short place).cse.insts middle)
      (rest : Folds (middle.setOp place .noop) places after) : Folds code (place :: places) after
  | exc0 {code short middle after : Code n Operands} {place : Fin n} {places : List (Fin n)}
      (begins : Begins code place short) (isExc : (short place).op = .exc0)
      (branch : Folds short (short place).branch.toList middle)
      (rest : Folds (middle.setOp place .noop) ((next place).toList ++ places) after) :
      Folds code (place :: places) after
  | copy {code short after : Code n Operands} {place target : Fin n} {places : List (Fin n)}
      (begins : Begins code place short) (isJump : (short place).op = .jmp)
      (branch : (short place).branch = some target)
      (copied : (short target).op.copied = true)
      (rest : Folds (short.copy place target) (place :: places) after) :
      Folds code (place :: places) after
  | jump {code short after : Code n Operands} {place target : Fin n} {places : List (Fin n)}
      (begins : Begins code place short) (isJump : (short place).op = .jmp)
      (branch : (short place).branch = some target)
      (rest : Folds short (target :: places) after) : Folds code (place :: places) after
  | other {code short after : Code n Operands} {place : Fin n} {places : List (Fin n)}
      (begins : Begins code place short)
      (isOther : (short place).op = .noop ∨ ∃ op, (short place).op = .other op)
      (rest : Folds short ((short place).branch.toList ++ ((next place).toList ++ places)) after) :
      Folds code (place :: places) after

/-- The labels of an instruction are followed one after the other. -/
theorem folds_foldlM {turn : Code n Operands → Fin n → Option (Code n Operands)}
    (each : ∀ {code middle after : Code n Operands} {lab : Fin n} {places : List (Fin n)},
      turn code lab = some middle → Folds middle places after →
        Folds code (lab :: places) after)
    {labs places : List (Fin n)} {code middle after : Code n Operands}
    (folded : labs.foldlM turn code = some middle) (rest : Folds middle places after) :
    Folds code (labs ++ places) after := by
  induction labs generalizing code with
  | nil =>
      cases folded
      exact rest
  | cons lab labs ih =>
      obtain ⟨second, isSecond, folded⟩ := Option.bind_eq_some_iff.mp folded
      exact each isSecond (ih folded)

theorem folds_of_foldbranch {fuel : ℕ} {code middle after : Code n Operands}
    {place : Option (Fin n)} {places : List (Fin n)}
    (folded : foldbranch fuel code place = some middle) (rest : Folds middle places after) :
    Folds code (place.toList ++ places) after := by
  induction fuel generalizing code place middle places after with
  | zero => cases folded
  | succ fuel ih =>
      cases place with
      | none =>
          cases folded
          exact rest
      | some place =>
          unfold foldbranch at folded
          split_ifs at folded with reached
          · cases folded
            exact .reached reached rest
          obtain ⟨short, isShort, folded⟩ := Option.bind_eq_some_iff.mp folded
          have begins : Begins code place short := ⟨by simpa using reached, fuel, isShort⟩
          have each : ∀ {code middle after : Code n Operands} {lab : Fin n}
              {places : List (Fin n)}, foldbranch fuel code (some lab) = some middle →
                Folds middle places after → Folds code (lab :: places) after :=
            fun isTurn rest => ih isTurn rest
          dsimp only at folded
          split at folded
          · rename_i isCase
            exact .labels begins (.inl isCase) (folds_foldlM each folded rest)
          · rename_i isCase
            exact .labels begins (.inr (.inl isCase)) (folds_foldlM each folded rest)
          · rename_i isCase
            exact .labels begins (.inr (.inr (.inl isCase))) (folds_foldlM each folded rest)
          · rename_i isCase
            exact .labels begins (.inr (.inr (.inr isCase))) (folds_foldlM each folded rest)
          · rename_i isExc
            obtain ⟨last, isLast, isMiddle⟩ := Option.bind_eq_some_iff.mp folded
            cases isMiddle
            have labs := folds_foldlM each isLast (.nil last)
            rw [List.append_nil] at labs
            exact .exc begins isExc labs rest
          · rename_i isExc
            obtain ⟨last, isLast, folded⟩ := Option.bind_eq_some_iff.mp folded
            have branch := ih isLast (.nil last)
            rw [List.append_nil] at branch
            exact .exc0 begins isExc branch (ih folded rest)
          · rename_i isStop
            cases folded
            exact .stop begins (.inl isStop) rest
          · rename_i isStop
            cases folded
            exact .stop begins (.inr (.inl isStop)) rest
          · rename_i isStop
            cases folded
            exact .stop begins (.inr (.inr isStop)) rest
          · rename_i isJump
            split at folded
            · cases folded
            · rename_i target branch
              split_ifs at folded with copied
              · exact .copy begins isJump branch copied (ih folded rest)
              · exact .jump begins isJump branch (ih folded rest)
          · rename_i isNoop
            obtain ⟨last, isLast, folded⟩ := Option.bind_eq_some_iff.mp folded
            exact .other begins (.inl isNoop) (ih isLast (ih folded rest))
          · rename_i op isOther
            obtain ⟨last, isLast, folded⟩ := Option.bind_eq_some_iff.mp folded
            exact .other begins (.inr ⟨op, isOther⟩) (ih isLast (ih folded rest))

section Turns

variable {code short after : Code n Operands} {place : Fin n} {places : List (Fin n)}

theorem Begins.other (begins : Begins code place short) {other : Fin n} (apart : other ≠ place) :
    short other = code other := by
  obtain ⟨fuel, shortened⟩ := begins.shortened
  rw [(shorten_spec shortened).1 other apart, Code.mark, Function.update_of_ne apart]

theorem Begins.reach (begins : Begins code place short) : (short place).reach = true := by
  obtain ⟨fuel, shortened⟩ := begins.shortened
  rw [(shorten_spec shortened).2.1, Code.mark, Function.update_self]

theorem Begins.op (begins : Begins code place short) : (short place).op = (code place).op := by
  obtain ⟨fuel, shortened⟩ := begins.shortened
  rw [(shorten_spec shortened).2.2, Code.mark, Function.update_self]

theorem Begins.edits (begins : Begins code place short) : Edits code short := by
  obtain ⟨fuel, shortened⟩ := begins.shortened
  exact .head (.mark place) (shorten_edits shortened)

theorem Begins.apart (begins : Begins code place short) {other : Fin n}
    (isReached : (code other).reach = true) : other ≠ place := by
  rintro rfl
  rw [begins.unreached] at isReached
  cases isReached

/-- What is marked stays as it is. -/
def Keeps (code after : Code n Operands) : Prop :=
  ∀ place, (code place).reach = true → after place = code place

theorem Keeps.trans {middle : Code n Operands} (first : Keeps code middle)
    (second : Keeps middle after) : Keeps code after := by
  intro place isReached
  rw [second place (by rw [first place isReached, isReached]), first place isReached]

theorem Keeps.reach (keeps : Keeps code after) (isReached : (code place).reach = true) :
    (after place).reach = true := by
  rw [keeps place isReached, isReached]

theorem Begins.keeps (begins : Begins code place short) : Keeps code short :=
  fun _ isReached => begins.other (begins.apart isReached)

theorem Begins.keeps_setOp {middle : Code n Operands} (begins : Begins code place short)
    (keeps : Keeps short middle) (op : Op) : Keeps code (middle.setOp place op) := by
  intro other isReached
  have apart := begins.apart isReached
  rw [Code.setOp, Function.update_of_ne apart]
  exact begins.keeps.trans keeps other isReached

theorem Begins.keeps_copy (begins : Begins code place short) (target : Fin n) :
    Keeps code (short.copy place target) := by
  intro other isReached
  have apart := begins.apart isReached
  rw [Code.copy, Function.update_of_ne apart, begins.other apart]

theorem Folds.keeps (folds : Folds code places after) : Keeps code after := by
  induction folds with
  | nil => exact fun _ _ => rfl
  | reached _ _ ih => exact ih
  | stop begins _ _ ih => exact begins.keeps.trans ih
  | labels begins _ _ ih => exact begins.keeps.trans ih
  | exc begins _ _ _ labs rest => exact (begins.keeps_setOp labs .noop).trans rest
  | exc0 begins _ _ _ branch rest => exact (begins.keeps_setOp branch .noop).trans rest
  | copy begins _ _ _ _ ih => exact (begins.keeps_copy _).trans ih
  | jump begins _ _ _ ih => exact begins.keeps.trans ih
  | other begins _ _ ih => exact begins.keeps.trans ih

theorem Folds.edits (folds : Folds code places after) : Edits code after := by
  induction folds with
  | nil => exact .refl
  | reached _ _ ih => exact ih
  | stop begins _ _ ih => exact begins.edits.trans ih
  | labels begins _ _ ih => exact begins.edits.trans ih
  | @exc code short middle after place places begins isExc labs _ labsIh ih =>
      have op : (middle place).op = .exc := by rw [labs.keeps place begins.reach, isExc]
      exact (begins.edits.trans labsIh).trans (.head (.marker (.inl op)) ih)
  | @exc0 code short middle after place places begins isExc branch _ branchIh ih =>
      have op : (middle place).op = .exc0 := by rw [branch.keeps place begins.reach, isExc]
      exact (begins.edits.trans branchIh).trans (.head (.marker (.inr op)) ih)
  | copy begins isJump branch copied _ ih =>
      exact begins.edits.trans (.head (.copy isJump branch copied) ih)
  | jump begins _ _ _ ih => exact begins.edits.trans ih
  | other begins _ _ ih => exact begins.edits.trans ih

end Turns

section Meaning

variable {semantics : Semantics Operands State} {follow : Fin n → Option (Fin n)}
  {code after : Code n Operands} {place target beyond : Fin n}

theorem Inst.move_mark (inst : Inst Ref Operands) (next : Option Ref) (state : State) :
    ({ inst with reach := true } : Inst Ref Operands).move semantics next state =
      inst.move semantics next state := rfl

theorem run_mark : run semantics follow (code.mark place) = run semantics follow code := by
  funext config
  obtain ⟨_ | other, state⟩ := config
  · rfl
  · by_cases same : other = place
    · subst same
      simp only [run, Code.mark, Function.update_self, Inst.move_mark]
    · simp only [run, Code.mark, Function.update_of_ne same]

/-- A marker does nothing, and neither does the instruction that it becomes. -/
theorem run_marker (isMarker : (code place).op = .exc ∨ (code place).op = .exc0) :
    run semantics follow (code.setOp place .noop) = run semantics follow code := by
  funext config
  obtain ⟨_ | other, state⟩ := config
  · rfl
  · by_cases same : other = place
    · subst same
      rcases isMarker with isMarker | isMarker
      · simp only [run, Code.setOp, Function.update_self, Inst.move, isMarker]
      · simp only [run, Code.setOp, Function.update_self, Inst.move, isMarker]
    · simp only [run, Code.setOp, Function.update_of_ne same]

/-- At the jump, or at its target if the jump has been left out. -/
def Skipped (target beyond : Fin n) (config other : Option (Fin n) × State) : Prop :=
  config = other ∨ config = (some target, other.2) ∧ other = (some beyond, other.2)

theorem move_shorten {inst : Inst (Fin n) Operands} (branch : inst.branch = some target)
    (next : Option (Fin n)) (state : State) :
    Matches (Skipped target beyond) (inst.move semantics next state)
      ({ inst with branch := some beyond }.move semantics next state) := by
  have same : ∀ config : Option (Fin n) × State, Skipped target beyond config config :=
    fun _ => .inl rfl
  have skipped : ∀ state : State, Skipped target beyond (some target, state)
      (some beyond, state) := fun _ => .inr ⟨rfl, rfl⟩
  obtain ⟨op, operands, _, cse, reach⟩ := inst
  cases branch
  cases op with
  | jmp => exact .silent (skipped state)
  | other op =>
      simp only [Inst.move]
      split_ifs
      · exact .visible (skipped _)
      · exact .visible (same _)
  | exc => exact .silent (same _)
  | exc0 => exact .silent (same _)
  | noop => exact .silent (same _)
  | _ => exact .visible (same _)

theorem shows_shorten (branch : (code place).branch = some target)
    (jump : (code target).op = .jmp) (apart : place ≠ target)
    (onward : (code target).branch = some beyond) {config : Option (Fin n) × State}
    {events : List (Event Operands State)} :
    Shows (run semantics follow code) config events ↔
      Shows (run semantics follow (code.setBranch place (some beyond))) config events := by
  have atPlace : ∀ config, Matches (Skipped target beyond) (run semantics follow code config)
      (run semantics follow (code.setBranch place (some beyond)) config) := by
    rintro ⟨_ | other, state⟩
    · exact .halt
    · by_cases same : other = place
      · subst same
        simp only [run, Code.setBranch, Function.update_self]
        exact move_shorten branch _ _
      · simp only [run, Code.setBranch, Function.update_of_ne same]
        exact .refl (fun _ => .inl rfl) _
  have skips : ∀ state, run semantics follow code (some target, state) =
      .silent (some beyond, state) := by
    intro state
    simp only [run, Inst.move, jump, onward]
  have forward : Simulates (run semantics follow code)
      (run semantics follow (code.setBranch place (some beyond))) (Skipped target beyond) := by
    apply Simulates.of_matches
    rintro config other (rfl | ⟨isTarget, isBeyond⟩)
    · exact .inl ⟨config, .refl config, atPlace config⟩
    · rw [isTarget, isBeyond]
      exact .inr ⟨_, skips other.2, .inl rfl⟩
  have backward : Simulates (run semantics follow (code.setBranch place (some beyond)))
      (run semantics follow code) fun other config => Skipped target beyond config other := by
    apply Simulates.of_matches
    rintro other config (rfl | ⟨isTarget, isBeyond⟩)
    · exact .inl ⟨config, .refl config, (atPlace config).symm⟩
    · rw [isTarget, isBeyond]
      exact .inl ⟨_, .single (skips other.2), (atPlace _).symm⟩
  exact forward.shows_iff backward (.inl rfl) events

/-- An instruction that is copied does not go on to the next one. -/
theorem move_copied {inst : Inst Ref Operands} (copied : inst.op.copied = true)
    (next other : Option Ref) (state : State) :
    inst.move semantics next state = inst.move semantics other state := by
  obtain ⟨op, operands, branch, cse, reach⟩ := inst
  cases op <;> first | rfl | cases copied

theorem shows_copy (jump : (code place).op = .jmp) (branch : (code place).branch = some target)
    (copied : (code target).op.copied = true) {config : Option (Fin n) × State}
    {events : List (Event Operands State)} :
    Shows (run semantics follow code) config events ↔
      Shows (run semantics follow (code.copy place target)) config events := by
  have same : ∀ config : Option (Fin n) × State, Skipped target place config config :=
    fun _ => .inl rfl
  have jumps : ∀ state, run semantics follow code (some place, state) =
      .silent (some target, state) := by
    intro state
    simp only [run, Inst.move, jump, branch]
  have copies : ∀ state, run semantics follow (code.copy place target) (some place, state) =
      run semantics follow code (some target, state) := by
    intro state
    simp only [run, Code.copy, Function.update_self]
    exact move_copied copied _ _ _
  have others : ∀ config : Option (Fin n) × State, config.1 ≠ some place →
      run semantics follow (code.copy place target) config = run semantics follow code config := by
    rintro ⟨_ | other, state⟩ apart
    · rfl
    · simp only [run, Code.copy, Function.update_of_ne (fun same => apart (congrArg some same))]
  have forward : Simulates (run semantics follow code)
      (run semantics follow (code.copy place target)) (Skipped target place) := by
    apply Simulates.of_matches
    rintro config ⟨other, state⟩ (rfl | ⟨isTarget, isPlace⟩)
    · by_cases atPlace : other = some place
      · subst atPlace
        exact .inr ⟨_, jumps state, .inr ⟨rfl, rfl⟩⟩
      · refine .inl ⟨_, .refl _, ?_⟩
        rw [others (other, state) atPlace]
        exact .refl same _
    · cases isPlace
      rw [isTarget]
      refine .inl ⟨_, .refl _, ?_⟩
      rw [copies]
      exact .refl same _
  have backward : Simulates (run semantics follow (code.copy place target))
      (run semantics follow code) fun other config => Skipped target place config other := by
    apply Simulates.of_matches
    rintro ⟨other, state⟩ config (rfl | ⟨isTarget, isPlace⟩)
    · by_cases atPlace : other = some place
      · subst atPlace
        refine .inl ⟨_, .single (jumps state), ?_⟩
        rw [copies]
        exact (Matches.refl same _).symm
      · refine .inl ⟨_, .refl _, ?_⟩
        rw [others (other, state) atPlace]
        exact (Matches.refl same _).symm
    · cases isPlace
      rw [isTarget]
      refine .inl ⟨_, .refl _, ?_⟩
      rw [copies]
      exact (Matches.refl same _).symm
  exact forward.shows_iff backward (same config) events

theorem Edit.shows_iff (edit : Edit code after) {config : Option (Fin n) × State}
    {events : List (Event Operands State)} :
    Shows (run semantics follow code) config events ↔
      Shows (run semantics follow after) config events := by
  cases edit with
  | mark place => rw [run_mark]
  | shorten branch jump apart onward => exact shows_shorten branch jump apart onward
  | copy jump branch copied => exact shows_copy jump branch copied
  | marker isMarker => rw [run_marker isMarker]

theorem Edits.shows_iff (edits : Edits code after) {config : Option (Fin n) × State}
    {events : List (Event Operands State)} :
    Shows (run semantics follow code) config events ↔
      Shows (run semantics follow after) config events := by
  induction edits with
  | refl => exact Iff.rfl
  | tail _ edit ih => exact ih.trans edit.shows_iff

end Meaning

/-- Folded code shows the same in every run, from wherever the run starts. -/
theorem foldbranch_shows_iff {semantics : Semantics Operands State}
    {follow : Fin n → Option (Fin n)} {fuel : ℕ} {code after : Code n Operands}
    {place : Option (Fin n)} (folded : foldbranch fuel code place = some after)
    (config : Option (Fin n) × State) (events : List (Event Operands State)) :
    Shows (run semantics follow code) config events ↔
      Shows (run semantics follow after) config events := by
  have folds := folds_of_foldbranch folded (.nil after)
  exact folds.edits.shows_iff

end Disvm.BranchFolding
