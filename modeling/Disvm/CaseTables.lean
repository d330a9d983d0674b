import Disvm.ByteMemory
import Mathlib.Data.BitVec
import Mathlib.Data.List.Pairwise
import Mathlib.Tactic.Ring

/-!
# Case tables

The compiler lays a `case` out in the module data as a count, three cells a label and the
program counter of the wildcard.  The instructions `casew` and `casel` read the table as an
array of their operand type.  An inclusive range is written as a half-open one, in arithmetic
that wraps around.
-/

namespace Disvm.CaseTables

open ByteMemory

abbrev Word := BitVec 32
abbrev Big := BitVec 64

/-- `disint`, as the loader stores it. -/
def disint (offset : ℕ) (value : Word) (memory : Memory) : Memory :=
  writeWord offset value.toNat memory

/-- `disbig`, as the loader stores it on a little-endian machine. -/
def disbig (offset : ℕ) (value : Big) (memory : Memory) : Memory :=
  disint (offset + 4) (value.extractLsb' 32 32) (disint offset (value.setWidth 32) memory)

def readInt (memory : Memory) (address : ℕ) : Word :=
  BitVec.ofNat 32 (readWord memory address)

def readBig (memory : Memory) (address : ℕ) : Big :=
  readInt memory (address + 4) ++ readInt memory address

theorem readInt_disint (address : ℕ) (value : Word) (memory : Memory) :
    readInt (disint address value memory) address = value := by
  rw [readInt, disint, readWord_writeWord value.isLt, BitVec.ofNat_toNat, BitVec.setWidth_eq]

theorem sameOn_disint {extent : Extent} {address : ℕ} (apart : extent.Apart (wordAt address))
    (value : Word) (memory : Memory) : SameOn extent memory (disint address value memory) :=
  sameOn_writeWord apart value.toNat memory

theorem readInt_congr {before after : Memory} {address : ℕ}
    (same : SameOn (wordAt address) before after) :
    readInt after address = readInt before address := by
  rw [readInt, same.readWord, readInt]

theorem wordAt_apart {first second : ℕ} (away : first + 4 ≤ second ∨ second + 4 ≤ first) :
    (wordAt first).Apart (wordAt second) :=
  away

theorem readInt_disint_apart {address other : ℕ}
    (away : other + 4 ≤ address ∨ address + 4 ≤ other) (value : Word) (memory : Memory) :
    readInt (disint address value memory) other = readInt memory other :=
  readInt_congr (sameOn_disint (wordAt_apart away) value memory)

theorem readBig_disbig (address : ℕ) (value : Big) (memory : Memory) :
    readBig (disbig address value memory) address = value := by
  rw [readBig, disbig, readInt_disint, readInt_disint_apart (Or.inl le_rfl), readInt_disint]
  apply BitVec.eq_of_toNat_eq
  simp only [BitVec.toNat_append, BitVec.extractLsb'_toNat, BitVec.toNat_setWidth]
  rw [← Nat.shiftLeft_add_eq_or_of_lt (Nat.mod_lt _ (by decide)), Nat.shiftLeft_eq,
    Nat.shiftRight_eq_div_pow]
  have small := value.isLt
  omega

/-- All bytes of the extent are zero. -/
def Zeroed (extent : Extent) (memory : Memory) : Prop :=
  ∀ address, extent.Contains address → memory address = 0

theorem readInt_of_zeroed {address : ℕ} {memory : Memory}
    (zeroed : Zeroed (wordAt address) memory) : readInt memory address = 0#32 := by
  have isZero : ∀ offset < 4, memory (address + offset) = 0 := by
    intro offset small
    apply zeroed
    exact ⟨Nat.le_add_right _ _, Nat.add_lt_add_left small _⟩
  rw [readInt, readWord, isZero 1 (by omega), isZero 2 (by omega), isZero 3 (by omega),
    show memory address = 0 from isZero 0 (by omega)]
  rfl

/-- How a label of an operand type is written to a cell of the table, and how a cell is
read as an operand. -/
structure Cells (width : ℕ) where
  size : ℕ
  put : ℕ → BitVec width → Memory → Memory
  get : Memory → ℕ → BitVec width
  word_le_size : 4 ≤ size
  word_le_width : 32 ≤ width
  get_put : ∀ address value memory, get (put address value memory) address = value
  sameOn_put : ∀ {extent : Extent} {address : ℕ}, extent.Apart ⟨address, size⟩ →
    ∀ value memory, SameOn extent memory (put address value memory)
  get_congr : ∀ {address : ℕ} {before after : Memory}, SameOn ⟨address, size⟩ before after →
    get after address = get before address
  get_disint : ∀ {address : ℕ} {memory : Memory}, Zeroed ⟨address, size⟩ memory →
    ∀ value, get (disint address value memory) address = value.setWidth width
  low_get_disint : ∀ address value memory,
    (get (disint address value memory) address).setWidth 32 = value

def wordCells : Cells 32 where
  size := 4
  put := disint
  get := readInt
  word_le_size := le_rfl
  word_le_width := le_rfl
  get_put := readInt_disint
  sameOn_put := fun apart value memory => sameOn_disint apart value memory
  get_congr := readInt_congr
  get_disint := fun _ value => by rw [readInt_disint, BitVec.setWidth_eq]
  low_get_disint := fun address value memory => by rw [readInt_disint, BitVec.setWidth_eq]

theorem sameOn_disbig {extent : Extent} {address : ℕ} (apart : extent.Apart ⟨address, 8⟩)
    (value : Big) (memory : Memory) : SameOn extent memory (disbig address value memory) := by
  unfold Extent.Apart at apart
  dsimp only at apart
  apply SameOn.trans (sameOn_disint _ _ _) (sameOn_disint _ _ _)
  all_goals
    unfold Extent.Apart wordAt
    dsimp only
    omega

theorem readBig_congr {address : ℕ} {before after : Memory}
    (same : SameOn ⟨address, 8⟩ before after) : readBig after address = readBig before address := by
  have low : SameOn (wordAt address) before after :=
    same.within ⟨le_rfl, Nat.add_le_add_left (show 4 ≤ 8 by decide) address⟩
  have high : SameOn (wordAt (address + 4)) before after :=
    same.within ⟨Nat.le_add_right _ _, le_rfl⟩
  rw [readBig, readBig, readInt_congr low, readInt_congr high]

/-- The upper half of the cell is not written, and stays zero. -/
theorem readBig_disint {address : ℕ} {memory : Memory} (zeroed : Zeroed ⟨address, 8⟩ memory)
    (value : Word) : readBig (disint address value memory) address = value.setWidth 64 := by
  have high : Zeroed (wordAt (address + 4)) memory := by
    intro other inside
    apply zeroed
    exact ⟨le_trans (Nat.le_add_right address 4) inside.1, inside.2⟩
  rw [readBig, readInt_disint, readInt_disint_apart (Or.inr le_rfl), readInt_of_zeroed high]
  apply BitVec.eq_of_toNat_eq
  rw [BitVec.toNat_append, BitVec.toNat_setWidth]
  have small := value.isLt
  rw [BitVec.toNat_ofNat, Nat.zero_mod, Nat.zero_shiftLeft, Nat.zero_or]
  omega

def bigCells : Cells 64 where
  size := 8
  put := disbig
  get := readBig
  word_le_size := by decide
  word_le_width := by decide
  get_put := readBig_disbig
  sameOn_put := fun apart value memory => sameOn_disbig apart value memory
  get_congr := readBig_congr
  get_disint := readBig_disint
  low_get_disint := fun address value memory => by
    rw [readBig, readInt_disint, BitVec.setWidth_append_eq_right]

/-- A label of a `case`: an inclusive range and where it goes. -/
structure Label (width : ℕ) where
  start : BitVec width
  stop : BitVec width
  pc : Word
  ordered : start.sle stop
  deriving DecidableEq, Repr

/-- A `case` with a wildcard, its labels ascending and disjoint. -/
structure Case (width : ℕ) where
  labs : List (Label width)
  iwild : Word
  ascending : labs.Pairwise fun first second => first.stop.slt second.start
  nlab_lt : labs.length < 2 ^ 31

section Tables

variable {width : ℕ} (cells : Cells width)

/-- The loop of `disdatum` over the labels, with the offset after it. -/
def disLabels : ℕ → List (Label width) → Memory → ℕ × Memory
  | offset, [], memory => (offset, memory)
  | offset, lab :: labs, memory =>
      let memory := cells.put offset lab.start memory
      let offset := offset + cells.size
      let memory := cells.put offset (lab.stop + BitVec.ofNat width 1) memory
      let offset := offset + cells.size
      let memory := disint offset lab.pc memory
      let offset := offset + cells.size
      disLabels offset labs memory

/-- `disdatum` on a table of labels. -/
def disCase (offset : ℕ) (c : Case width) (memory : Memory) : Memory :=
  let memory := disint offset (BitVec.ofNat 32 c.labs.length) memory
  let (offset, memory) := disLabels cells (offset + cells.size) c.labs memory
  disint offset c.iwild memory

/-- The loop over the entries, with the target of the wildcard. -/
def caseLoop (memory : Memory) (value : BitVec width) : ℕ → ℕ → BitVec width → BitVec width
  | 0, _, target => target
  | count + 1, entry, target =>
      if value.slt (cells.get memory entry) ∨
          (cells.get memory (entry + cells.size)).sle value then
        caseLoop memory value count (entry + 3 * cells.size) target
      else
        cells.get memory (entry + 2 * cells.size)

/-- `_case`: the next program counter.  Its assertions are not part of it. -/
def case (memory : Memory) (value : BitVec width) (table : ℕ) : Word :=
  let entryCount := (cells.get memory table).toInt
  let fallback := (table + cells.size * (1 + entryCount * 3)).toNat
  let target := cells.get memory fallback
  (caseLoop cells memory value entryCount.toNat (table + cells.size) target).setWidth 32

end Tables

/-- `disdatum` on a `Tcase`. -/
def disTcase (offset : ℕ) (c : Case 32) (memory : Memory) : Memory :=
  disCase wordCells offset c memory

/-- `disdatum` on a `Tcasel`. -/
def disTcasel (offset : ℕ) (c : Case 64) (memory : Memory) : Memory :=
  disCase bigCells offset c memory

def casew (memory : Memory) (value : Word) (table : ℕ) : Word :=
  case wordCells memory value table

def casel (memory : Memory) (value : Big) (table : ℕ) : Word :=
  case bigCells memory value table

section Reading

variable {width : ℕ} {cells : Cells width}

/-- Entries of the table stand for labels. -/
inductive Entries (cells : Cells width) (memory : Memory) : ℕ → List (Label width) → Prop
  | nil (entry : ℕ) : Entries cells memory entry []
  | cons {entry : ℕ} {lab : Label width} {labs : List (Label width)}
      (low : cells.get memory entry = lab.start)
      (high : cells.get memory (entry + cells.size) = lab.stop + BitVec.ofNat width 1)
      (pc : (cells.get memory (entry + 2 * cells.size)).setWidth 32 = lab.pc)
      (rest : Entries cells memory (entry + 3 * cells.size) labs) :
      Entries cells memory entry (lab :: labs)

theorem disLabels_fst (cells : Cells width) (offset : ℕ) (labs : List (Label width))
    (memory : Memory) :
    (disLabels cells offset labs memory).1 = offset + cells.size * (labs.length * 3) := by
  induction labs generalizing offset memory with
  | nil => rw [disLabels, List.length_nil, Nat.zero_mul, Nat.mul_zero, Nat.add_zero]
  | cons lab labs ih =>
      rw [disLabels, ih, List.length_cons]
      ring

/-- What is apart from a cell is apart from the word at its start. -/
theorem sameOn_disint_cell (cells : Cells width) {extent : Extent} {address : ℕ}
    (apart : extent.Apart ⟨address, cells.size⟩) (value : Word) (memory : Memory) :
    SameOn extent memory (disint address value memory) := by
  have wide := cells.word_le_size
  apply sameOn_disint
  unfold Extent.Apart wordAt at *
  dsimp only at *
  omega

/-- The labels are written from the offset on. -/
theorem sameOn_disLabels {extent : Extent} {offset : ℕ} (labs : List (Label width))
    (memory : Memory) (before : extent.start + extent.size ≤ offset) :
    SameOn extent memory (disLabels cells offset labs memory).2 := by
  induction labs generalizing offset memory with
  | nil => exact SameOn.refl extent memory
  | cons lab labs ih =>
      rw [disLabels]
      have putAt : ∀ address, offset ≤ address → ∀ value memory,
          SameOn extent memory (cells.put address value memory) :=
        fun address late => cells.sameOn_put (Or.inl (le_trans before late))
      have wordPut : SameOn extent
          (cells.put (offset + cells.size) (lab.stop + BitVec.ofNat width 1)
            (cells.put offset lab.start memory))
          (disint (offset + cells.size + cells.size) lab.pc
            (cells.put (offset + cells.size) (lab.stop + BitVec.ofNat width 1)
              (cells.put offset lab.start memory))) :=
        sameOn_disint_cell cells (Or.inl (by dsimp only; omega)) _ _
      apply SameOn.trans (putAt offset le_rfl lab.start memory)
      apply SameOn.trans (putAt (offset + cells.size) (Nat.le_add_right _ _) _ _)
      exact wordPut.trans (ih _ (by omega))

/-- Entries depend on their cells only. -/
theorem Entries.congr {before after : Memory} {entry : ℕ} {labs : List (Label width)}
    (entries : Entries cells before entry labs)
    (same : SameOn ⟨entry, cells.size * (labs.length * 3)⟩ before after) :
    Entries cells after entry labs := by
  induction entries with
  | nil entry => exact Entries.nil entry
  | @cons entry lab labs low high pc _ ih =>
      have total : cells.size * ((labs.length + 1) * 3) =
          3 * cells.size + cells.size * (labs.length * 3) := by ring
      rw [List.length_cons, total] at same
      have cellAt : ∀ index < 3, cells.get after (entry + index * cells.size) =
          cells.get before (entry + index * cells.size) := by
        intro index small
        apply cells.get_congr
        apply same.within
        have upTo : index * cells.size + cells.size ≤ 3 * cells.size := by
          rw [← Nat.succ_mul]
          exact Nat.mul_le_mul_right cells.size small
        constructor <;> dsimp only <;> omega
      have first := cellAt 0 (by omega)
      have second := cellAt 1 (by omega)
      rw [Nat.zero_mul, Nat.add_zero] at first
      rw [Nat.one_mul] at second
      apply Entries.cons (first.trans low) (second.trans high)
      · rw [cellAt 2 (by omega), pc]
      · apply ih
        apply same.within
        constructor <;> dsimp only <;> omega

theorem entries_disLabels (offset : ℕ) (labs : List (Label width)) (memory : Memory) :
    Entries cells (disLabels cells offset labs memory).2 offset labs := by
  induction labs generalizing offset memory with
  | nil => exact Entries.nil offset
  | cons lab labs ih =>
      rw [disLabels]
      have kept : ∀ address, address + cells.size ≤ offset + cells.size + cells.size + cells.size →
          ∀ memory, cells.get (disLabels cells
            (offset + cells.size + cells.size + cells.size) labs memory).2 address =
              cells.get memory address :=
        fun address early memory => cells.get_congr (sameOn_disLabels labs memory early)
      have second : offset + 2 * cells.size = offset + cells.size + cells.size := by omega
      have third : offset + 3 * cells.size = offset + cells.size + cells.size + cells.size := by
        omega
      apply Entries.cons
      · rw [kept offset (by omega), cells.get_congr (sameOn_disint_cell cells
          (Or.inl (by dsimp only; omega)) _ _), cells.get_congr (cells.sameOn_put
          (Or.inl le_rfl) _ _), cells.get_put]
      · rw [kept (offset + cells.size) (by omega), cells.get_congr (sameOn_disint_cell cells
          (Or.inl le_rfl) _ _), cells.get_put]
      · rw [second, kept _ le_rfl, cells.low_get_disint]
      · rw [third]
        exact ih _ _

/-- The label is the one an entry made of it selects. -/
def Label.isRead (lab : Label width) (value : BitVec width) : Bool :=
  decide ¬(value.slt lab.start ∨ (lab.stop + BitVec.ofNat width 1).sle value)

theorem caseLoop_eq {memory : Memory} {entry : ℕ} {labs : List (Label width)}
    (entries : Entries cells memory entry labs) (value target : BitVec width) :
    (caseLoop cells memory value labs.length entry target).setWidth 32 =
      ((labs.find? fun lab => lab.isRead value).map Label.pc).getD (target.setWidth 32) := by
  induction entries with
  | nil entry => rfl
  | @cons entry lab labs low high pc _ ih =>
      rw [List.length_cons, caseLoop, low, high, List.find?_cons]
      cases isRead : lab.isRead value with
      | true =>
          rw [if_neg (of_decide_eq_true isRead), pc]
          rfl
      | false =>
          rw [if_pos (not_not.mp (of_decide_eq_false isRead)), ih]

/-- The size of a table is that of its type. -/
def tableExtent (cells : Cells width) (offset : ℕ) (c : Case width) : Extent where
  start := offset
  size := cells.size * (1 + c.labs.length * 3) + 4

theorem toInt_count (c : Case width) (wide : 32 ≤ width) :
    ((BitVec.ofNat 32 c.labs.length).setWidth width).toInt = c.labs.length := by
  have small := c.nlab_lt
  have fits : 2 ^ 32 ≤ 2 ^ width := Nat.pow_le_pow_right (by decide) wide
  have isCount : ((BitVec.ofNat 32 c.labs.length).setWidth width).toNat = c.labs.length := by
    rw [BitVec.toNat_setWidth, BitVec.toNat_ofNat, Nat.mod_eq_of_lt (by omega),
      Nat.mod_eq_of_lt (by omega)]
  rw [BitVec.toInt_eq_toNat_cond, isCount, if_pos (by omega)]

/-- A written table is read as the search for the first label whose entry selects the
value. -/
theorem case_disCase (offset : ℕ) (c : Case width) {memory : Memory}
    (zeroed : Zeroed (tableExtent cells offset c) memory) (value : BitVec width) :
    case cells (disCase cells offset c memory) value offset =
      ((c.labs.find? fun lab => lab.isRead value).map Label.pc).getD c.iwild := by
  have length := disLabels_fst cells (offset + cells.size) c.labs
    (disint offset (BitVec.ofNat 32 c.labs.length) memory)
  obtain ⟨written, isWritten⟩ : ∃ written, written = disLabels cells (offset + cells.size) c.labs
    (disint offset (BitVec.ofNat 32 c.labs.length) memory) := ⟨_, rfl⟩
  rw [← isWritten] at length
  have wildAt : SameOn ⟨offset, cells.size + cells.size * (c.labs.length * 3)⟩ written.2
      (disint written.1 c.iwild written.2) := by
    apply sameOn_disint
    left
    rw [length]
    exact le_of_eq (Nat.add_assoc _ _ _).symm
  have countZeroed : Zeroed ⟨offset, cells.size⟩ memory := by
    intro address inside
    apply zeroed
    have later : offset + cells.size ≤ offset + (cells.size * (1 + c.labs.length * 3) + 4) := by
      have more := Nat.le_mul_of_pos_right cells.size
        (show 0 < 1 + c.labs.length * 3 by omega)
      omega
    exact ⟨inside.1, lt_of_lt_of_le inside.2 later⟩
  have count : (cells.get (disint written.1 c.iwild written.2) offset).toInt =
      c.labs.length := by
    rw [cells.get_congr (wildAt.within ⟨le_rfl, by dsimp only; omega⟩), isWritten,
      cells.get_congr (sameOn_disLabels c.labs _ le_rfl), cells.get_disint countZeroed,
      toInt_count c cells.word_le_width]
  have fallback : (offset + cells.size * (1 + c.labs.length * 3) : ℤ).toNat = written.1 := by
    have natural : (offset + cells.size * (1 + c.labs.length * 3) : ℤ) =
        (offset + cells.size + cells.size * (c.labs.length * 3) : ℕ) := by
      push_cast
      ring
    rw [length, natural, Int.toNat_natCast]
  have entries : Entries cells (disint written.1 c.iwild written.2) (offset + cells.size)
      c.labs := by
    have asWritten : Entries cells written.2 (offset + cells.size) c.labs := by
      rw [isWritten]
      exact entries_disLabels _ _ _
    apply asWritten.congr
    apply wildAt.within
    constructor <;> dsimp only <;> omega
  rw [disCase, ← isWritten]
  rw [case, count, fallback, Int.toNat_natCast, caseLoop_eq entries, cells.low_get_disint]

end Reading

section Selection

variable {width : ℕ}

def Label.Contains (lab : Label width) (value : BitVec width) : Prop :=
  lab.start.sle value ∧ value.sle lab.stop

instance (lab : Label width) (value : BitVec width) : Decidable (lab.Contains value) :=
  inferInstanceAs (Decidable (_ ∧ _))

/-- Control goes where the range says that contains the value, and to the wildcard where
none does. -/
def Case.GoesTo (c : Case width) (value : BitVec width) (pc : Word) : Prop :=
  (∀ lab ∈ c.labs, lab.Contains value → pc = lab.pc) ∧
    ((∀ lab ∈ c.labs, ¬ lab.Contains value) → pc = c.iwild)

/-- Where no range goes to the wildcard's target, that target says that no range contains
the value. -/
theorem Case.GoesTo.iwild_iff {c : Case width} {value : BitVec width} {pc : Word}
    (goes : c.GoesTo value pc) (distinct : ∀ lab ∈ c.labs, lab.pc ≠ c.iwild) :
    pc = c.iwild ↔ ∀ lab ∈ c.labs, ¬ lab.Contains value := by
  constructor
  · intro isWild lab member contains
    exact distinct lab member ((goes.1 lab member contains).symm.trans isWild)
  · exact goes.2

theorem toInt_add_one {value : BitVec width} (wide : 1 < width)
    (small : value ≠ BitVec.intMax width) :
    (value + BitVec.ofNat width 1).toInt = value.toInt + 1 := by
  have belowMax : value.toInt ≠ 2 ^ (width - 1) - 1 := by
    rw [← BitVec.toInt_intMax]
    exact BitVec.toInt_ne.mpr small
  have upper := @BitVec.toInt_lt width value
  have lower := BitVec.le_toInt value
  have double : (2 : ℤ) ^ width = 2 * 2 ^ (width - 1) := by
    rw [← pow_succ', Nat.sub_add_cancel (le_of_lt wide)]
  rw [BitVec.toInt_add, BitVec.toInt_one wide]
  apply Int.bmod_eq_of_le_mul_two
  · push_cast
    omega
  · push_cast
    omega

theorem intMin_sle (value : BitVec width) :
    (BitVec.intMax width + BitVec.ofNat width 1).sle value := by
  rw [BitVec.intMax_add_one, BitVec.sle_iff_toInt_le]
  exact BitVec.toInt_intMin_le value

/-- A range that ends with the largest value is never selected, any other one for the
values it contains. -/
theorem Label.isRead_iff (wide : 1 < width) (lab : Label width) (value : BitVec width) :
    lab.isRead value ↔ lab.stop ≠ BitVec.intMax width ∧ lab.Contains value := by
  unfold isRead Contains
  rw [decide_eq_true_iff]
  by_cases isMax : lab.stop = BitVec.intMax width
  · have skipped : (lab.stop + BitVec.ofNat width 1).sle value := by
      rw [isMax]
      exact intMin_sle value
    exact ⟨fun selects => absurd (Or.inr skipped) selects,
      fun contained => absurd isMax contained.1⟩
  · rw [BitVec.slt_iff_toInt_lt, BitVec.sle_iff_toInt_le, BitVec.sle_iff_toInt_le,
      BitVec.sle_iff_toInt_le, toInt_add_one wide isMax]
    simp only [ne_eq, isMax, not_false_eq_true, true_and]
    omega

/-- Where the order keeps what has a property apart, only one entry has it. -/
theorem unique_of_ascending {Entry : Type} {entries : List Entry} {before : Entry → Entry → Prop}
    {holds : Entry → Prop} (ascending : entries.Pairwise before)
    (apart : ∀ {one other}, before one other → holds one → ¬ holds other) {first second : Entry}
    (firstIn : first ∈ entries) (secondIn : second ∈ entries) (inFirst : holds first)
    (inSecond : holds second) : first = second := by
  have forward : entries.Pairwise fun one other => holds one → holds other → one = other :=
    ascending.imp fun before inOne inOther => absurd inOther (apart before inOne)
  have backward : entries.Pairwise fun one other => holds other → holds one → other = one :=
    ascending.imp fun before inOther inOne => absurd inOther (apart before inOne)
  exact forward.forall_of_forall_of_flip (fun _ _ _ _ => rfl) backward firstIn secondIn
    inFirst inSecond

/-- Only one range contains a value. -/
theorem Case.contains_unique (c : Case width) {value : BitVec width} {first second : Label width}
    (firstIn : first ∈ c.labs) (secondIn : second ∈ c.labs) (inFirst : first.Contains value)
    (inSecond : second.Contains value) : first = second := by
  have apart : ∀ {one other : Label width}, one.stop.slt other.start → one.Contains value →
      ¬ other.Contains value := by
    intro one other before inOne inOther
    have below := BitVec.sle_iff_toInt_le.mp inOne.2
    have above := BitVec.sle_iff_toInt_le.mp inOther.1
    have between := BitVec.slt_iff_toInt_lt.mp before
    omega
  exact unique_of_ascending c.ascending apart firstIn secondIn inFirst inSecond

/-- The table selects right but for ranges that end with the largest value. -/
theorem Case.goesTo_iff (wide : 1 < width) (c : Case width) (value : BitVec width) :
    c.GoesTo value (((c.labs.find? fun lab => lab.isRead value).map Label.pc).getD c.iwild) ↔
      ∀ lab ∈ c.labs, lab.stop = BitVec.intMax width → lab.Contains value →
        lab.pc = c.iwild := by
  cases found : c.labs.find? fun lab => lab.isRead value with
  | some selected =>
      have member := List.mem_of_find?_eq_some found
      have selects := List.find?_some found
      obtain ⟨notMax, contains⟩ := (selected.isRead_iff wide value).mp selects
      constructor
      · intro _ lab labIn isMax inLab
        rw [c.contains_unique labIn member inLab contains] at isMax
        exact absurd isMax notMax
      · intro _
        constructor
        · intro lab labIn inLab
          rw [c.contains_unique labIn member inLab contains]
          rfl
        · intro none
          exact absurd contains (none selected member)
  | none =>
      have unread := List.find?_eq_none.mp found
      constructor
      · intro goes lab labIn _ inLab
        exact (goes.1 lab labIn inLab).symm
      · intro allWild
        constructor
        · intro lab labIn inLab
          have isMax : lab.stop = BitVec.intMax width := by
            by_contra notMax
            exact unread lab labIn ((lab.isRead_iff wide value).mpr ⟨notMax, inLab⟩)
          exact (allWild lab labIn isMax inLab).symm
        · intro _
          rfl

end Selection

/-- Executed on the table the compiler laid out, both instructions go where the ranges say,
but for the values of a range that ends with the largest one. -/
theorem case_goesTo_iff (offset : ℕ) (memory : Memory) :
    (∀ (c : Case 32) (value : Word),
      Zeroed (tableExtent wordCells offset c) memory →
        (c.GoesTo value (casew (disTcase offset c memory) value offset) ↔
          ∀ lab ∈ c.labs, lab.stop = BitVec.intMax 32 → lab.Contains value →
            lab.pc = c.iwild)) ∧
    (∀ (c : Case 64) (value : Big),
      Zeroed (tableExtent bigCells offset c) memory →
        (c.GoesTo value (casel (disTcasel offset c memory) value offset) ↔
          ∀ lab ∈ c.labs, lab.stop = BitVec.intMax 64 → lab.Contains value →
            lab.pc = c.iwild)) := by
  constructor
  · intro c value zeroed
    rw [casew, disTcase, case_disCase offset c zeroed value]
    exact c.goesTo_iff (by decide) value
  · intro c value zeroed
    rw [casel, disTcasel, case_disCase offset c zeroed value]
    exact c.goesTo_iff (by decide) value

/-- One range from 5 on, to 7, and everything else to 9. -/
def fromFive : Case 32 where
  labs := [⟨5#32, BitVec.intMax 32, 7#32, by decide⟩]
  iwild := 9#32
  ascending := List.pairwise_singleton _ _
  nlab_lt := by decide

/-- One range up to 5, to 7, and everything else to 9. -/
def upToFive : Case 64 where
  labs := [⟨0#64, 5#64, 7#32, by decide⟩]
  iwild := 9#32
  ascending := List.pairwise_singleton _ _
  nlab_lt := by decide

theorem case_goesTo_away_from_largest :
    fromFive.GoesTo 3#32 (casew (disTcase 0 fromFive fun _ => 0) 3#32 0) ∧
      upToFive.GoesTo 5#64 (casel (disTcasel 0 upToFive fun _ => 0) 5#64 0) := by
  constructor
  · apply ((case_goesTo_iff 0 fun _ => 0).1 fromFive 3#32 fun _ _ => rfl).mpr
    decide
  · apply ((case_goesTo_iff 0 fun _ => 0).2 upToFive 5#64 fun _ _ => rfl).mpr
    decide

/-- The largest word is in the range from 5 on, and so is 5, but control goes to the
wildcard. -/
theorem range_to_largest_skipped :
    Zeroed (tableExtent wordCells 0 fromFive) (fun _ => 0) ∧
      ¬ fromFive.GoesTo 5#32 (casew (disTcase 0 fromFive fun _ => 0) 5#32 0) := by
  constructor
  · intro _ _
    rfl
  · intro goes
    have wrong := goes.1 ⟨5#32, BitVec.intMax 32, 7#32, by decide⟩ (List.mem_singleton.mpr rfl)
      ⟨by decide, by decide⟩
    revert wrong
    decide +kernel

end Disvm.CaseTables
